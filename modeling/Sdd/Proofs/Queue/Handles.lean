import Sdd.Handles
import Sdd.Proofs.Queue.Invariant

/-!
# `Sdd.Proofs.Queue.Handles`: the invariant of a queue with handles

A deletion through a handle is the deletion of `pop_if` at another time: `Inv` is kept, since
the entry was attached. `Handled` is what is needed in addition: an entry that a push has
returned is attached, and no operation of the queue puts `Tag::First` on a link.
-/

set_option autoImplicit false

namespace Sdd.Proofs.Queue

open Sdd.Lib Sdd.Queue

variable {T : Type} {n : Nat} {w w' : World T n} {tgt : Addr → Option Addr} {t : Fin n}

/-- The links have no mark, and the users have handles on attached entries. -/
structure Handled (w : World T n) : Prop where
  plain : ∀ x, (w.heap.link x).tag ≠ .first
  attached : ∀ x, Handles.pushed w x = true → x ∈ w.attached

namespace Handled

/-- A new result of a call. -/
theorem pushed_result {op : Op T} {res : Res} {x : Addr}
    (hx : Handles.pushed { w with history := w.history ++ [.result t op res] } x = true) :
    Handles.pushed w x = true ∨ res = .pushed x := by
  unfold Handles.pushed at hx ⊢
  rw [List.any_append, Bool.or_eq_true] at hx
  refine hx.imp_right fun hx => ?_
  cases res with
  | pushed e =>
    have hex : e = x := by simpa using hx
    rw [hex]
  | _ => simp at hx

/-- An operation returns: the entry that a push answers with was attached. -/
theorem finish (h : Handled w) {op : Op T} {res : Res}
    (hres : ∀ e, res = .pushed e → e ∈ w.attached) : Handled (w.finish t op res) where
  plain := h.plain
  attached x hx := (pushed_result hx).elim (h.attached x) (hres x)

/-- A thread goes on, and the handles stay. -/
theorem goto (h : Handled w) (pc : Pc T) : Handled (w.goto t pc) := ⟨h.plain, h.attached⟩

/-- The condition is asked, and the handles stay. -/
theorem evaluate (h : Handled w) (p : Push T) (o : Option Addr) : Handled (w.evaluate t p o) := by
  unfold World.evaluate
  split
  · split
    · exact h.goto _
    · exact ⟨h.plain, h.attached⟩
  · exact h.finish nofun

/-- The traversal goes on, and the handles stay. -/
theorem traverse (h : Handled w) (p : Push T) (o : Option Addr) : Handled (w.traverse t p o) := by
  unfold World.traverse
  split
  · exact h.evaluate p none
  · exact h.goto _

/-- The condition of a pop is asked, and the handles stay. -/
theorem popIf (h : Handled w) (cond : T → Bool) (o : Option Addr) :
    Handled (w.popIf t cond o) := by
  unfold World.popIf
  split
  · exact h.finish nofun
  · exact h.goto _

/-- A peek ends, or goes on to the next entry. -/
theorem peek (h : Handled w) (o : Option Addr) : Handled (w.peek t o) := by
  unfold World.peek
  split
  · exact h.finish nofun
  · exact h.goto _

/-- What comes after a clean-up gives no handle away. -/
theorem cleaned (h : Handled w) (k : Clean T) (o : Option Addr) : Handled (w.cleaned t k o) := by
  unfold World.cleaned
  cases k with
  | popped cond e => exact h.finish nofun
  | retry cond => exact h.popIf cond o
  | peek => exact h.peek o
  | push p => exact h.traverse p o
  | iter => exact h.finish nofun

/-- A clean-up of a link keeps its tag. -/
theorem cleans (h : Handled w) {v : View} {h' : Heap T} (hc : Cleans v w.heap h') :
    Handled { w with heap := h' } where
  plain x := by
    rcases hc with rfl | ⟨y, p, rfl, -⟩
    · exact h.plain x
    · show (Function.update w.heap.link y _ x).tag ≠ .first
      by_cases hxy : x = y
      · rw [hxy, Function.update_self]
        exact h.plain y
      · rw [Function.update_of_ne hxy]
        exact h.plain x
  attached := h.attached

/-- The deletion of an entry. -/
theorem deleteSelf (h : Handled w) (x : Addr) :
    Handled { w with heap := (w.heap.deleteSelf x).1 } where
  plain y := by
    show ((w.heap.deleteSelf x).1.link y).tag ≠ .first
    cases hlive : w.heap.isDeleted x with
    | true =>
      rw [deleteSelf_dead hlive]
      exact h.plain y
    | false =>
      rw [deleteSelf_eq hlive]
      show (Function.update w.heap.link x _ y).tag ≠ .first
      by_cases hyx : y = x
      · rw [hyx, Function.update_self]
        simp [Ptr.withTag]
      · rw [Function.update_of_ne hyx]
        exact h.plain y
  attached := h.attached

/-- The compare-and-exchange that attaches an entry. -/
theorem attach (h : Handled w) (p : Push T) (e : Addr) (o : Option Addr) :
    Handled (w.attach t p e o) := by
  have hmem : ∀ x, Handles.pushed w x = true → x ∈ w.attached ++ [e] :=
    fun x hx => List.mem_append_left _ (h.attached x hx)
  unfold World.attach
  split
  · rename_i l
    split
    · refine ⟨fun x => ?_, hmem⟩
      show (Function.update w.heap.link l _ x).tag ≠ .first
      by_cases hxl : x = l
      · rw [hxl, Function.update_self]
        simp
      · rw [Function.update_of_ne hxl]
        exact h.plain x
    · split
      · exact h.goto _
      · split
        · exact h.goto _
        · exact h.traverse p _
  · split
    · exact ⟨h.plain, hmem⟩
    · exact h.traverse p _

/-- A step of a call. -/
theorem proceed (h : Handled w) (hinv : Inv w tgt) (hw : w.proceed t = some w') : Handled w' := by
  have hok := hinv.ok t
  have hheld := hinv.held t
  unfold World.proceed at hw
  cases hpc : w.pc t with
  | idle =>
    rw [hpc] at hw
    cases hw
  | loadNewest p =>
    rw [hpc] at hw
    simp only at hw
    split at hw
    · cases hw
      exact h.goto _
    · cases hw
      exact h.traverse p _
  | loadOldest p =>
    rw [hpc] at hw
    cases hw
    exact h.traverse p _
  | traverse p current call =>
    rw [hpc] at hw hok hheld
    cases hw
    have h' := h.cleans (nextPtr_cleans hok.2.2 fun x hx => hheld x (by simp [Pc.holds, hx]))
    unfold World.traversed
    split
    · exact h'.goto _
    · split
      · exact h'.evaluate p _
      · exact h'.goto _
  | attach p e o =>
    rw [hpc] at hw
    cases hw
    exact h.attach p e o
  | swapNewest p e =>
    rw [hpc] at hw
    cases hw
    exact ⟨h.plain, h.attached⟩
  | checkOldest p e =>
    rw [hpc] at hw hok
    simp only at hw
    split at hw
    · cases hw
      exact h.goto _
    · cases hw
      refine h.finish fun e' he => ?_
      cases he
      exact hok
  | resetNewest p e =>
    rw [hpc] at hw hok
    cases hw
    have h' : Handled { w with newest := none } := ⟨h.plain, h.attached⟩
    refine h'.finish fun e' he => ?_
    cases he
    exact hok
  | cleanLoad k =>
    rw [hpc] at hw
    simp only at hw
    split at hw
    · cases hw
      exact h.cleaned k _
    · cases hw
      exact h.goto _
  | cleanDeleted k x =>
    rw [hpc] at hw
    simp only at hw
    split at hw
    · cases hw
      exact h.goto _
    · cases hw
      exact h.cleaned k _
  | cleanNext k x call =>
    rw [hpc] at hw hok hheld
    cases hw
    have h' := h.cleans
      (nextShared_cleans hok.2.2.2 fun y hy => hheld y (by simp [Pc.holds, hy]))
    unfold World.cleanNext
    split
    · exact h'.goto _
    · exact h'.goto _
  | cleanExchange k x o =>
    rw [hpc] at hw
    cases hw
    unfold World.cleanExchange
    split
    · split
      · exact ⟨h.plain, h.attached⟩
      · rename_i y
        have h' : Handled { w with oldest := some y } := ⟨h.plain, h.attached⟩
        exact h'.cleaned k _
    · exact h.cleaned k _
  | cleanReset k =>
    rw [hpc] at hw
    cases hw
    have h' : Handled { w with newest := none } := ⟨h.plain, h.attached⟩
    exact h'.cleaned k none
  | popLoad cond =>
    rw [hpc] at hw
    cases hw
    exact h.popIf cond _
  | popGetShared cond x =>
    rw [hpc] at hw
    simp only at hw
    split at hw
    · cases hw
      exact h.goto _
    · cases hw
      exact h.goto _
  | popDeleted cond x =>
    rw [hpc] at hw
    cases hw
    unfold World.popDeleted
    split
    · exact h.finish (by simp)
    · exact h.goto _
  | popDelete cond x =>
    rw [hpc] at hw
    cases hw
    unfold World.popDelete
    have h' := h.deleteSelf x
    split
    · rename_i heap heq
      rw [heq] at h'
      exact h'.goto _
    · exact h.goto _
  | peekLoad =>
    rw [hpc] at hw
    cases hw
    exact h.peek _
  | peekDeleted x =>
    rw [hpc] at hw
    simp only at hw
    split at hw
    · cases hw
      exact h.goto _
    · cases hw
      exact h.finish (by simp)
  | isEmpty =>
    rw [hpc] at hw
    cases hw
    exact h.finish (by simp)
  | drop call =>
    rw [hpc] at hw hok hheld
    obtain ⟨b, hcall⟩ := hok
    have h' := h.cleans (nextPtr_cleans hcall fun x hx => hheld x (by simp [Pc.holds, hx]))
    simp only at hw
    split at hw
    · cases hw
      exact h'.goto _
    · cases hw
      exact h'.goto _

/-- An action of the queue. -/
theorem step (h : Handled w) (hinv : Inv w tgt) {a : Queue.Action T n} (hw : w.step a = some w') :
    Handled w' := by
  unfold World.step at hw
  split at hw
  · rename_i t op
    split at hw
    · cases hw
      refine ⟨h.plain, fun x hx => h.attached x ?_⟩
      change Handles.pushed { w with history := w.history ++ [.invoke t op] } x = true at hx
      unfold Handles.pushed at hx ⊢
      rw [List.any_append] at hx
      simpa using hx
    · cases hw
  · exact h.proceed hinv hw
  · split at hw
    · cases hw
      exact h.goto _
    · cases hw
  · split at hw
    · cases hw
      exact ⟨h.plain, h.attached⟩
    · cases hw

end Handled

/-- A deletion through a handle. -/
theorem deleteSelf_inv (h : Inv w tgt) {x : Addr} (hx : x ∈ w.attached) :
    ∃ tgt', Inv { w with heap := (w.heap.deleteSelf x).1 } tgt' := by
  cases hlive : w.heap.isDeleted x with
  | true =>
    rw [deleteSelf_dead hlive]
    exact ⟨tgt, h⟩
  | false =>
    refine ⟨_, h.shared.kill hx hlive, fun t => ?_, fun t y hy => ?_, h.own⟩
    · exact (h.ok t).ext (ext_kill hlive) h.shared fun _ _ => by simp
    · show (w.heap.deleteSelf x).1.released y = false
      rw [deleteSelf_eq hlive]
      exact h.held t y hy

/-- The invariant of every run with handles. -/
theorem handles_run {P : World T n → Handles.Action T n → Prop}
    (h : Run Handles.step P World.init w) : (∃ tgt, Inv w tgt) ∧ Handled w := by
  refine h.invariant (fun w => (∃ tgt, Inv w tgt) ∧ Handled w)
    ⟨⟨some, inv_init⟩, fun _ => nofun, fun _ hx => (by cases hx)⟩ ?_
  rintro w a w' ⟨⟨tgt, hinv⟩, hh⟩ - hs
  cases a with
  | queue a => exact ⟨inv_step hinv hs, hh.step hinv hs⟩
  | deleteSelf x =>
    unfold Handles.step at hs
    simp only at hs
    split at hs
    · rename_i hx
      cases hs
      rw [Bool.and_eq_true] at hx
      exact ⟨deleteSelf_inv hinv (hh.attached x hx.1), hh.deleteSelf x⟩
    · cases hs

end Sdd.Proofs.Queue
