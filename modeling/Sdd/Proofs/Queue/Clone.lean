import Sdd.Proofs.Queue.Returns
import Sdd.QueueClone

/-!
# `Sdd.Proofs.Queue.Clone`: what the copies of a queue hold

`Holding t vals w` says that the thread `t` is in no call, and that the undeleted entries of the
queue hold the instances `vals`. A `pop` that runs alone takes the first one (`pops_of_holding`),
and a push puts one behind them (`push_of_holding`): `Popping` and `Appending` say how far such a
call has come, and `ends_keeps` puts the steps together.

`clone` leaves the queue `Unchanged`. At an entry it finds the undeleted ones `Behind` it, so that
the copy gets their instances one after the other (`cloning_next`), after that of the entry where
it begins. `queue_copies_iff` is the result: the copy is right unless the head is deleted.
-/

set_option autoImplicit false

namespace Sdd.Proofs.Queue

open Sdd.Lib Sdd.Queue Sdd.QueueClone

variable {T : Type} {n : Nat} {w w' : World T n} {tgt : Addr → Option Addr} {t : Fin n}

section instances

/-- The condition is asked, and a new entry may be created. -/
theorem evaluate_grows (p : Push T) (o : Option Addr) :
    Grows w.heap (w.evaluate t p o).heap := by
  unfold World.evaluate
  split
  · split
    · exact .refl _
    · exact grows_alloc p.val
  · exact .refl _

/-- The same at the end of a traversal. -/
theorem traverse_grows (p : Push T) (o : Option Addr) :
    Grows w.heap (w.traverse t p o).heap := by
  unfold World.traverse
  split
  · exact evaluate_grows p none
  · exact .refl _

/-- The same after a clean-up. -/
theorem cleaned_grows (k : Clean T) (o : Option Addr) : Grows w.heap (w.cleaned t k o).heap := by
  unfold World.cleaned
  cases k with
  | push p => exact traverse_grows p o
  | popped cond e => exact .refl _
  | retry cond => cases o <;> exact .refl _
  | peek => cases o <;> exact .refl _
  | iter => exact .refl _

/-- An entry is attached: no value changes. -/
theorem attach_grows (p : Push T) (e : Addr) (o : Option Addr) :
    Grows w.heap (w.attach t p e o).heap := by
  unfold World.attach
  split
  · split
    · exact .of_eq rfl rfl
    · split
      · exact .refl _
      · split
        · exact .refl _
        · exact traverse_grows p _
  · split
    · exact .refl _
    · exact traverse_grows p _

/-- A step of a call. -/
theorem proceed_grows (h : Inv w tgt) (hw : w.proceed t = some w') : Grows w.heap w'.heap := by
  have hok := h.ok t
  have hheld := h.held t
  unfold World.proceed at hw
  cases hpc : w.pc t with
  | idle =>
    rw [hpc] at hw
    cases hw
  | loadNewest p =>
    rw [hpc] at hw
    simp only at hw
    split at hw
    · cases hw
      exact .refl _
    · cases hw
      exact traverse_grows p _
  | loadOldest p =>
    rw [hpc] at hw
    cases hw
    exact traverse_grows p _
  | traverse p current call =>
    rw [hpc] at hw hok hheld
    cases hw
    -- The walk writes links of deleted entries only, never a value.
    have hc := grows_clean (nextPtr_cleans hok.2.2 fun x hx => hheld x (by simp [Pc.holds, hx]))
    unfold World.traversed
    split
    · exact hc
    · split
      · exact hc.trans (evaluate_grows (w := { w with heap := (call.step w.heap).1 }) p _)
      · exact hc
  | attach p e o =>
    rw [hpc] at hw
    cases hw
    exact attach_grows p e o
  | swapNewest p e =>
    rw [hpc] at hw
    cases hw
    exact .refl _
  | checkOldest p e =>
    rw [hpc] at hw
    simp only at hw
    split at hw
    · cases hw
      exact .refl _
    · cases hw
      exact .refl _
  | resetNewest p e =>
    rw [hpc] at hw
    cases hw
    exact .refl _
  | cleanLoad k =>
    rw [hpc] at hw
    simp only at hw
    split at hw
    · cases hw
      exact cleaned_grows k _
    · cases hw
      exact .refl _
  | cleanDeleted k x =>
    rw [hpc] at hw
    simp only at hw
    split at hw
    · cases hw
      exact .refl _
    · cases hw
      exact cleaned_grows k _
  | cleanNext k x call =>
    rw [hpc] at hw hok hheld
    cases hw
    -- The walk writes links of deleted entries only, never a value.
    have hc := grows_clean
      (nextShared_cleans hok.2.2.2 fun y hy => hheld y (by simp [Pc.holds, hy]))
    unfold World.cleanNext
    split
    · exact hc
    · exact hc
  | cleanExchange k x o =>
    rw [hpc] at hw
    cases hw
    unfold World.cleanExchange
    split
    · split
      · exact .refl _
      · rename_i y
        exact cleaned_grows (w := { w with oldest := some y }) k _
    · exact cleaned_grows k _
  | cleanReset k =>
    rw [hpc] at hw
    cases hw
    exact cleaned_grows (w := { w with newest := none }) k none
  | popLoad cond =>
    rw [hpc] at hw
    cases hw
    cases w.oldest <;> exact .refl _
  | popGetShared cond x =>
    rw [hpc] at hw
    simp only at hw
    split at hw
    · cases hw
      exact .refl _
    · cases hw
      exact .refl _
  | popDeleted cond x =>
    rw [hpc] at hw
    cases hw
    unfold World.popDeleted
    split <;> exact .refl _
  | popDelete cond x =>
    rw [hpc] at hw
    cases hw
    have hg := grows_deleteSelf (h := w.heap) x
    unfold World.popDelete
    split
    · rename_i heq
      rw [heq] at hg
      exact hg
    · exact .refl _
  | peekLoad =>
    rw [hpc] at hw
    cases hw
    cases w.oldest <;> exact .refl _
  | peekDeleted x =>
    rw [hpc] at hw
    simp only at hw
    split at hw
    · cases hw
      exact .refl _
    · cases hw
      exact .refl _
  | isEmpty =>
    rw [hpc] at hw
    cases hw
    exact .refl _
  | drop call =>
    rw [hpc] at hw hok hheld
    obtain ⟨b, hcall⟩ := hok
    -- The walk writes links of deleted entries only, never a value.
    have hc := grows_clean (nextPtr_cleans hcall fun x hx => hheld x (by simp [Pc.holds, hx]))
    simp only at hw
    split at hw
    · cases hw
      exact hc
    · cases hw
      exact hc

end instances

section pop

/-- What `cleanup_oldest` does for a call of `pop` in a queue that has had the contents `C`. -/
def PoppingClean (C : List Addr) (w : World T n) : Clean T → Prop
  | .retry cond => cond = (fun _ => true) ∧ w.contents = C
  | .popped cond e => cond = (fun _ => true) ∧ C.head? = some e ∧ w.contents = C.tail
  | .peek | .push _ | .iter => False

/-- How far a call of `pop` has come in a queue that has had the contents `C`. -/
def Popping (t : Fin n) (C : List Addr) (w : World T n) : Pc T → Prop
  | .popLoad cond | .popGetShared cond _ | .popDeleted cond _ | .popDelete cond _ =>
    cond = (fun _ => true) ∧ w.contents = C
  | .cleanLoad k | .cleanDeleted k _ | .cleanNext k _ _ | .cleanExchange k _ _ =>
    PoppingClean C w k
  | .cleanReset k => PoppingClean C w k ∧ w.contents = []
  | .idle => w.history.getLast? = some (.result t .pop (.popped C.head?)) ∧ w.contents = C.tail
  | _ => False

variable {C : List Addr} {k : Clean T} {o : Option Addr}

/-- A pop goes to another place, and the contents stay. -/
theorem popping_goto {q : Pc T} (h : Popping t C w q) :
    Popping t C (w.goto t q) ((w.goto t q).pc t) := by
  show Popping t C (w.goto t q) (Function.update w.pc t q t)
  rw [Function.update_self]
  cases q <;> exact h

/-- A pop returns the first value, which is no longer there. -/
theorem popping_finish (ho : C.head? = o) (hC : w.contents = C.tail) :
    Popping t C (w.finish t .pop (.popped o)) ((w.finish t .pop (.popped o)).pc t) := by
  refine popping_goto ⟨?_, hC⟩
  rw [ho]
  exact List.getLast?_concat

/-- `pop` goes on with the entry `o`, or returns. -/
theorem popping_popIf (hC : w.contents = C) (ho : o = none → w.contents = []) :
    Popping t C (w.popIf t (fun _ => true) o) ((w.popIf t (fun _ => true) o).pc t) := by
  cases o with
  | none =>
    rw [← hC, ho rfl]
    exact popping_finish rfl (ho rfl)
  | some x => exact popping_goto ⟨rfl, hC⟩

/-- `cleanup_oldest` returns. -/
theorem popping_cleaned (h : PoppingClean C w k) (ho : o = none → w.contents = []) :
    Popping t C (w.cleaned t k o) ((w.cleaned t k o).pc t) := by
  cases k with
  | retry cond =>
    obtain ⟨rfl, hC⟩ := h
    exact popping_popIf hC ho
  | popped cond e =>
    obtain ⟨rfl, hhead, htail⟩ := h
    exact popping_finish hhead htail
  | _ => cases h

/-- A write that leaves the contents as they are. -/
theorem PoppingClean.congr (h : PoppingClean C w k) (hw : w'.contents = w.contents) :
    PoppingClean C w' k := by
  cases k with
  | retry cond => exact ⟨h.1, hw.trans h.2⟩
  | popped cond e => exact ⟨h.1, h.2.1, hw.trans h.2.2⟩
  | _ => cases h

/-- The deletion of the first entry. -/
theorem contents_popDelete (hs : Shared w tgt) {x : Addr} (hx : x ∈ w.attached)
    (hold : OldOrDead w x) (hlive : w.heap.isDeleted x = false) : w.contents.head? = some x ∧
      World.contents { w with heap := (w.heap.deleteSelf x).1 } = w.contents.tail := by
  have hhead := hs.head_of_old hold hlive
  refine ⟨hhead, ?_⟩
  rw [contents_kill hs hx hlive]
  cases hC : w.contents with
  | nil =>
    rw [hC] at hhead
    cases hhead
  | cons y C =>
    rw [hC] at hhead
    cases hhead
    exact List.erase_cons_head ..

/-- A step of `pop`. -/
theorem popping_step (h : Calm w) (hv : Valued w.heap) (hp : Popping t C w (w.pc t))
    (hw : w.proceed t = some w') : Popping t C w' (w'.pc t) := by
  obtain ⟨tgt, hinv⟩ := h.inv
  have hok := hinv.ok t
  have hheld := hinv.held t
  have hnil : w.oldest = none → w.contents = [] := fun hold =>
    hinv.shared.contents_nil (by rw [hold]; rfl)
  have hcalm := h.next hw
  unfold World.proceed at hw
  cases hpc : w.pc t with
  | popLoad cond =>
    rw [hpc] at hw hp
    obtain ⟨rfl, hC⟩ := hp
    cases hw
    exact popping_popIf hC hnil
  | popGetShared cond x =>
    rw [hpc] at hw hp
    simp only at hw
    split at hw
    · cases hw
      exact popping_goto (q := .cleanLoad (.retry cond)) hp
    · cases hw
      exact popping_goto (q := .popDeleted cond x) hp
  | popDeleted cond x =>
    rw [hpc] at hw hp hok
    obtain ⟨rfl, hC⟩ := hp
    cases hw
    unfold World.popDeleted
    split
    · rename_i hcond
      -- The condition of `pop` holds of every instance.
      have hval := hv x (hinv.shared.heap.bound x hok.1)
      cases hx : w.heap.value x with
      | none =>
        rw [hx] at hval
        cases hval
      | some v =>
        rw [hx] at hcond
        simp at hcond
    · exact popping_goto ⟨rfl, hC⟩
  | popDelete cond x =>
    rw [hpc] at hw hp hok
    obtain ⟨rfl, hC⟩ := hp
    cases hw
    unfold World.popDelete
    cases hlive : w.heap.isDeleted x with
    | false =>
      obtain ⟨hhead, htail⟩ := contents_popDelete hinv.shared hok.1 hok.2.1 hlive
      rw [hC] at hhead htail
      rw [deleteSelf_eq hlive] at htail ⊢
      exact popping_goto ⟨rfl, hhead, htail⟩
    | true =>
      rw [deleteSelf_dead hlive]
      exact popping_goto ⟨rfl, hC⟩
  | cleanLoad k =>
    rw [hpc] at hw hp
    simp only at hw
    split at hw
    · rename_i hold
      cases hw
      exact popping_cleaned hp fun _ => hnil hold
    · cases hw
      exact popping_goto hp
  | cleanDeleted k x =>
    rw [hpc] at hw hp
    simp only at hw
    split at hw
    · cases hw
      exact popping_goto hp
    · cases hw
      exact popping_cleaned hp fun hc => by cases hc
  | cleanNext k x call =>
    rw [hpc] at hw hp hok hheld
    cases hw
    have hclean := nextShared_cleans hok.2.2.2 fun y hy => hheld y (by simp [Pc.holds, hy])
    have hp' : PoppingClean C { w with heap := (call.step w.heap).1 } k :=
      PoppingClean.congr hp (contents_eq hclean.isDeleted_eq)
    unfold World.cleanNext
    split
    · exact popping_goto hp'
    · exact popping_goto hp'
  | cleanExchange k x next =>
    rw [hpc] at hw hp
    cases hw
    unfold World.cleanExchange at hcalm ⊢
    split
    · rename_i hold
      rw [if_pos hold] at hcalm
      cases next with
      | none =>
        obtain ⟨tgt', hinv'⟩ := hcalm.inv
        exact popping_goto ⟨PoppingClean.congr hp rfl, hinv'.shared.contents_nil rfl⟩
      | some y => exact popping_cleaned (PoppingClean.congr hp rfl) fun hc => by cases hc
    · exact popping_cleaned hp hnil
  | cleanReset k =>
    rw [hpc] at hw hp
    cases hw
    exact popping_cleaned (PoppingClean.congr hp.1 rfl) fun _ => hp.2
  | idle =>
    rw [hpc] at hw
    cases hw
  | _ =>
    rw [hpc] at hp
    cases hp

end pop

section push

/-- How far the push of an instance has come in a queue that has had the contents `C`. -/
def Appending (val : T) (C : List Addr) (w : World T n) : Pc T → Prop
  | .loadNewest p | .loadOldest p | .traverse p _ _ | .attach p _ _ =>
    p.val = val ∧ p.cond = (fun _ => true) ∧ w.contents = C
  | .swapNewest _ e | .checkOldest _ e | .resetNewest _ e =>
    w.contents = C ++ [e] ∧ w.heap.value e = some val
  | .idle => ∃ e, w.contents = C ++ [e] ∧ w.heap.value e = some val
  | _ => False

variable {C : List Addr} {val : T} {p : Push T} {o : Option Addr}

/-- A push goes to another place, and the contents stay. -/
theorem appending_goto {q : Pc T} (h : Appending val C w q) :
    Appending val C (w.goto t q) ((w.goto t q).pc t) := by
  show Appending val C (w.goto t q) (Function.update w.pc t q t)
  rw [Function.update_self]
  cases q <;> exact h

/-- A push without a condition goes on to its exchange. -/
theorem appending_evaluate (hval : p.val = val) (hcond : p.cond = fun _ => true)
    (hC : w.contents = C) : Appending val C (w.evaluate t p o) ((w.evaluate t p o).pc t) := by
  unfold World.evaluate
  rw [hcond, if_pos rfl]
  split
  · exact appending_goto ⟨hval, hcond, hC⟩
  · exact appending_goto (w := { w with heap := w.heap.alloc p.val }) ⟨hval, rfl, hC⟩

/-- The same at the end of a traversal. -/
theorem appending_traverse (hval : p.val = val) (hcond : p.cond = fun _ => true)
    (hC : w.contents = C) : Appending val C (w.traverse t p o) ((w.traverse t p o).pc t) := by
  unfold World.traverse
  split
  · exact appending_evaluate hval hcond hC
  · exact appending_goto ⟨hval, hcond, hC⟩

/-- The compare-and-exchange that attaches the entry. -/
theorem appending_attach (h : Calm w) (hinv : Inv w tgt) {e : Addr}
    (hpc : w.pc t = .attach p e o) (hval : p.val = val) (hcond : p.cond = fun _ => true)
    (hC : w.contents = C) : Appending val C (w.attach t p e o) ((w.attach t p e o).pc t) := by
  have hok := hinv.ok t
  rw [hpc] at hok
  obtain ⟨hp, hentry, hmem, -⟩ := hok
  obtain ⟨-, hnew, hvalue⟩ := hp e hentry
  rw [hval] at hvalue
  -- The exchange on the link of the last entry, or on oldest where the list was empty.
  unfold World.attach
  split
  · rename_i l
    split
    · rename_i hnull
      refine appending_goto (q := .swapNewest p e) ⟨?_, hvalue⟩
      rw [← hC]
      exact contents_attachNewest hinv.shared hnew hnull
    · rw [if_neg (h.handled.plain l)]
      split
      · exact appending_goto ⟨hval, hcond, hC⟩
      · exact appending_traverse hval hcond hC
  · split
    · refine appending_goto (q := .swapNewest p e) ⟨?_, hvalue⟩
      rw [← hC]
      exact contents_attach hinv.shared hnew
    · exact appending_traverse hval hcond hC

/-- A step of a push. -/
theorem appending_step (h : Calm w) (hp : Appending val C w (w.pc t))
    (hw : w.proceed t = some w') : Appending val C w' (w'.pc t) := by
  obtain ⟨tgt, hinv⟩ := h.inv
  have hok := hinv.ok t
  have hheld := hinv.held t
  unfold World.proceed at hw
  cases hpc : w.pc t with
  | loadNewest p =>
    rw [hpc] at hw hp
    obtain ⟨hval, hcond, hC⟩ := hp
    simp only at hw
    split at hw
    · cases hw
      exact appending_goto ⟨hval, hcond, hC⟩
    · cases hw
      exact appending_traverse hval hcond hC
  | loadOldest p =>
    rw [hpc] at hw hp
    obtain ⟨hval, hcond, hC⟩ := hp
    cases hw
    exact appending_traverse hval hcond hC
  | traverse p current call =>
    rw [hpc] at hw hp hok hheld
    obtain ⟨hval, hcond, hC⟩ := hp
    cases hw
    -- The walk of the push leaves the contents as they are.
    have hclean := nextPtr_cleans hok.2.2 fun x hx => hheld x (by simp [Pc.holds, hx])
    have hC' : World.contents { w with heap := (call.step w.heap).1 } = C :=
      (contents_eq hclean.isDeleted_eq).trans hC
    unfold World.traversed
    split
    · exact appending_goto ⟨hval, hcond, hC'⟩
    · split
      · exact appending_evaluate hval hcond hC'
      · exact appending_goto ⟨hval, hcond, hC'⟩
  | attach p e o =>
    rw [hpc] at hw hp
    obtain ⟨hval, hcond, hC⟩ := hp
    cases hw
    exact appending_attach h hinv hpc hval hcond hC
  | swapNewest p e =>
    rw [hpc] at hw hp
    cases hw
    exact appending_goto (q := .checkOldest p e) hp
  | checkOldest p e =>
    rw [hpc] at hw hp
    simp only at hw
    split at hw
    · cases hw
      exact appending_goto (q := .resetNewest p e) hp
    · cases hw
      exact appending_goto (q := .idle) ⟨e, hp⟩
  | resetNewest p e =>
    rw [hpc] at hw hp
    cases hw
    exact appending_goto (q := .idle) ⟨e, hp⟩
  | idle =>
    rw [hpc] at hw
    cases hw
  | _ =>
    rw [hpc] at hp
    cases hp

end push

section holding

/-- The thread is in no call, and the entries of the queue hold the instances. -/
structure Holding (t : Fin n) (vals : List T) (w : World T n) : Prop where
  calm : Calm w
  valued : Valued w.heap
  idle : w.pc t = .idle
  values : w.contents.map w.heap.value = vals.map some

variable {vals : List T}

/-- Releases change nothing of what a thread sees. -/
theorem Holding.released (h : Holding t vals w)
    (hr : Relation.ReflTransGen Handles.Releases w w') : Holding t vals w' := by
  refine env_invariant (fun w w' h he => ?_) hr h
  obtain ⟨tgt, hinv⟩ := h.calm.inv
  obtain ⟨hinv', r, rfl⟩ := release_eq he hinv
  exact ⟨⟨⟨tgt, hinv'⟩, h.calm.handled.plain, h.calm.handled.attached⟩, h.valued, h.idle, h.values⟩

/-- What each step of a call keeps, and the releases in between, is true in the end. -/
theorem ends_keeps (I : World T n → Pc T → Prop)
    (hstep : ∀ w w', Calm w → Valued w.heap → I w (w.pc t) → w.proceed t = some w' →
      I w' (w'.pc t))
    (hrel : ∀ w r, I w (w.pc t) → I (withReleased w r) (w.pc t))
    (he : EndsAlone t w) (h : Calm w) (hv : Valued w.heap) (hi : I w (w.pc t)) :
    Ends (fun w => w.proceed t) Handles.Releases
      (fun w' => w'.pc t = .idle ∧ Calm w' ∧ Grows w.heap w'.heap ∧ I w' .idle) w := by
  refine (he.keeps (fun w' => Calm w' ∧ Grows w.heap w'.heap ∧ I w' (w'.pc t)) ?_ ?_
    ⟨h, .refl _, hi⟩).imp fun w' ⟨hidle, hcalm, hg, hi⟩ => ⟨hidle, hcalm, hg, hidle ▸ hi⟩
  · rintro w₁ w₂ ⟨hcalm, hg, hi⟩ hr
    obtain ⟨tgt, hinv⟩ := hcalm.inv
    obtain ⟨hinv', r, rfl⟩ := release_eq hr hinv
    exact ⟨⟨⟨tgt, hinv'⟩, hcalm.handled.plain, hcalm.handled.attached⟩,
      hg.trans (.of_eq rfl rfl), hrel w₁ r hi⟩
  · rintro w₁ w₂ ⟨hcalm, hg, hi⟩ hw
    obtain ⟨tgt, hinv⟩ := hcalm.inv
    exact ⟨hcalm.next hw, hg.trans (proceed_grows hinv hw),
      hstep w₁ w₂ hcalm (hv.grows hg) hi hw⟩

/-- The instances of the contents, when others have been created. -/
theorem Holding.grows (h : Holding t vals w) (hg : Grows w.heap w'.heap) :
    w.contents.map w'.heap.value = vals.map some := by
  obtain ⟨tgt, hinv⟩ := h.calm.inv
  rw [← h.values]
  refine List.map_congr_left fun x hx => hg.value x (hinv.shared.heap.bound x ?_)
  exact (Shared.mem_contents.mp hx).1

/-- `pop` takes the first entry. -/
theorem pops_of_holding (h : Holding t vals w) :
    (container t).Pops (fun o w' => o = vals.head? ∧ Holding t vals.tail w') w := by
  intro w₁ hr
  have h₁ := h.released hr
  refine ⟨_, step_invoke h₁.idle .pop, ?_⟩
  have hcalm := h₁.calm.invoked h₁.idle .pop
  refine (ends_keeps (Popping t w₁.contents) (fun w w' hc hv hi hw => popping_step hc hv hi hw)
    (fun w r hi => ?_) (popIf_ends hcalm (invoked_pc .pop)) hcalm h₁.valued ?_).imp ?_
  · generalize w.pc t = pc at hi
    cases pc with
    | cleanLoad k | cleanDeleted k _ | cleanNext k _ _ | cleanExchange k _ _ | cleanReset k =>
      cases k <;> exact hi
    | _ => exact hi
  · rw [invoked_pc]
    exact ⟨rfl, rfl⟩
  · rintro w' ⟨hidle, hcalm', hg, hlast, hC⟩
    have hvalues := h₁.grows hg
    refine ⟨vals.head?, ⟨hidle, _, hlast, ?_⟩, rfl, hcalm', h₁.valued.grows hg, hidle, ?_⟩
    · rw [← List.head?_map, ← List.head?_map, hvalues]
    · rw [hC, List.map_tail, hvalues, List.map_tail]

/-- The queue yields the instances that it holds. -/
theorem Holding.yields (h : Holding t vals w) : (container t).Yields vals w :=
  .of_holds (Holding t) (fun _ _ h => pops_of_holding h) h

/-- A push puts an instance behind the others. -/
theorem push_of_holding (h : Holding t vals w) (hcontents : w.oldest = none ∨ w.contents ≠ [])
    (val : T) : Ends (fun w => w.proceed t) Handles.Releases
      (fun w' => Holding t (vals ++ [val]) w' ∧ w'.contents ≠ []) (invoked w t (.push val)) := by
  have hcalm := h.calm.invoked h.idle (.push val)
  refine (ends_keeps (Appending val w.contents) (fun w w' hc _ hi hw => appending_step hc hi hw)
    (fun w r hi => ?_)
    (push_ends (p := ⟨val, fun _ => true, none⟩) (fun _ => rfl) hcalm (invoked_pc _) hcontents)
    hcalm h.valued ?_).imp ?_
  · generalize w.pc t = pc at hi
    cases pc <;> exact hi
  · rw [invoked_pc]
    exact ⟨rfl, rfl, rfl⟩
  · rintro w' ⟨hidle, hcalm', hg, e, hC, hval⟩
    refine ⟨⟨hcalm', h.valued.grows hg, hidle, ?_⟩, ?_⟩
    · rw [hC, List.map_append, List.map_append, h.grows hg, List.map_singleton, hval]
      rfl
    · rw [hC]
      simp

end holding

section clone

variable {clone : T → T} {vals copied : List T} {x : Addr} {post : List Addr} {o : Option Addr}
  {done : Cloning T n → Prop}

/-- The queue, while it is copied: links have been cleaned up, and entries released. -/
structure Unchanged (w w' : World T n) : Prop where
  calm : Calm w'
  frame : Frame w w'
  value : w'.heap.value = w.heap.value
  nextAddr : w'.heap.nextAddr = w.heap.nextAddr
  pc : w'.pc = w.pc

/-- Nothing has been cleaned up yet. -/
theorem Unchanged.refl (h : Calm w) : Unchanged w w :=
  ⟨h, .refl w, rfl, rfl, rfl⟩

/-- An entry that is released is not in the list any more. -/
theorem Unchanged.release (h : Unchanged w w') {w'' : World T n} (hr : Handles.Releases w' w'') :
    Unchanged w w'' := by
  obtain ⟨tgt, hinv⟩ := h.calm.inv
  obtain ⟨hinv', r, rfl⟩ := release_eq hr hinv
  exact ⟨⟨⟨tgt, hinv'⟩, h.calm.handled.plain, h.calm.handled.attached⟩,
    ⟨h.frame.oldest, h.frame.attached, h.frame.tags⟩, h.value, h.nextAddr, h.pc⟩

/-- A call of the copying thread cleans up a link. -/
theorem Unchanged.cleans (h : Unchanged w w') (hinv : Inv w' tgt) {h' : Heap T}
    (hc : Cleans (view w' tgt) w'.heap h') : Unchanged w { w' with heap := h' } where
  calm := ⟨⟨tgt, clean_inv hinv hc⟩, h.calm.handled.cleans hc⟩
  frame := h.frame.trans (frame_cleans hc)
  value := hc.fields.1.trans h.value
  nextAddr := hc.fields.2.2.trans h.nextAddr
  pc := h.pc

/-- The value at hand stays while the copy is made. -/
theorem Holding.unchanged (h : Holding t vals w) (hw : Unchanged w w') : Holding t vals w' where
  calm := hw.calm
  valued := h.valued.grows (.of_eq hw.value hw.nextAddr)
  idle := by
    rw [hw.pc]
    exact h.idle
  values := by
    rw [hw.frame.contents, hw.value]
    exact h.values

/-- The undeleted entries behind `x`: `x` is one itself, or a deleted entry in `oldest`. -/
def Behind (w : World T n) (x : Addr) (post : List Addr) : Prop :=
  (∃ pre, w.contents = pre ++ x :: post) ∨
    w.heap.isDeleted x = true ∧ w.oldest = some x ∧ w.contents = post

/-- What is behind an entry stays when other entries are written. -/
theorem Behind.frame (h : Behind w x post) (hf : Frame w w') : Behind w' x post := by
  unfold Behind
  rw [hf.contents, hf.isDeleted, hf.oldest]
  exact h

/-- The link of the entry leads to the first one behind it. -/
theorem Behind.head (h : Behind w x post) (hs : Shared w tgt) :
    (next w.heap x).bind tgt = post.head? := by
  have hlist := hs.list
  rcases h with ⟨pre, hC⟩ | ⟨hdead, hold, hC⟩
  · rw [hC] at hlist
    exact hlist.after.head_eq.symm
  · rw [hC, hold] at hlist
    exact (hs.heap.skip.dead x hdead).symm.trans hlist.head_eq.symm

/-- The next entry has the rest behind it. -/
theorem Behind.next {y : Addr} (h : Behind w x (y :: post)) : Behind w y post := by
  rcases h with ⟨pre, hC⟩ | ⟨-, -, hC⟩
  · exact .inl ⟨pre ++ [x], by rw [hC, List.append_assoc]; rfl⟩
  · exact .inl ⟨[], hC⟩

/-- The entry was attached. -/
theorem Behind.mem (h : Behind w x post) (hs : Shared w tgt) : x ∈ w.attached := by
  rcases h with ⟨pre, hC⟩ | ⟨-, hold, -⟩
  · refine (Shared.mem_contents.mp ?_).1
    rw [hC]
    exact List.mem_append_right _ List.mem_cons_self
  · exact (hs.roots x (.inl hold)).1

/-- The release of an entry does not move a thread. -/
theorem releases_pc (hr : Handles.Releases w w') : w'.pc = w.pc := by
  obtain ⟨x, hx⟩ := hr
  unfold World.step at hx
  simp only at hx
  split at hx
  · cases hx
    rfl
  · cases hx

/-- The copy is ready for a push. -/
structure Ready (t : Fin n) (copied : List T) (w : World T n) : Prop where
  holding : Holding t copied w
  filled : w.oldest = none ∨ w.contents ≠ []

/-- The copy is not touched by the release of an entry. -/
theorem Ready.release (h : Ready t copied w) (hr : Handles.Releases w w') : Ready t copied w' := by
  refine ⟨h.holding.released (.single hr), ?_⟩
  obtain ⟨tgt, hinv⟩ := h.holding.calm.inv
  obtain ⟨-, r, rfl⟩ := release_eq hr hinv
  exact h.filled

/-- The push to the copy. -/
theorem cloning_push {val : T}
    (hmove : ∀ queue copy, Unchanged w queue → Ready t (copied ++ [val]) copy →
      Ends (Cloning.proceed clone t) Cloning.Releases done ⟨queue, copy, .move o⟩)
    {queue copy : World T n} (hq : Unchanged w queue) (hcopy : Ready t copied copy) :
    Ends (Cloning.proceed clone t) Cloning.Releases done
      ⟨queue, invoked copy t (.push val), .push o⟩ := by
  have hends := push_of_holding hcopy.holding hcopy.filled val
  refine hends.inside (fun s : Cloning T n => s.copy)
    (fun s => s.place = .push o ∧ Unchanged w s.queue ∧ s.copy.pc t ≠ .idle) ⟨rfl, hq, ?_⟩ ?_ ?_ ?_
  · rw [invoked_pc]
    simp [Op.push, World.entry]
  · rintro s ⟨-, -, hne⟩ ⟨hd, -⟩
    exact hne hd.idle
  · rintro s s₁ ⟨hplace, hq, hne⟩ ⟨hplace', ⟨hcopy', x, hx, -⟩ | ⟨hqueue, hr⟩⟩
    · rw [hcopy']
      exact ⟨⟨hplace'.trans hplace, hq.release ⟨x, hx⟩, hne⟩, .refl⟩
    · exact ⟨⟨hplace'.trans hplace, hqueue ▸ hq, releases_pc hr ▸ hne⟩, .single hr⟩
  · rintro ⟨queue, copy, place⟩ u ⟨hplace, hq, hne⟩ hu
    cases hplace
    simp only [Cloning.proceed, hu, Option.map_some]
    refine ⟨_, rfl, ?_⟩
    split
    · rename_i hidle
      refine .inr fun he => ?_
      have hstuck : u.proceed t = none := by
        unfold World.proceed
        rw [hidle]
      obtain ⟨hh, hne⟩ := he.done_of_stuck hstuck
      exact hmove queue u hq ⟨hh, .inr hne⟩
    · rename_i hne'
      exact .inl ⟨⟨rfl, hq, fun hc => hne' hc⟩, rfl⟩

/-- One entry is copied. -/
theorem cloning_entry {val : T} (hval : w.heap.value x = some val)
    (hmove : ∀ queue copy, Unchanged w queue → Ready t (copied ++ [clone val]) copy →
      Ends (Cloning.proceed clone t) Cloning.Releases done ⟨queue, copy, .move post.head?⟩)
    {queue copy : World T n} (hq : Unchanged w queue) (hcopy : Ready t copied copy)
    (hb : Behind w x post) :
    Ends (Cloning.proceed clone t) Cloning.Releases done ⟨queue, copy, .next x (.start x)⟩ := by
  obtain ⟨tgt, hinv⟩ := hq.calm.inv
  have hx : x ∈ queue.attached := (hb.frame hq.frame).mem hinv.shared
  refine nextPtr_ends (fun s : Cloning T n => s.queue.heap) queue.attached tgt x
    (fun s call => s.place = .next x call ∧ Inv s.queue tgt ∧ Unchanged w s.queue ∧
      s.queue.attached = queue.attached ∧ CallOk (view s.queue tgt) False x call ∧
      (∀ y, call.holds = some y → s.queue.heap.released y = false) ∧ Ready t copied s.copy)
    (fun s call hat => ?_) (fun s s' call hat he => ?_) (fun s call hat => ?_)
    ⟨rfl, hinv, hq, rfl, callOk_start hx False.elim, (fun y hy => by cases hy), hcopy⟩
  · obtain ⟨-, hinv', -, hatt, -, hheld, -⟩ := hat
    rw [← hatt]
    exact holds_of_inv hinv' (hatt ▸ hx) hheld
  · obtain ⟨hplace, hinv', hq', hatt, hcall, hheld, hcopy'⟩ := hat
    obtain ⟨hplace', ⟨hsame, y, hy, hne⟩ | ⟨hsame, hr⟩⟩ := he
    · rw [hsame]
      have hq'' := hq'.release ⟨y, hy⟩
      obtain ⟨queue', copy', place'⟩ := s'
      unfold World.step at hy
      simp only at hy
      split at hy
      · rename_i hun
        cases hy
        refine ⟨⟨hplace'.trans hplace, release_inv hinv' hun, hq'', hatt, hcall, fun z hz => ?_,
          hcopy'⟩, rfl⟩
        have hzy : z ≠ y := fun hc => hne x call hplace (hc ▸ hz)
        show Function.update s.queue.heap.released y true z = false
        rw [Function.update_of_ne hzy]
        exact hheld z hz
      · cases hy
    · rw [hsame]
      exact ⟨⟨hplace'.trans hplace, hinv', hq', hatt, hcall, hheld, hcopy'.release hr⟩, rfl⟩
  · obtain ⟨hplace, hinv', hq', hatt, hcall, hheld, hcopy'⟩ := hat
    have hclean := nextPtr_cleans hcall hheld
    have hq'' := hq'.cleans hinv' hclean
    have hinv'' := clean_inv hinv' hclean
    have hafter := nextPtr_ok hinv'.shared.heap hcall
    rw [← view_eq hclean.isDeleted_eq] at hafter
    have hrel : (call.step s.queue.heap).1.released = s.queue.heap.released := hclean.fields.2.1
    obtain ⟨queue', copy', place'⟩ := s
    cases hplace
    simp only at hinv'' hafter hrel hq'' ⊢
    unfold Cloning.proceed
    cases hout : call.step queue'.heap with
    | mk h' out =>
      rw [hout] at hinv'' hafter hrel hq''
      cases out with
      | running call' =>
        refine ⟨⟨{ queue' with heap := h' }, copy', .next x call'⟩, by simp only [hout],
          fun call'' hc => ?_, fun p hc => by cases hc⟩
        cases hc
        refine ⟨⟨rfl, hinv'', hq'', hatt, hafter, fun y hy => ?_, hcopy'⟩, rfl⟩
        show h'.released y = false
        rw [hrel]
        exact nextPtr_holds (congrArg Prod.snd hout) hy
      | done p =>
        have hval' : h'.value x = some val := (congrFun hq''.value x).trans hval
        refine ⟨⟨{ queue' with heap := h' }, invoked copy' t (.push (clone val)), .push p.addr⟩,
          ?_, fun call'' hc => (by cases hc), fun p' hc hp => ?_⟩
        · simp only [hout, hval', Option.bind_some, step_invoke hcopy'.holding.idle,
            Option.map_some]
        · cases hc
          have hhead : p.addr = post.head? :=
            hp.2.1.trans ((hb.frame hq''.frame).head hinv''.shared)
          rw [hhead]
          exact cloning_push hmove hq'' hcopy'

/-- The call goes on at an entry. -/
theorem cloning_next {queue copy : World T n} (hq : Unchanged w queue)
    (hcopy : Ready t copied copy) (hb : Behind w x post)
    (hvals : (x :: post).map w.heap.value = vals.map some)
    (hdone : ∀ queue copy, Unchanged w queue → Ready t (copied ++ vals.map clone) copy →
      done ⟨queue, copy, .finished⟩) :
    Ends (Cloning.proceed clone t) Cloning.Releases done ⟨queue, copy, .next x (.start x)⟩ := by
  induction post generalizing x vals copied queue copy with
  | nil =>
    cases vals with
    | nil => cases hvals
    | cons val vals =>
      obtain ⟨hval, hrest⟩ := List.cons.inj hvals
      cases vals with
      | nil =>
        refine cloning_entry hval (fun queue copy hq hcopy => ?_) hq hcopy hb
        exact .done (hdone queue copy hq hcopy)
      | cons val' vals => cases hrest
  | cons y post ih =>
    cases vals with
    | nil => cases hvals
    | cons val vals =>
      obtain ⟨hval, hrest⟩ := List.cons.inj hvals
      refine cloning_entry hval (fun queue copy hq hcopy => ?_) hq hcopy hb
      refine ih hq hcopy hb.next hrest fun queue copy hq hcopy => hdone queue copy hq ?_
      rw [List.append_assoc] at hcopy
      exact hcopy

/-- The call begins. -/
theorem cloning_start (h : Holding t vals w)
    (hmove : ∀ queue copy, Unchanged w queue → Ready t [] copy →
      Ends (Cloning.proceed clone t) Cloning.Releases done ⟨queue, copy, .move w.oldest⟩) :
    Ends (Cloning.proceed clone t) Cloning.Releases done (.start w) := by
  have hinit : Ready t ([] : List T) (World.init : World T n) :=
    ⟨⟨⟨⟨some, inv_init⟩, fun _ => by simp [World.init, Heap.empty, Ptr.null],
      fun _ hx => by cases hx⟩, fun _ hx => absurd hx (Nat.not_lt_zero _), rfl, rfl⟩, .inl rfl⟩
  refine Ends.of_step (fun s : Cloning T n => s.place = .load ∧ Unchanged w s.queue ∧
    Ready t [] s.copy) ?_ ?_ ⟨rfl, .refl h.calm, hinit⟩
  · rintro s s' ⟨hplace, hq, hcopy⟩ ⟨hplace', ⟨hsame, x, hx, -⟩ | ⟨hsame, hr⟩⟩
    · exact ⟨hplace'.trans hplace, hq.release ⟨x, hx⟩, hsame ▸ hcopy⟩
    · exact ⟨hplace'.trans hplace, hsame ▸ hq, hcopy.release hr⟩
  · rintro ⟨queue, copy, place⟩ ⟨hplace, hq, hcopy⟩
    cases hplace
    refine ⟨_, rfl, ?_⟩
    rw [show queue.oldest = w.oldest from hq.frame.oldest]
    exact hmove queue copy hq hcopy

/-- When `clone` returns, the copy holds the clones of the instances, and if the head of the queue
is deleted, that of the deleted entry before them. -/
theorem cloning_ends (clone : T → T) (h : Holding t vals w) : ∃ copied,
    Ends (Cloning.proceed clone t) Cloning.Releases (fun s => s.place = .finished ∧
      Holding t vals s.queue ∧ Holding t (copied.map clone) s.copy) (.start w) ∧
    (¬DeadHead w → copied = vals) ∧ (DeadHead w → ∃ val, copied = val :: vals) := by
  obtain ⟨tgt, hinv⟩ := h.calm.inv
  have hfinish : ∀ {copied : List T} (queue copy : World T n), Unchanged w queue →
      Ready t (copied.map clone) copy → Holding t vals queue ∧ Holding t (copied.map clone) copy :=
    fun queue copy hq hcopy => ⟨h.unchanged hq, hcopy.holding⟩
  cases hold : w.oldest with
  | none =>
    have hC : w.contents = [] := hinv.shared.contents_nil (by rw [hold]; rfl)
    have hvals := h.values
    rw [hC] at hvals
    cases vals with
    | cons val vals => cases hvals
    | nil =>
      refine ⟨[], cloning_start h fun queue copy hq hcopy => ?_, fun _ => rfl, ?_⟩
      · rw [hold]
        exact .done ⟨rfl, hfinish queue copy hq hcopy⟩
      · rintro ⟨x, hx, -⟩
        rw [hold] at hx
        cases hx
  | some x =>
    have hends : ∀ {copied : List T} {post : List Addr}, Behind w x post →
        (x :: post).map w.heap.value = copied.map some →
        Ends (Cloning.proceed clone t) Cloning.Releases (fun s => s.place = .finished ∧
          Holding t vals s.queue ∧ Holding t (copied.map clone) s.copy) (.start w) := by
      intro copied post hb hvals
      refine cloning_start h fun queue copy hq hcopy => ?_
      rw [hold]
      exact cloning_next hq hcopy hb hvals fun queue copy hq hcopy =>
        ⟨rfl, hfinish queue copy hq hcopy⟩
    cases hdead : w.heap.isDeleted x with
    | false =>
      have hhead := hinv.shared.head_of_old (.inr hold) hdead
      obtain ⟨C, hC⟩ : ∃ C, w.contents = x :: C := List.head?_eq_some_iff.mp hhead
      have hvals := h.values
      rw [hC] at hvals
      refine ⟨vals, hends (.inl ⟨[], hC⟩) hvals, fun _ => rfl, ?_⟩
      rintro ⟨y, hy, hydead⟩
      cases hold.symm.trans hy
      rw [hdead] at hydead
      cases hydead
    | true =>
      have hx := hinv.shared.heap.bound x (hinv.shared.roots x (.inl hold)).1
      obtain ⟨val, hval⟩ := Option.isSome_iff_exists.mp (h.valued x hx)
      refine ⟨val :: vals, hends (.inr ⟨hdead, hold, rfl⟩) ?_, fun hno => ?_, fun _ => ⟨val, rfl⟩⟩
      · rw [List.map_cons, List.map_cons, hval, h.values]
      · exact absurd ⟨x, hold, hdead⟩ hno

/-- A thread that is in no call, in a queue that its operations have led to. -/
theorem holding_of_calm (h : Calm w) (hv : Valued w.heap) (hidle : w.pc t = .idle) :
    ∃ vals, Holding t vals w := by
  obtain ⟨tgt, hinv⟩ := h.inv
  obtain ⟨vals, hvals⟩ := hv.instances (l := w.contents) fun x hx =>
    hinv.shared.heap.bound x (Shared.mem_contents.mp hx).1
  exact ⟨vals, h, hv, hidle, hvals⟩

end clone

section run

/-- An action of the queue. -/
theorem step_grows (h : Inv w tgt) {a : Queue.Action T n} (hw : w.step a = some w') :
    Grows w.heap w'.heap := by
  unfold World.step at hw
  split at hw
  · split at hw
    · cases hw
      exact .refl _
    · cases hw
  · exact proceed_grows h hw
  · split at hw
    · cases hw
      exact .refl _
    · cases hw
  · split at hw
    · cases hw
      exact .of_eq rfl rfl
    · cases hw

/-- A step of a run. -/
theorem calm_step (h : Calm w) (hv : Valued w.heap) {a : QueueClone.Action T n}
    (hw : QueueClone.step w a = some w') : Calm w' ∧ Valued w'.heap := by
  obtain ⟨tgt, hinv⟩ := h.inv
  cases a with
  | handles a =>
    cases a with
    | queue a =>
      exact ⟨⟨inv_step hinv hw, h.handled.step hinv hw⟩, hv.grows (step_grows hinv hw)⟩
    | deleteSelf x =>
      unfold QueueClone.step Handles.step at hw
      simp only at hw
      split at hw
      · rename_i hx
        cases hw
        rw [Bool.and_eq_true] at hx
        exact ⟨⟨deleteSelf_inv hinv (h.handled.attached x hx.1), h.handled.deleteSelf x⟩,
          hv.grows (grows_deleteSelf x)⟩
      · cases hw
  | next t x =>
    unfold QueueClone.step at hw
    simp only at hw
    split at hw
    · split at hw
      · rename_i hx
        cases hw
        refine ⟨⟨⟨tgt, (hinv.same t).goto (.of_none ?_ (fun y hy => ?_) rfl)⟩, h.handled.goto _⟩, hv⟩
        · exact ⟨x, callOk_start hx False.elim⟩
        · cases hy
      · cases hw
    · cases hw

/-- What holds in every state of a run. -/
theorem calm_of_run {P : World T n → QueueClone.Action T n → Prop}
    (h : Run QueueClone.step P World.init w) : Calm w ∧ Valued w.heap := by
  refine h.invariant (fun w => Calm w ∧ Valued w.heap) ⟨⟨⟨some, inv_init⟩, ?_⟩, ?_⟩
    fun w a w' hw _ hs => calm_step hw.1 hw.2 hs
  · exact ⟨fun _ => by simp [World.init, Heap.empty, Ptr.null], fun _ hx => by cases hx⟩
  · exact fun _ hx => absurd hx (Nat.not_lt_zero _)

/-- In every state of a run, with deletions through handles and iterations: the copy that a
thread makes yields the clones of what the queue yields if and only if the head of the queue is
not a deleted entry. -/
theorem queue_copies_iff {P : World T n → QueueClone.Action T n → Prop}
    (h : Run QueueClone.step P World.init w) (hidle : w.pc t = .idle) (clone : T → T) :
    Copies clone t w ↔ ¬DeadHead w := by
  obtain ⟨hcalm, hv⟩ := calm_of_run h
  obtain ⟨vals, hh⟩ := holding_of_calm hcalm hv hidle
  obtain ⟨copied, hends, hlive, hdead⟩ := cloning_ends clone hh
  have hiff := Container.copies_iff (c := container t) Cloning.queue Cloning.copy clone
    (fun s (hs : s.place = .finished) => ?_)
    (hends.imp fun s hs => ⟨hs.1, hs.2.1.yields, hs.2.2.yields⟩)
  · refine hiff.trans ⟨fun heq hd => ?_, fun hno => by rw [hlive hno]⟩
    obtain ⟨val, rfl⟩ := hdead hd
    have hlen := congrArg List.length heq
    simp at hlen
  · unfold Cloning.proceed
    rw [hs]

end run

end Sdd.Proofs.Queue
