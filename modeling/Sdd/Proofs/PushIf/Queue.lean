import Sdd.Proofs.PushIf.Entries
import Sdd.Proofs.PushIf.Loop
import Sdd.Proofs.Queue.Invariant

/-!
# `Sdd.Proofs.PushIf.Queue`: a failed `push_if` on a queue

The queue is a lawful container. An access of a thread is a write that attaches nothing
(`Written`) and a walk to the next access (`Walks`), which keeps, creates or ends the push of the
thread, or it is the compare-and-exchange that attaches the entry.
-/

set_option autoImplicit false

namespace Sdd.Proofs.PushIf.Queue

open Sdd.Lib Sdd.Queue Sdd.PushIf
open Sdd.Proofs.Queue (Fits view PcOk PushOk CleanOk ownEntry proceed_inv inv_step)

variable {T : Type} {n : Nat} {w w' w₁ : World T n} {t : Fin n} {tgt : Addr → Option Addr}

/-- The entry that a thread which cleans up has deleted. -/
def deleted : Pc T → List Addr
  | .cleanLoad k | .cleanDeleted k _ | .cleanNext k _ _ | .cleanExchange k _ _ | .cleanReset k =>
    k.locals
  | _ => []

/-- A walk of the thread `t` with its push. -/
inductive Walks (w : World T n) (t : Fin n) : Option (Push T) → World T n → Prop where
  | goto (pc : Pc T) (hdel : ∀ x ∈ deleted pc, x ∈ w.attached) : Walks w t pc.pushing (w.goto t pc)
  | creates (p : Push T) (newest : Option Addr) (hentry : p.entry = none) :
      Walks w t (some p) (World.goto { w with heap := w.heap.alloc p.val } t
        (.attach { p with entry := some w.heap.nextAddr } w.heap.nextAddr newest))
  | rejected (p : Push T) : Walks w t (some p) (w.finish t (.pushIf p.val p.cond) .rejected)
  | finish (op : Op T) (res : Res) (hres : res ≠ .rejected) : Walks w t none (w.finish t op res)

section walk

variable {p : Push T} {k : Clean T} {o : Option Addr}

/-- The condition is asked: the push goes to its exchange, or returns `Err`. -/
theorem walks_evaluate : Walks w t (some p) (w.evaluate t p o) := by
  unfold World.evaluate
  split
  · split
    · exact .goto (.attach p _ o) nofun
    · rename_i hentry
      exact .creates p o hentry
  · exact .rejected p

/-- The traversal goes on, or the condition is asked. -/
theorem walks_traverse : Walks w t (some p) (w.traverse t p o) := by
  unfold World.traverse
  split
  · exact walks_evaluate
  · exact .goto (.traverse p _ _) nofun

/-- The same after an access of the traversal. -/
theorem walks_traversed {current : Addr} {out : Outcome NextPtr (Ptr Addr)} :
    Walks w t (some p) (w.traversed t p current out) := by
  unfold World.traversed
  split
  · exact .goto (.traverse p _ _) nofun
  · split
    · exact walks_evaluate
    · exact .goto (.traverse p _ _) nofun

/-- A pop pushes nothing. -/
theorem walks_popIf {cond : T → Bool} : Walks w t none (w.popIf t cond o) := by
  unfold World.popIf
  split
  · exact .finish _ _ nofun
  · exact .goto (.popGetShared cond _) nofun

/-- A peek pushes nothing. -/
theorem walks_peek : Walks w t none (w.peek t o) := by
  unfold World.peek
  split
  · exact .finish _ _ nofun
  · exact .goto (.peekDeleted _) nofun

/-- A clean-up returns to the operation that has called it. -/
theorem walks_cleaned : Walks w t k.pushing (w.cleaned t k o) := by
  unfold World.cleaned
  cases k with
  | popped cond e => exact .finish _ _ nofun
  | retry cond => exact walks_popIf
  | peek => exact walks_peek
  | push p => exact walks_traverse
  | iter => exact .finish _ _ nofun

/-- The same after an access to the list. -/
theorem walks_cleanNext {x : Addr} {out : Outcome NextShared (Option Addr)}
    (hk : ∀ y ∈ k.locals, y ∈ w.attached) : Walks w t k.pushing (w.cleanNext t k x out) := by
  unfold World.cleanNext
  split
  · exact .goto (.cleanNext k x _) hk
  · exact .goto (.cleanExchange k x _) hk

end walk

/-- A write that attaches and creates nothing. -/
structure Written (w w₁ : World T n) : Prop where
  pc : w₁.pc = w.pc
  attached : w₁.attached = w.attached
  history : w₁.history = w.history
  nextAddr : w₁.heap.nextAddr = w.heap.nextAddr
  value : w₁.heap.value = w.heap.value

/-- An access that writes nothing. -/
theorem Written.refl (w : World T n) : Written w w := ⟨rfl, rfl, rfl, rfl, rfl⟩

/-- A list call changes links only. -/
theorem written_cleans {v : View} {h' : Heap T} (hc : Cleans v w.heap h') :
    Written w { w with heap := h' } :=
  ⟨rfl, rfl, rfl, hc.fields.2.2, hc.fields.1⟩

/-- A thread that has not moved is in the same place of `push_if`. -/
theorem place_eq {u : Fin n} (h : w'.pc u = w.pc u) :
    place (container T n) w' u = place (container T n) w u := by
  show ((w'.pc u).pushing.map _, World.attaching (w'.pc u), World.attaching (w'.pc u)) =
    ((w.pc u).pushing.map _, World.attaching (w.pc u), World.attaching (w.pc u))
  rw [h]

/-- The result of an access. -/
theorem rejects_of_history (h : w'.history = w.history) : w.rejects w' = false := by
  unfold World.rejects
  rw [h, List.drop_length]

/-- Only the answer `Err` is a rejection. -/
theorem rejects_finish {op : Op T} {res : Res} (h : w₁.history = w.history) :
    w.rejects (w₁.finish t op res) = match res with | .rejected => true | _ => false := by
  have hhist : (w₁.finish t op res).history = w.history ++ [.result t op res] := by
    rw [← h]
    rfl
  unfold World.rejects
  rw [hhist, List.drop_left]
  cases res <;> rfl

/-- What an access without an attachment does to the push. -/
theorem Written.pushes (hw : Written w w₁) (h : Walks w₁ t (w.pc t).pushing w') :
    Pushes (container T n) w w' t := by
  -- The cases are those of the walk; what the walk came from has changed no push.
  generalize hpush : (w.pc t).pushing = o at h
  have hpush₀ : (container T n).push w t = o.map fun p => (p.val, p.entry) :=
    congrArg (Option.map _) hpush
  have hself : ∀ {m : World T n} {pc : Pc T}, (m.goto t pc).pc t = pc :=
    fun {m pc} => Function.update_self ..
  have hgoto : ∀ {m : World T n} {pc : Pc T}, (container T n).push (m.goto t pc) t =
      pc.pushing.map fun p => (p.val, p.entry) := by
    intro m pc
    show ((m.goto t pc).pc t).pushing.map _ = _
    rw [hself]
  cases h with
  | goto pc hdel =>
    have hrejects : (container T n).rejects w (w₁.goto t pc) = false :=
      rejects_of_history hw.history
    -- Whether the place the call goes to belongs to a push decides the case.
    cases hpc : pc.pushing with
    | none =>
      rw [hpc] at hpush₀
      exact .idle hpush₀ (by rw [hgoto, hpc]; rfl) hw.attached hw.nextAddr
    | some p =>
      rw [hpc] at hpush₀
      exact .stays p.val p.entry hpush₀ (by rw [hgoto, hpc]; rfl) hrejects hw.attached hw.nextAddr
        .inl
  | creates p newest hentry =>
    rw [Option.map_some, hentry] at hpush₀
    refine .creates p.val hpush₀ ?_ (rejects_of_history hw.history) hw.attached ?_ ?_
    · rw [hgoto]
      show some (p.val, some w₁.heap.nextAddr) = some (p.val, some w.heap.nextAddr)
      rw [hw.nextAddr]
    · show World.attaching ((World.goto { w₁ with heap := w₁.heap.alloc p.val } t _).pc t) = true
      rw [hself]
      rfl
    · exact congrArg (· + 1) hw.nextAddr
  | rejected p =>
    exact .rejected p.val p.entry hpush₀ hgoto (rejects_finish hw.history) hw.attached hw.nextAddr
  | finish op res hres => exact .idle hpush₀ hgoto hw.attached hw.nextAddr

/-- The other threads, the instances of the entries, and the attached entries. -/
theorem Walks.frame {o : Option (Push T)} (h : Walks w t o w') :
    (∀ u, u ≠ t → w'.pc u = w.pc u) ∧
      (∀ x, x < w.heap.nextAddr → w'.heap.value x = w.heap.value x) ∧
      w'.attached = w.attached ∧ ∀ x ∈ deleted (w'.pc t), x ∈ w.attached := by
  have hself : ∀ {m : World T n} {pc : Pc T}, (m.goto t pc).pc t = pc :=
    fun {m pc} => Function.update_self ..
  have hnone : ∀ {m : World T n} {pc : Pc T} {x : Addr}, deleted pc = [] →
      x ∈ deleted ((m.goto t pc).pc t) → x ∈ w.attached := by
    intro m pc x hnil hx
    rw [hself, hnil] at hx
    cases hx
  cases h with
  | goto pc hdel =>
    refine ⟨fun u hu => Function.update_of_ne hu .., fun _ _ => rfl, rfl, fun x hx => ?_⟩
    rw [hself] at hx
    exact hdel x hx
  | rejected | finish =>
    exact ⟨fun u hu => Function.update_of_ne hu .., fun _ _ => rfl, rfl, fun x hx => hnone rfl hx⟩
  | creates p newest hentry =>
    exact ⟨fun u hu => Function.update_of_ne hu .., fun x hx =>
      Function.update_of_ne (Nat.ne_of_lt hx) .., rfl, fun x hx => hnone rfl hx⟩

/-- The compare-and-exchange of the thread `t` has attached the entry `e`. -/
structure Attached (w w' : World T n) (t : Fin n) (p : Push T) (e : Addr) : Prop where
  pc : w'.pc = Function.update w.pc t (.swapNewest p e)
  attached : w'.attached = w.attached ++ [e]
  history : w'.history = w.history
  nextAddr : w'.heap.nextAddr = w.heap.nextAddr
  value : w'.heap.value = w.heap.value

/-- A compare-and-exchange that attaches the entry of the push, or fails. -/
theorem attach_cases {p : Push T} {e : Addr} {newest : Option Addr} :
    Attached w (w.attach t p e newest) t p e ∨ Walks w t (some p) (w.attach t p e newest) := by
  unfold World.attach
  split
  · split
    · exact .inl ⟨rfl, rfl, rfl, rfl, rfl⟩
    · split
      · exact .inr (.goto (.cleanLoad (.push p)) nofun)
      · split
        · exact .inr (.goto (.loadOldest p) nofun)
        · exact .inr walks_traverse
  · split
    · exact .inl ⟨rfl, rfl, rfl, rfl, rfl⟩
    · exact .inr walks_traverse

/-- An access of a thread. -/
theorem access_cases (h : Queue.Inv w tgt) (hdel : ∀ x ∈ deleted (w.pc t), x ∈ w.attached)
    (hw : w.proceed t = some w') :
    (∃ p e newest, w.pc t = .attach p e newest ∧ Attached w w' t p e) ∨
      ∃ w₁, Written w w₁ ∧ Walks w₁ t (w.pc t).pushing w' := by
  have hok := h.ok t
  have hheld := fun x => h.held t x
  have hself := Written.refl w
  have hnone : ∀ x ∈ ([] : List Addr), x ∈ w.attached := by simp
  unfold World.proceed at hw
  cases hpc : w.pc t with
  | idle =>
    rw [hpc] at hw
    cases hw
  | attach p e newest =>
    rw [hpc] at hw
    cases hw
    rcases attach_cases (w := w) (t := t) (p := p) (e := e) with hatt | hwalk
    · exact .inl ⟨p, e, newest, rfl, hatt⟩
    · exact .inr ⟨w, hself, hwalk⟩
  | loadNewest p =>
    rw [hpc] at hw
    simp only at hw
    refine .inr ⟨w, hself, ?_⟩
    split at hw
    · cases hw
      exact .goto (.loadOldest p) hnone
    · cases hw
      exact walks_traverse
  | loadOldest p =>
    rw [hpc] at hw
    cases hw
    exact .inr ⟨w, hself, walks_traverse⟩
  | traverse p current call =>
    rw [hpc] at hw hok
    cases hw
    obtain ⟨-, -, hcall⟩ := hok
    have hclean := nextPtr_cleans hcall fun x hx => hheld x (by rw [hpc]; simp [Pc.holds, hx])
    exact .inr ⟨_, written_cleans hclean, walks_traversed⟩
  | swapNewest p e =>
    rw [hpc] at hw
    cases hw
    exact .inr ⟨{ w with newest := some e }, ⟨rfl, rfl, rfl, rfl, rfl⟩,
      .goto (.checkOldest p e) hnone⟩
  | checkOldest p e =>
    rw [hpc] at hw
    simp only at hw
    refine .inr ⟨w, hself, ?_⟩
    split at hw
    · cases hw
      exact .goto (.resetNewest p e) hnone
    · cases hw
      exact .finish _ _ (by simp)
  | resetNewest p e =>
    rw [hpc] at hw
    cases hw
    exact .inr ⟨{ w with newest := none }, ⟨rfl, rfl, rfl, rfl, rfl⟩, .finish _ _ (by simp)⟩
  | cleanLoad k =>
    rw [hpc] at hw hdel
    simp only at hw
    refine .inr ⟨w, hself, ?_⟩
    split at hw
    · cases hw
      exact walks_cleaned
    · cases hw
      exact .goto (.cleanDeleted k _) hdel
  | cleanDeleted k x =>
    rw [hpc] at hw hdel
    simp only at hw
    refine .inr ⟨w, hself, ?_⟩
    split at hw
    · cases hw
      exact .goto (.cleanNext k x _) hdel
    · cases hw
      exact walks_cleaned
  | cleanNext k x call =>
    rw [hpc] at hw hok hdel
    cases hw
    obtain ⟨-, -, -, hcall⟩ := hok
    have hclean := nextShared_cleans hcall fun y hy => hheld y (by rw [hpc]; simp [Pc.holds, hy])
    exact .inr ⟨_, written_cleans hclean, walks_cleanNext hdel⟩
  | cleanExchange k x next =>
    rw [hpc] at hw hdel
    cases hw
    unfold World.cleanExchange
    split
    · split
      · exact .inr ⟨{ w with oldest := none }, ⟨rfl, rfl, rfl, rfl, rfl⟩,
          .goto (.cleanReset k) hdel⟩
      · rename_i y
        exact .inr ⟨{ w with oldest := some y }, ⟨rfl, rfl, rfl, rfl, rfl⟩, walks_cleaned⟩
    · exact .inr ⟨w, hself, walks_cleaned⟩
  | cleanReset k =>
    rw [hpc] at hw
    cases hw
    exact .inr ⟨{ w with newest := none }, ⟨rfl, rfl, rfl, rfl, rfl⟩, walks_cleaned⟩
  | popLoad cond =>
    rw [hpc] at hw
    cases hw
    exact .inr ⟨w, hself, walks_popIf⟩
  | popGetShared cond x =>
    rw [hpc] at hw
    simp only at hw
    refine .inr ⟨w, hself, ?_⟩
    split at hw
    · cases hw
      exact .goto (.cleanLoad (.retry cond)) hnone
    · cases hw
      exact .goto (.popDeleted cond x) hnone
  | popDeleted cond x =>
    rw [hpc] at hw
    cases hw
    unfold World.popDeleted
    refine .inr ⟨w, hself, ?_⟩
    split
    · exact .finish _ _ (by simp)
    · exact .goto (.popDelete cond x) hnone
  | popDelete cond x =>
    rw [hpc] at hw hok
    cases hw
    unfold World.popDelete
    cases hlive : w.heap.isDeleted x with
    | true =>
      rw [deleteSelf_dead hlive]
      exact .inr ⟨w, hself, .goto (.cleanLoad (.retry cond)) hnone⟩
    | false =>
      rw [deleteSelf_eq hlive]
      refine .inr ⟨{ w with heap := w.heap.setLink x _ }, ⟨rfl, rfl, rfl, rfl, rfl⟩,
        .goto (.cleanLoad (.popped cond x)) fun y hy => ?_⟩
      rw [List.mem_singleton.mp hy]
      exact hok.1
  | peekLoad =>
    rw [hpc] at hw
    cases hw
    exact .inr ⟨w, hself, walks_peek⟩
  | peekDeleted x =>
    rw [hpc] at hw
    simp only at hw
    refine .inr ⟨w, hself, ?_⟩
    split at hw
    · cases hw
      exact .goto (.cleanLoad .peek) hnone
    · cases hw
      exact .finish _ _ (by simp)
  | isEmpty =>
    rw [hpc] at hw
    cases hw
    exact .inr ⟨w, hself, .finish _ _ (by simp)⟩
  | drop call =>
    rw [hpc] at hw hok
    obtain ⟨b, hcall⟩ := hok
    have hclean := nextPtr_cleans hcall fun x hx => hheld x (by rw [hpc]; simp [Pc.holds, hx])
    refine .inr ⟨_, written_cleans hclean, ?_⟩
    simp only at hw
    split at hw
    · rename_i call' _
      cases hw
      exact .goto (.drop call') hnone
    · cases hw
      exact .goto .idle hnone

/-- The references of an access. -/
theorem refs_attached (h : Queue.Inv w tgt) (t : Fin n) : RefsIn (view w tgt) (w.refs t) := by
  have hok := h.ok t
  have hroots := h.shared.roots
  unfold World.refs
  cases hpc : w.pc t with
  | idle | loadNewest | loadOldest | attach | checkOldest | cleanLoad | cleanDeleted | popLoad
  | popDeleted | peekLoad | peekDeleted | isEmpty => exact refsIn_none
  | traverse p current call =>
    rw [hpc] at hok
    exact callOk_refs hok.2.2
  | drop call =>
    rw [hpc] at hok
    obtain ⟨b, hcall⟩ := hok
    exact callOk_refs hcall
  | swapNewest p e =>
    rw [hpc] at hok
    rintro x (hx | hx)
    · rw [List.mem_singleton.mp hx]
      exact hok
    · exact (hroots x (.inr (Option.mem_toList.mp hx))).1
  | resetNewest | cleanReset => exact refsIn_release fun x hx => (hroots x (.inr hx)).1
  | cleanNext k x call =>
    rw [hpc] at hok
    exact sharedOk_refs hok.2.2.2
  | cleanExchange k x next =>
    rw [hpc] at hok
    obtain ⟨-, hx, -, hret⟩ := hok
    simp only
    split
    · refine refsIn_release fun y hy => ?_
      cases hy
      exact hx
    · exact refsIn_release fun y hy => (hret.att y hy).1
  | popGetShared cond x =>
    rw [hpc] at hok
    simp only
    split
    · exact refsIn_none
    · refine refsIn_take fun y hy => ?_
      cases hy
      exact hok.1
  | popDelete cond x =>
    rw [hpc] at hok
    simp only
    split
    · exact refsIn_none
    · refine refsIn_release fun y hy => ?_
      cases hy
      exact hok.1

/-- The invariant of a queue, with the entries that the threads have deleted. -/
def Ok (w : World T n) : Prop :=
  (∃ tgt, Queue.Inv w tgt) ∧ ∀ t x, x ∈ deleted (w.pc t) → x ∈ w.attached

/-- An access of the thread `t`. -/
theorem proceeds (h : Ok w) (hw : w.proceed t = some w') :
    Ok w' ∧ Proceeds (container T n) w w' t := by
  obtain ⟨⟨tgt, hinv⟩, hdel⟩ := h
  have hinv' := proceed_inv hinv hw
  have hrefs : ∀ x, x ∈ (w.refs t).taken ∨ x ∈ (w.refs t).released → x ∈ w.attached :=
    refs_attached hinv t
  have hturn : (container T n).begins w t = true → (container T n).exchanging w t = false →
      ((container T n).push w' t).isSome = true ∧ (container T n).exchanging w' t = true := by
    intro hbegins hnot
    change World.attaching (w.pc t) = true at hbegins
    change World.attaching (w.pc t) = false at hnot
    rw [hbegins] at hnot
    cases hnot
  rcases access_cases hinv (hdel t) hw with ⟨p, e, newest, hpc, hatt⟩ | ⟨w₁, hwrite, hwalk⟩
  · have hok := hinv.ok t
    rw [hpc] at hok
    have hself : w'.pc t = .swapNewest p e := by rw [hatt.pc, Function.update_self]
    have hother : ∀ u, u ≠ t → w'.pc u = w.pc u := by
      intro u hu
      rw [hatt.pc]
      exact Function.update_of_ne hu ..
    have hmem : ∀ x, x ∈ w'.attached ↔ x ∈ w.attached ∨ x = e := by
      intro x
      rw [hatt.attached, List.mem_append, List.mem_singleton]
    refine ⟨⟨hinv', fun u x hx => ?_⟩, ?_, hturn, fun u hu => place_eq (hother u hu), hrefs,
      fun x _ => congrFun hatt.value x⟩
    · by_cases hu : u = t
      · rw [hu, hself] at hx
        cases hx
      · rw [hother u hu] at hx
        exact (hmem x).mpr (.inl (hdel u x hx))
    · refine .attached p.val e ?_ ?_ ?_ (rejects_of_history hatt.history) hmem hatt.nextAddr
      · show (w.pc t).pushing.map _ = _
        rw [hpc, ← hok.2.1]
        rfl
      · show World.attaching (w.pc t) = true
        rw [hpc]
        rfl
      · show (w'.pc t).pushing.map _ = none
        rw [hself]
        rfl
  · obtain ⟨hother, hvalue, hattached, hdel'⟩ := hwalk.frame
    have hpc : ∀ u, u ≠ t → w'.pc u = w.pc u := fun u hu =>
      (hother u hu).trans (congrFun hwrite.pc u)
    refine ⟨⟨hinv', fun u x hx => ?_⟩, hwrite.pushes hwalk, hturn, fun u hu => place_eq (hpc u hu),
      hrefs, fun x hx => ?_⟩
    · by_cases hu : u = t
      · rw [hu] at hx
        rw [hattached]
        exact hdel' x hx
      · rw [hpc u hu] at hx
        rw [hattached, hwrite.attached]
        exact hdel u x hx
    · exact (hvalue x (hwrite.nextAddr ▸ hx)).trans (congrFun hwrite.value x)

/-- An invocation, a destructor or a release. -/
theorem acts {a : Action T n} (h : Ok w) (hw : (container T n).act w a = some w') :
    Ok w' ∧ Keeps (container T n) w w' ∧
      (∀ t, (container T n).actor a ≠ some t →
        place (container T n) w' t = place (container T n) w t) ∧
      ∀ t, (container T n).actor a = some t → (container T n).push w t = none ∧
        ∀ val entry, (container T n).push w' t = some (val, entry) →
          (container T n).supplies a = some val ∧ entry = none := by
  obtain ⟨⟨tgt, hinv⟩, hdel⟩ := h
  -- The thread is idle, and goes to a place where it has deleted nothing.
  have hgoto : ∀ (w₁ : World T n) (t : Fin n) (pc : Pc T), w₁.pc = w.pc →
      w₁.attached = w.attached → w.pc t = .idle → (∃ tgt', Queue.Inv (w₁.goto t pc) tgt') →
      deleted pc = [] → Ok (w₁.goto t pc) ∧
        (∀ u, u ≠ t → place (container T n) (w₁.goto t pc) u = place (container T n) w u) ∧
        (container T n).push w t = none ∧
        (container T n).push (w₁.goto t pc) t = pc.pushing.map fun p => (p.val, p.entry) := by
    intro w₁ t pc hpc hatt hidle hinv' hnil
    have hself : (w₁.goto t pc).pc t = pc := Function.update_self ..
    have hother : ∀ u, u ≠ t → (w₁.goto t pc).pc u = w.pc u := fun u hu =>
      (Function.update_of_ne hu ..).trans (congrFun hpc u)
    refine ⟨⟨hinv', fun u x hx => ?_⟩, fun u hu => place_eq (hother u hu), ?_, ?_⟩
    · show x ∈ w₁.attached
      rw [hatt]
      by_cases hu : u = t
      · rw [hu, hself, hnil] at hx
        cases hx
      · rw [hother u hu] at hx
        exact hdel u x hx
    · show (w.pc t).pushing.map _ = none
      rw [hidle]
      rfl
    · show ((w₁.goto t pc).pc t).pushing.map _ = _
      rw [hself]
  cases a with
  | release x =>
    have hinv' := inv_step hinv (a := .release x) hw
    change (if w.unowned x then _ else _) = _ at hw
    split at hw
    · cases hw
      exact ⟨⟨hinv', hdel⟩, ⟨rfl, rfl, rfl⟩, fun _ _ => rfl, fun _ hu => by cases hu⟩
    · cases hw
  | thread t act =>
    cases act with
    | proceed => cases hw
    | invoke op =>
      have hinv' := inv_step hinv (a := .thread t (.invoke op)) hw
      change w.step (.thread t (.invoke op)) = some _ at hw
      simp only [World.step] at hw
      split at hw
      · rename_i hidle
        cases hw
        obtain ⟨hok, hother, hnone, hpush⟩ := hgoto { w with
          history := w.history ++ [.invoke t op] } t (World.entry op) rfl rfl hidle hinv'
          (by cases op <;> rfl)
        refine ⟨hok, ⟨rfl, rfl, rfl⟩, fun u hu => hother u fun hc => hu (congrArg some hc.symm),
          fun u hu => ?_⟩
        cases hu
        refine ⟨hnone, fun val entry hc => ?_⟩
        rw [hpush] at hc
        cases op with
        | pushIf val' cond =>
          cases hc
          exact ⟨rfl, rfl⟩
        | popIf | peek | isEmpty | iter => cases hc
      · cases hw
    | drop x =>
      have hinv' := inv_step hinv (a := .thread t (.drop x)) hw
      change w.step (.thread t (.drop x)) = some _ at hw
      simp only [World.step] at hw
      split at hw
      · rename_i y hidle hrel hy
        cases hw
        obtain ⟨hok, hother, hnone, hpush⟩ := hgoto w t (.drop (.start y)) rfl rfl hidle
          hinv' rfl
        refine ⟨hok, ⟨rfl, rfl, rfl⟩, fun u hu => hother u fun hc => hu (congrArg some hc.symm),
          fun u hu => ?_⟩
        cases hu
        refine ⟨hnone, fun val entry hc => ?_⟩
        rw [hpush] at hc
        cases hc
      · cases hw

end Sdd.Proofs.PushIf.Queue
