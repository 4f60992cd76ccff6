import Sdd.Proofs.Queue.Alone

/-!
# `Sdd.Proofs.Queue.Returns`: which queue operations return

The main result is `returns_iff`: in every state that threads, stopped anywhere, and deletions
through handles can leave, each operation that runs alone returns if and only if `oldest` is
null or the queue has an undeleted entry. Only a push depends on this: in the other states it
turns forever (`push_spins`).
-/

set_option autoImplicit false

namespace Sdd.Proofs.Queue

open Sdd.Lib Sdd.Queue

open Sdd.Lib.Linearize (Event)

variable {T : Type} {n : Nat} {w w' : World T n} {tgt : Addr → Option Addr} {t : Fin n}

/-- A push before an access that does not lead out of its loop when all entries are deleted. -/
def Turning : Pc T → Prop
  | .loadNewest p | .loadOldest p | .traverse p _ _ => ∀ o, p.cond o = true
  | .attach p _ o => (∀ o, p.cond o = true) ∧ o ≠ none
  | _ => False

/-- All entries are deleted, `oldest` refers to one of them, and the thread is in a push. -/
structure Spinning (t : Fin n) (w : World T n) : Prop where
  calm : Calm w
  contents : w.contents = []
  oldest : w.oldest ≠ none
  turning : Turning (w.pc t)

/-- After the writes of a step, the thread goes on in the push. -/
theorem Frame.spinning (hf : Frame w w') (h : Spinning t w) (hcalm : Calm w')
    (hpc : Turning (w'.pc t)) : Spinning t w' where
  calm := hcalm
  contents := hf.contents.trans h.contents
  oldest := by
    rw [hf.oldest]
    exact h.oldest
  turning := hpc

theorem turning_goto {pc : Pc T} (hpc : Turning pc) : Turning ((w.goto t pc).pc t) := by
  show Turning (Function.update w.pc t pc t)
  rw [Function.update_self]
  exact hpc

/-- A traversal that begins at an entry. -/
theorem turning_traverse {p : Push T} (hcond : ∀ o, p.cond o = true) {o : Option Addr}
    (ho : o ≠ none) : Turning ((w.traverse t p o).pc t) ∧ Frame w (w.traverse t p o) := by
  cases o with
  | none => exact absurd rfl ho
  | some x => exact ⟨turning_goto hcond, rfl, rfl, fun _ => rfl⟩

/-- A traversal that goes on, or ends on an entry. -/
theorem turning_traversed {p : Push T} (hcond : ∀ o, p.cond o = true) {x : Addr}
    (out : Outcome NextPtr (Ptr Addr)) :
    Turning ((w.traversed t p x out).pc t) ∧ Frame w (w.traversed t p x out) := by
  unfold World.traversed
  split
  · exact ⟨turning_goto hcond, rfl, rfl, fun _ => rfl⟩
  · split
    · obtain ⟨p', e, hpc, hcond', hf, -⟩ := evaluate_pc (w := w) (t := t) hcond (some x)
      refine ⟨?_, hf⟩
      rw [hpc]
      exact ⟨hcond' ▸ hcond, nofun⟩
    · exact ⟨turning_goto hcond, rfl, rfl, fun _ => rfl⟩

/-- The compare-and-exchange of a push whose queue has no undeleted entry. -/
theorem turning_attach (h : Spinning t w) {p : Push T} {e l : Addr} (hcond : ∀ o, p.cond o = true)
    (hl : l ∈ w.attached) :
    Turning ((w.attach t p e (some l)).pc t) ∧ Frame w (w.attach t p e (some l)) := by
  have hdead : w.heap.isDeleted l = true := by
    by_contra hlive
    rw [Bool.not_eq_true] at hlive
    have hmem : l ∈ w.contents := Shared.mem_contents.mpr ⟨hl, hlive⟩
    rw [h.contents] at hmem
    cases hmem
  cases hn : next w.heap l with
  | none =>
    rw [attach_dead hdead hn h.calm.handled]
    exact ⟨turning_goto hcond, rfl, rfl, fun _ => rfl⟩
  | some y =>
    unfold next at hn
    unfold World.attach
    simp only
    rw [if_neg, if_neg (h.calm.handled.plain l), if_neg]
    · refine turning_traverse hcond ?_
      rw [hn]
      nofun
    · unfold Ptr.isNull
      rw [hn]
      nofun
    · intro hnull
      rw [isDeleted_of_null hnull] at hdead
      cases hdead

/-- A step of a push whose queue has no undeleted entry. -/
theorem spinning_step (h : Spinning t w) (hw : w.proceed t = some w') : Spinning t w' := by
  have hcalm := h.calm.next hw
  have hturning := h.turning
  obtain ⟨tgt, hinv⟩ := h.calm.inv
  have hok := hinv.ok t
  unfold World.proceed at hw
  cases hpc : w.pc t with
  | loadNewest p =>
    rw [hpc] at hw hturning
    simp only at hw
    split at hw
    · cases hw
      exact Frame.spinning (w := w) ⟨rfl, rfl, fun _ => rfl⟩ h hcalm (turning_goto hturning)
    · rename_i x _
      cases hw
      obtain ⟨hpc', hf⟩ := turning_traverse (w := w) (t := t) hturning (o := some x) nofun
      exact hf.spinning h hcalm hpc'
  | loadOldest p =>
    rw [hpc] at hw hturning
    cases hw
    obtain ⟨hpc', hf⟩ := turning_traverse (w := w) (t := t) hturning h.oldest
    exact hf.spinning h hcalm hpc'
  | traverse p x call =>
    rw [hpc] at hw hturning hok
    cases hw
    have hheld : ∀ y, call.holds = some y → w.heap.released y = false := fun y hy =>
      hinv.held t y (by rw [hpc]; simp [Pc.holds, hy])
    have hclean := frame_cleans (w := w) (nextPtr_cleans hok.2.2 hheld)
    obtain ⟨hpc', hf⟩ := turning_traversed (w := { w with heap := (call.step w.heap).1 }) (t := t)
      (x := x) hturning (call.step w.heap).2
    exact (hclean.trans hf).spinning h hcalm hpc'
  | attach p e o =>
    rw [hpc] at hw hturning hok
    cases hw
    cases o with
    | none => exact absurd rfl hturning.2
    | some l =>
      obtain ⟨hpc', hf⟩ := turning_attach h hturning.1 (hok.2.2.1 l rfl)
      exact hf.spinning h hcalm hpc'
  | _ =>
    rw [hpc] at hturning
    cases hturning

/-- When all entries are deleted and `oldest` refers to one of them, a push does not return. -/
theorem push_spins (h : Spinning t w) : ¬EndsAlone t w := by
  refine not_ends (Spinning t) (fun w h => ⟨fun hidle => ?_, fun w' hw => spinning_step h hw⟩) h
  have hturning := h.turning
  rw [hidle] at hturning
  cases hturning

/-- The state after the invocation of an operation. -/
def invoked (w : World T n) (t : Fin n) (op : Op T) : World T n :=
  { w with history := w.history ++ [Event.invoke t op] }.goto t (World.entry op)

theorem step_invoke (hidle : w.pc t = .idle) (op : Op T) :
    w.step (.thread t (.invoke op)) = some (invoked w t op) := by
  unfold World.step
  simp only [hidle]
  rfl

/-- The state after an invocation is as good as the one before it. -/
theorem Calm.invoked (h : Calm w) (hidle : w.pc t = .idle) (op : Op T) : Calm (invoked w t op) := by
  obtain ⟨tgt, hinv⟩ := h.inv
  exact ⟨inv_step hinv (step_invoke hidle op), h.handled.step hinv (step_invoke hidle op)⟩

theorem invoked_pc (op : Op T) : (invoked w t op).pc t = World.entry op := Function.update_self ..

theorem returns_invoked (hidle : w.pc t = .idle) (op : Op T) :
    Handles.Returns w t op ↔ EndsAlone t (invoked w t op) := by
  unfold Handles.Returns
  rw [step_invoke hidle]
  constructor
  · rintro ⟨w', hw, he⟩
    cases hw
    exact he
  · exact fun he => ⟨_, rfl, he⟩

/-- A push returns if and only if `oldest` is null or the queue has an undeleted entry. -/
theorem push_returns (h : Calm w) (hidle : w.pc t = .idle) (val : T) {cond : Option T → Bool}
    (hcond : ∀ o, cond o = true) :
    Handles.Returns w t (.pushIf val cond) ↔ w.oldest = none ∨ w.contents ≠ [] := by
  rw [returns_invoked hidle]
  constructor
  · intro he
    by_contra hno
    rw [not_or, not_not] at hno
    refine push_spins ⟨h.invoked hidle _, hno.2, hno.1, ?_⟩ he
    rw [invoked_pc]
    exact hcond
  · exact push_ends hcond (h.invoked hidle _) (invoked_pc _)

/-- In every run, with threads stopped anywhere and deletions through handles: the operations
that a thread begins and runs alone all return if and only if `oldest` is null or the queue has
an undeleted entry. -/
theorem returns_iff (h : Run Handles.step (fun _ _ => True) World.init w) (hidle : w.pc t = .idle)
    (val : T) (cond : Option T → Bool) (hcond : ∀ o, cond o = true) :
    (Handles.Returns w t (.push val) ∧ Handles.Returns w t (.pushIf val cond) ∧
      (∀ cond, Handles.Returns w t (.popIf cond)) ∧ Handles.Returns w t .peek ∧
      Handles.Iterates w t) ↔ w.oldest = none ∨ w.contents ≠ [] := by
  obtain ⟨hinv, hhandled⟩ := handles_run h
  have hcalm : Calm w := ⟨hinv, hhandled⟩
  constructor
  · exact fun hall => (push_returns hcalm hidle val hcond).mp hall.2.1
  · intro hcontents
    refine ⟨(push_returns hcalm hidle val fun _ => rfl).mpr hcontents,
      (push_returns hcalm hidle val hcond).mpr hcontents, fun cond => ?_, ?_, ?_⟩
    · rw [returns_invoked hidle]
      exact popIf_ends (hcalm.invoked hidle _) (invoked_pc _)
    · rw [returns_invoked hidle]
      exact peek_ends (hcalm.invoked hidle _) (invoked_pc _)
    · have hinvoked := hcalm.invoked hidle .iter
      refine ⟨_, step_invoke hidle .iter, iterate_ends hinvoked ?_ ?_⟩
      · rw [invoked_pc]
        rfl
      · exact clean_ends (fun _ _ _ _ _ => finish_ends _ _) hinvoked (invoked_pc _)

/-- A push by the thread `t` that begins, and `k` of its accesses. -/
def pushSteps (t : Fin 3) (val : Bool) (k : Nat) : List (Handles.Action Bool 3) :=
  .queue (.thread t (.invoke (.push val))) :: List.replicate k (.queue (.thread t .proceed))

/-- The thread is in no call. -/
def isIdle : Pc T → Bool
  | .idle => true
  | _ => false

theorem idle_of_isIdle {pc : Pc T} (hpc : isIdle pc = true) : pc = .idle := by
  cases pc with
  | idle => rfl
  | _ => cases hpc

/-- The thread 0 pushes two entries, and then pops the first one and stops before it cleans up.
The thread 1 stops in a push. All operations of the thread 2 return. -/
theorem returns_iff_popped : ∃ w : World Bool 3, w.oldest = some 0 ∧ w.heap.isDeleted 0 = true ∧
    Handles.Returns w 2 (.push true) ∧ Handles.Returns w 2 .pop ∧ Handles.Iterates w 2 := by
  have h : (exec Handles.step (fun _ _ => true) World.init
      (pushSteps 0 true 5 ++ pushSteps 0 true 5 ++ pushSteps 1 false 4 ++
        [.queue (.thread 0 (.invoke .pop))] ++
        List.replicate 4 (.queue (.thread 0 .proceed)))).any (fun w : World Bool 3 =>
      w.oldest == some 0 && w.heap.isDeleted 0 && w.contents != [] && isIdle (w.pc 2)) =
        true := by
    decide +kernel
  obtain ⟨w, hrun, hw⟩ := Run.of_exec_any h
  simp only [Bool.and_eq_true, beq_iff_eq, bne_iff_ne] at hw
  obtain ⟨⟨⟨hold, hdead⟩, hcontents⟩, hidle⟩ := hw
  have hidle' := idle_of_isIdle hidle
  have hall := (returns_iff (hrun.mono fun _ _ _ => trivial) hidle' true (fun _ => true)
    fun _ => rfl).mpr (.inr hcontents)
  exact ⟨w, hold, hdead, hall.1, hall.2.2.1 _, hall.2.2.2.2⟩

/-- A push returns an entry, and its owner deletes it: the next push, of any thread, does not
return. -/
theorem push_turns : ∃ w : World Bool 3, Run Handles.step (fun _ _ => True) World.init w ∧
    w.pc 1 = .idle ∧ ¬Handles.Returns w 1 (.push true) := by
  have h : (exec Handles.step (fun _ _ => true) World.init
      (pushSteps 0 true 5 ++ [.deleteSelf 0])).any (fun w : World Bool 3 =>
      w.oldest == some 0 && w.contents == [] && isIdle (w.pc 1)) = true := by
    decide +kernel
  obtain ⟨w, hrun, hw⟩ := Run.of_exec_any h
  simp only [Bool.and_eq_true, beq_iff_eq] at hw
  obtain ⟨⟨hold, hcontents⟩, hidle⟩ := hw
  have hidle' := idle_of_isIdle hidle
  have hrun' := hrun.mono (Q := fun _ _ => True) fun _ _ _ => trivial
  obtain ⟨hinv, hhandled⟩ := handles_run hrun'
  refine ⟨w, hrun', hidle', fun hreturns => ?_⟩
  rcases (push_returns ⟨hinv, hhandled⟩ hidle' true fun _ => rfl).mp hreturns with hc | hc
  · rw [hold] at hc
    cases hc
  · exact hc hcontents

end Sdd.Proofs.Queue
