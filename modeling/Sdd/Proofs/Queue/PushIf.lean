import Sdd.Proofs.Queue.Answers

/-!
# `Sdd.Proofs.Queue.PushIf`: the condition of `push_if`

`push_if` attaches its entry only when the condition holds of the newest undeleted entry at
that moment. When it returns `Err`, it has evaluated the condition on the entry on which its
traversal has ended, and this entry can be deleted: `traverse` does not look at the tag of
the entry that it starts from. `pushIf_decides` is about runs without such an end of a
traversal (`endsOnDeleted`). In `pushIf_rejects` the condition holds of the newest undeleted
entry all the time, and `push_if` returns `Err`.
-/

set_option autoImplicit false

namespace Sdd.Proofs.Queue

open Sdd.Lib Sdd.Lib.Linearize Sdd.Queue

variable {T : Type} {n : Nat} {P : World T n → Action T n → Prop} {w w' : World T n} {t : Fin n}

/-- `next_ptr` does not change an instance. -/
theorem nextPtr_value (h : Heap T) (call : NextPtr) : (call.step h).1.value = h.value := by
  cases call with
  | loadHead callers head depth => rfl
  | loadNext callers f n tag =>
    simp only [NextPtr.step]
    split
    · rfl
    · split
      · rfl
      · rfl
  | getShared callers f nextValid =>
    simp only [NextPtr.step]
    split
    · rfl
    · rfl
  | exchange callers f nextValid =>
    simp only [NextPtr.step]
    split
    · cases callers with
      | nil => rfl
      | cons g callers => rfl
    · rfl

/-- `push_if` returns `Err` when its traversal ends on an entry for which the condition is
false. -/
theorem rejected_of_end {p : Push T} {current : Addr} {call : NextPtr} {next : Ptr Addr}
    (hpc : w.pc t = .traverse p current call) (hdone : (call.step w.heap).2 = .done next)
    (hnull : next.isNull = true) (hcond : p.cond (w.heap.value current) = false) :
    ∃ w', w.step (.thread t .proceed) = some w' ∧
      w'.history = w.history ++ [.result t (.pushIf p.val p.cond) .rejected] := by
  have haddr : next.addr = none := Option.isNone_iff_eq_none.mp hnull
  have hfalse : p.cond ((some current).bind (call.step w.heap).1.value) ≠ true := by
    rw [nextPtr_value]
    simp [hcond]
  refine ⟨{ w with heap := (call.step w.heap).1 }.finish t (.pushIf p.val p.cond) .rejected, ?_, rfl⟩
  simp only [World.step, World.proceed, hpc, hdone, World.traversed, haddr, World.evaluate,
    if_neg hfalse]

/-- In every run in which no traversal of `push_if` ends on a deleted entry for which the
condition is false: `push_if` returns `Ok` only when it has attached its entry while the
condition held of the newest undeleted entry, and `Err` only when the condition was false of
the newest undeleted entry at some moment of the call. `P` can describe the run further. -/
theorem pushIf_decides (hP : ∀ x t, P x (.thread t .proceed) → endsOnDeleted x t = false)
    (h : Run World.step P World.init w) (hp : P w (.thread t .proceed))
    (hs : w.step (.thread t .proceed) = some w') (val : T) (cond : Option T → Bool) :
    (∀ e, w'.history = w.history ++ [.result t (.pushIf val cond) (.pushed e)] →
      AttachedDuring P w t e cond) ∧
    (w'.history = w.history ++ [.result t (.pushIf val cond) .rejected] →
      During P w t fun u => cond (last u) = false) := by
  constructor
  · intro e hres
    exact justified_of_run h hp hs hres
  · intro hres
    rcases justified_of_run h hp hs hres with hduring | hends
    · exact hduring
    · rw [hP w t hp] at hends
      cases hends

/-- A condition of a queue of `Bool` is known by its values. -/
theorem cond_ext {f g : Option Bool → Bool}
    (h : (f none == g none && f (some false) == g (some false) &&
      f (some true) == g (some true)) = true) : f = g := by
  rw [Bool.and_eq_true, Bool.and_eq_true, beq_iff_eq, beq_iff_eq, beq_iff_eq] at h
  funext o
  match o with
  | none => exact h.1.1
  | some false => exact h.1.2
  | some true => exact h.2

/-- The next step of the thread 0 ends a traversal on an entry for which the condition of
`push_if` is false, and this condition is `cond`. -/
def rejects (w : World Bool n) (t : Fin n) (cond : Option Bool → Bool) : Bool :=
  match w.pc t with
  | .traverse p current call =>
    (p.cond none == cond none && p.cond (some false) == cond (some false) &&
      p.cond (some true) == cond (some true)) && !p.cond (w.heap.value current) &&
    match (call.step w.heap).2 with
    | .done next => next.isNull
    | .running _ => false
  | _ => false

/-- The answer of such a step. -/
theorem rejected_of_rejects {w : World Bool n} {cond : Option Bool → Bool}
    (h : rejects w t cond = true) : ∃ val w', w.step (.thread t .proceed) = some w' ∧
      w'.history = w.history ++ [.result t (.pushIf val cond) .rejected] := by
  unfold rejects at h
  split at h
  · rename_i p current call hpc
    rw [Bool.and_eq_true, Bool.and_eq_true, Bool.not_eq_true'] at h
    obtain ⟨⟨heq, hcond⟩, hdone⟩ := h
    rw [← cond_ext heq]
    split at hdone
    · rename_i next hnext
      exact ⟨p.val, rejected_of_end hpc hnext hdone hcond⟩
    · cases hdone
  · cases h

/-- A queue with an entry, and a condition that holds of an empty queue only. -/
theorem pushIf_decides_nonempty :
    ∃ w w' : World Bool 1, w.step (.thread 0 .proceed) = some w' ∧
      (∃ val, w'.history = w.history ++ [.result 0 (.pushIf val Option.isNone) .rejected]) ∧
      During (fun x _ => endsOnDeleted x 0 = false) w 0 fun u => (last u).isNone = false := by
  have h : (exec World.step (fun x _ => !endsOnDeleted x 0) World.init
      ([invoke 0 (.push false)] ++ proceeds 0 5 ++ [invoke 0 (.pushIf true Option.isNone)] ++
        proceeds 0 1)).any (fun w : World Bool 1 =>
      !endsOnDeleted w 0 && rejects w 0 Option.isNone) = true := by
    decide +kernel
  obtain ⟨w, hr, hw⟩ := Run.of_exec_any h
  rw [Bool.and_eq_true, Bool.not_eq_true'] at hw
  obtain ⟨val, w', hs, hres⟩ := rejected_of_rejects hw.2
  have hr' : Run World.step (fun x _ => endsOnDeleted x 0 = false) World.init w :=
    hr.mono fun x a hx => by simpa using hx
  have hdecides := pushIf_decides (fun x t hx => by
    rw [Subsingleton.elim t 0]
    exact hx) hr' hw.1 hs val
    Option.isNone
  exact ⟨w, w', hs, ⟨val, hres⟩, hdecides.2 hres⟩

/-- The thread 1 pushes an entry that holds `true`. The thread 2 attaches one that holds
`false` behind it, and stops before it sets `newest`. Then the thread 0 calls `push_if` with a
condition that is false of `true` only, finds the first entry in `newest` and reads its link.
The thread 1 pops both entries. The thread 0 goes on: the second entry is deleted, and the
traversal ends on the first one, which is deleted as well. `push_if` returns `Err`, but its
condition held of the newest undeleted entry, `false` or none, all the time. -/
theorem pushIf_rejects : ∃ (P : World Bool 3 → Action Bool 3 → Prop) (w w' : World Bool 3)
    (val : Bool) (cond : Option Bool → Bool), Run World.step P World.init w ∧
      P w (.thread 0 .proceed) ∧ w.step (.thread 0 .proceed) = some w' ∧
      w'.history = w.history ++ [.result 0 (.pushIf val cond) .rejected] ∧
      ¬During P w 0 fun u => cond (last u) = false := by
  have h : (exec World.step (fun x _ => (eventsOf 0 x).isEmpty || last x != some true) World.init
      ([invoke 1 (.push true)] ++ proceeds 1 5 ++ [invoke 2 (.push false)] ++ proceeds 2 3 ++
        [invoke 0 (.pushIf true fun o => o != some true)] ++ proceeds 0 2 ++ [invoke 1 .pop] ++
        proceeds 1 10 ++ [invoke 1 .pop] ++ proceeds 1 9 ++ proceeds 0 4)).any
      (fun w : World Bool 3 => !(eventsOf 0 w).isEmpty && last w != some true &&
        rejects w 0 fun o => o != some true) = true := by
    decide +kernel
  obtain ⟨w, hr, hw⟩ := Run.of_exec_any h
  rw [Bool.and_eq_true, Bool.and_eq_true, Bool.not_eq_true'] at hw
  obtain ⟨⟨hevents, hlast⟩, hrejects⟩ := hw
  obtain ⟨val, w', hs, hres⟩ := rejected_of_rejects hrejects
  refine ⟨_, w, w', val, fun o => o != some true, hr, ?_, hs, hres, ?_⟩
  · rw [hlast, Bool.or_true]
  · rintro ⟨u, -, hu, hev, hfalse⟩
    -- `u` is a state of the call, so that the condition holds in it.
    have htrue : (last u != some true) = true := by
      rcases hu.eq_or_head with rfl | ⟨a, s₂, hp, -⟩
      · exact hlast
      · rw [hev, hevents, Bool.false_or] at hp
        exact hp
    change (last u != some true) = false at hfalse
    rw [htrue] at hfalse
    cases hfalse

end Sdd.Proofs.Queue
