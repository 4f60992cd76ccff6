import Sdd.Proofs.Queue.Clone
import Sdd.Proofs.Stack.Clone

/-!
# `Sdd.Proofs.Clone`: when `clone` copies the contents

`clone` of a queue and of a stack begins at the entry that the head word refers to, whether it is
deleted or not, and follows `next_ptr`, which skips deleted entries. `pop`, `peek` and the
iterators clean up the head before. The main result is `clone_copies_iff`: in every state of a
run, the copy yields the clones of what the container yields if and only if the head is not a
deleted entry. A deletion through a handle on the head leaves such a state
(`clone_copies_deleted`).
-/

set_option autoImplicit false

namespace Sdd.Proofs

open Sdd.Lib

variable {T : Type} {n : Nat}

/-- A push to a queue that begins, and `k` of its accesses. -/
def queuePush (val k : Nat) : List (QueueClone.Action Nat 1) :=
  .handles (.queue (.thread 0 (.invoke (.push val)))) ::
    List.replicate k (.handles (.queue (.thread 0 .proceed)))

/-- A push to a stack that begins, and `k` of its accesses. -/
def stackPush (val k : Nat) : List (StackClone.Action Nat 1) :=
  .stack (.thread 0 (.invoke (.push val))) :: List.replicate k (.stack (.thread 0 .proceed))

/-- The only thread is in no call. -/
def queueRests (w : Queue.World Nat 1) : Bool := match w.pc 0 with | .idle => true | _ => false

/-- The only thread is in no call. -/
def stackRests (w : Stack.World Nat 1) : Bool := match w.pc 0 with | .idle => true | _ => false

/-- What the test says. -/
theorem idle_of_queueRests {w : Queue.World Nat 1} (h : queueRests w = true) (u : Fin 1) :
    w.pc u = .idle := by
  rw [Subsingleton.elim u 0]
  unfold queueRests at h
  split at h
  · assumption
  · cases h

/-- What the test says. -/
theorem idle_of_stackRests {w : Stack.World Nat 1} (h : stackRests w = true) (u : Fin 1) :
    w.pc u = .idle := by
  rw [Subsingleton.elim u 0]
  unfold stackRests at h
  split at h
  · assumption
  · cases h

/-- A push returns an entry, and its owner deletes it: `clone` copies it all the same. -/
theorem clone_copies_deleted :
    (∃ w : Queue.World Nat 1, Run QueueClone.step (fun _ _ => True) .init w ∧
      (∀ u, w.pc u = .idle) ∧ ¬QueueClone.Copies (fun val => val) 0 w) ∧
    ∃ w : Stack.World Nat 1, Run StackClone.step (fun _ _ => True) .init w ∧
      (∀ u, w.pc u = .idle) ∧ ¬StackClone.Copies (fun val => val) 0 w := by
  constructor
  · have h : (exec QueueClone.step (fun _ _ => true) .init
        (queuePush 5 5 ++ [.handles (.deleteSelf 0)])).any (fun w : Queue.World Nat 1 =>
          w.oldest == some 0 && w.heap.isDeleted 0 && queueRests w) = true := by
      decide +kernel
    obtain ⟨w, hrun, hw⟩ := Run.of_exec_any h
    simp only [Bool.and_eq_true, beq_iff_eq] at hw
    obtain ⟨⟨hold, hdead⟩, hrests⟩ := hw
    refine ⟨w, hrun.mono fun _ _ _ => trivial, idle_of_queueRests hrests, fun hc => ?_⟩
    exact (Queue.queue_copies_iff hrun (idle_of_queueRests hrests 0) _).mp hc ⟨0, hold, hdead⟩
  · have h : (exec StackClone.step (fun _ _ => true) .init
        (stackPush 5 3 ++ [.deleteSelf 0])).any (fun w : Stack.World Nat 1 =>
          w.mem.newest == some 0 && w.mem.heap.isDeleted 0 && stackRests w) = true := by
      decide +kernel
    obtain ⟨w, hrun, hw⟩ := Run.of_exec_any h
    simp only [Bool.and_eq_true, beq_iff_eq] at hw
    obtain ⟨⟨hnewest, hdead⟩, hrests⟩ := hw
    refine ⟨w, hrun.mono fun _ _ _ => trivial, idle_of_stackRests hrests, fun hc => ?_⟩
    exact (Stack.stack_copies_iff hrun (idle_of_stackRests hrests 0) _).mp hc ⟨0, hnewest, hdead⟩

end Sdd.Proofs
