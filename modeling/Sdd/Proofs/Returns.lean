import Sdd.Proofs.Bag.Conservation
import Sdd.Proofs.Bag.Returns
import Sdd.Proofs.SharedList.Returns

/-!
# `Sdd.Proofs.Returns`: no operation waits for another thread

`operations_return` says of stacks, bags and linked lists what the modules about them prove: in
every state of a run, an operation that a thread begins returns when all other threads stand
still, at whatever step of an operation each of them has stopped.
-/

set_option autoImplicit false

namespace Sdd.Proofs

open Sdd.Lib

variable {T : Type} {n : Nat}

/-- The operations of stacks, bags and linked lists return when they run alone. -/
theorem operations_return :
    (∀ w : Stacks.World T n, Run Stacks.World.step (fun _ _ => True) .init w →
      ∀ t op, w.Returns t op) ∧
    (∀ (bits len : Nat), ArrayLen bits len → ∀ w : Bag.World bits T n,
      Run (Bag.World.step len) (fun _ _ => True) .init w → ∀ t op, w.Returns len t op) ∧
    (∀ w : SharedList.World T n, Run SharedList.World.step (fun _ _ => True) .init w →
      ∀ t x op, SharedList.Returns w t x op) := by
  refine ⟨fun w h t op => ?_, fun bits len hlen w h t op => ?_, fun w h t x op => ?_⟩
  · exact Stacks.returns (Stacks.inv_of_run h) t op
  · exact Bag.returns hlen (Bag.inv_of_run hlen h) t op
  · obtain ⟨order, tgt, hinv⟩ := SharedList.inv_of_run h
    exact SharedList.returns hinv t x op

/-- A thread has stopped as the owner of the only slot of a storage in the stack of a bag, and
another thread calls `pop`. -/
theorem operations_return_owned : ∃ w : Bag.World 64 Nat 2,
    (match w.pc 1 with | .call (.popStorage 0 (.read 0)) => true | _ => false) = true ∧
      w.Returns 1 0 .pop := by
  have h : (exec (Bag.World.step 1) (fun _ _ => true) (Bag.World.init : Bag.World 64 Nat 2)
      (Bag.call 0 (.push 5) 4 ++ Bag.call 0 (.push 7) 5 ++ Bag.call 1 .pop 4)).any (fun w =>
        match w.pc 1 with | .call (.popStorage 0 (.read 0)) => true | _ => false) = true := by
    decide +kernel
  obtain ⟨w, hw, h⟩ := Run.of_exec_any h
  exact ⟨w, h, operations_return.2.1 64 1 ⟨by decide, by decide, by decide⟩ w
    (hw.mono fun _ _ _ => trivial) 0 .pop⟩

end Sdd.Proofs
