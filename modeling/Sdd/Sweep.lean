import Sdd.LinkedList

/-!
# `Sdd.Sweep`: the loop of the destructors of lists

The destructors of `Queue` and `Stack` call `iter()`, and then, as long as the iterator is at an
entry, `delete_self` on the entry and `next()` on the iterator. `Sweep` is the place where the loop
stands, and `Sweep.step` makes the next atomic access.
-/

set_option autoImplicit false

namespace Sdd

inductive Sweep where
  /-- Before `delete_self` of the entry that the iterator is at. -/
  | delete (current : Addr)
  /-- In `next()`, which follows `next_ptr` of the entry. -/
  | next (current : Addr) (call : NextPtr)

namespace Sweep

/-- The iterator has moved to `current`. -/
def move : Option Addr → Outcome Sweep Unit
  | none => .done ()
  | some x => .running (.delete x)

variable {T : Type}

/-- The next atomic access of the loop. -/
def step (h : Heap T) : Sweep → Heap T × Outcome Sweep Unit
  | .delete x => ((h.deleteSelf x).1, .running (.next x (.start x)))
  | .next x call =>
    match call.step h with
    | (h, .running call) => (h, .running (.next x call))
    | (h, .done p) => (h, move p.addr)

/-- The entry that the loop holds a `Shared` of. -/
def holds : Sweep → Option Addr
  | delete _ => none
  | next _ call => call.holds

end Sweep

end Sdd
