import Sdd.Lib.Alone
import Sdd.Queue

/-!
# `Sdd.Handles`: a queue whose users keep handles

`push` returns a `Shared` of the entry, and `delete_self` is a public method of it: besides
the operations of the queue, a step of a run is here a call of `delete_self` on an entry that
`push` returned and that its owner still holds.

`Returns` says that an operation that a thread begins now returns when all other threads stand
still. Entries can be released in the mean time, since the operation itself lets go of some.
`Iterate` is an iteration to the end: `iter()`, and then `next()` until it yields nothing.
-/

set_option autoImplicit false

namespace Sdd.Handles

open Sdd.Lib Sdd.Queue

inductive Action (T : Type) (n : Nat) where
  | queue (a : Queue.Action T n)
  /-- The owner of a handle on `x` deletes the entry. -/
  | deleteSelf (x : Addr)

variable {T : Type} {n : Nat}

/-- A push has returned the entry. -/
def pushed (w : World T n) (x : Addr) : Bool :=
  w.history.any fun
    | .result _ _ (.pushed e) => e == x
    | _ => false

/-- One action; `none` when it is not possible. -/
def step (w : World T n) : Action T n → Option (World T n)
  | .queue a => w.step a
  | .deleteSelf x =>
    if pushed w x && !w.heap.released x then
      some { w with heap := (w.heap.deleteSelf x).1 }
    else
      none

/-- The release of an entry. -/
def Releases (w w' : World T n) : Prop := ∃ x, w.step (.release x) = some w'

/-- The operation returns if the thread begins it now, and the other threads stand still. -/
def Returns (w : World T n) (t : Fin n) (op : Op T) : Prop :=
  ∃ w', w.step (.thread t (.invoke op)) = some w' ∧
    Ends (fun w => w.proceed t) Releases (fun w => w.pc t = .idle) w'

/-- The place where an iteration stands. `iter()` is an operation of the queue. -/
inductive Place where
  | iter
  /-- In `next()`. -/
  | next (call : NextPtr)
  | finished

/-- The iterator has moved to `current`. -/
def Place.move : Option Addr → Place
  | none => .finished
  | some x => .next (.start x)

/-- A queue with a thread that iterates. -/
structure Iterate (T : Type) (n : Nat) where
  world : World T n
  place : Place

namespace Iterate

/-- The next atomic access of the thread. -/
def proceed (t : Fin n) (s : Iterate T n) : Option (Iterate T n) :=
  match s.place with
  | .iter =>
    (s.world.proceed t).map fun w =>
      match w.pc t, w.history.getLast? with
      | .idle, some (.result _ _ (.first current)) => ⟨w, .move current⟩
      | _, _ => ⟨w, .iter⟩
  | .next call =>
    match call.step s.world.heap with
    | (h, .running call) => some ⟨{ s.world with heap := h }, .next call⟩
    | (h, .done p) => some ⟨{ s.world with heap := h }, .move p.addr⟩
  | .finished => none

/-- The release of an entry that the iteration does not hold. -/
def Releases (s s' : Iterate T n) : Prop :=
  s'.place = s.place ∧ ∃ x, s.world.step (.release x) = some s'.world ∧
    ∀ call, s.place = .next call → call.holds ≠ some x

end Iterate

/-- The iteration comes to its end if the thread begins it now, and the other threads stand
still. -/
def Iterates (w : World T n) (t : Fin n) : Prop :=
  ∃ w', w.step (.thread t (.invoke .iter)) = some w' ∧
    Ends (Iterate.proceed t) Iterate.Releases (fun s => s.place = .finished) ⟨w', .iter⟩

end Sdd.Handles
