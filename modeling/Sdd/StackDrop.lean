import Sdd.Lib.Run
import Sdd.StackClone
import Sdd.Sweep

/-!
# `Sdd.StackDrop`: the destructor of a stack

The model of `Drop for Stack`, as that of a queue in `Sdd.QueueDrop`. `iter()` loads `newest` and
cleans up, and makes the same accesses as `peek`, whose answer is where the iterator begins.
-/

set_option autoImplicit false

namespace Sdd.StackDrop

open Sdd.Lib Sdd.Stack

/-- The place where the destructor stands. -/
inductive Place where
  /-- Before `newest.is_null()`. -/
  | check
  | iter
  | sweep (call : Sweep)
  /-- Before the field `newest` is dropped. -/
  | newest
  | finished

/-- The loop goes on, or the field is dropped. -/
def Place.after : Outcome Sweep Unit → Place
  | .running call => .sweep call
  | .done _ => .newest

/-- The entry that the destructor holds a `Shared` of, apart from its call of `iter`. -/
def Place.holds : Place → Option Addr
  | .sweep call => call.holds
  | _ => none

/-- The destructor is in `iter()`. -/
def Place.iterates : Place → Bool
  | .iter => true
  | _ => false

/-- A stack with the thread that drops it. -/
structure Dropping (T : Type) (n : Nat) where
  world : World T n
  place : Place

inductive Action (T : Type) (n : Nat) where
  /-- The next atomic access of the destructor. -/
  | own
  | other (a : StackClone.Action T n)

namespace Dropping

variable {T : Type} {n : Nat}

/-- The destructor begins. -/
def start (w : World T n) : Dropping T n := ⟨w, .check⟩

/-- The loop has made an access. -/
def setHeap (w : World T n) (h : Heap T) : World T n := { w with mem := { w.mem with heap := h } }

/-- The next atomic access of the destructor, which the thread `t` runs. -/
def proceed (t : Fin n) (s : Dropping T n) : Option (Dropping T n) :=
  match s.place with
  | .check =>
    if s.world.mem.newest = none then
      some { s with place := .newest }
    else
      (s.world.step (.thread t (.invoke .peek))).map fun w => ⟨w, .iter⟩
  | .iter =>
    (s.world.proceed t).map fun w =>
      match w.pc t, w.history.getLast? with
      | .idle, some (.result _ _ (.peeked current)) => ⟨w, .after (Sweep.move current)⟩
      | _, _ => ⟨w, .iter⟩
  | .sweep call =>
    let (h, out) := call.step s.world.mem.heap
    some ⟨setHeap s.world h, .after out⟩
  | .newest => some ⟨{ s.world with mem := { s.world.mem with newest := none } }, .finished⟩
  | .finished => none

/-- What can happen besides the steps of the destructor. Its own thread runs destructors of entries
as well, but not inside of `iter()`. -/
def outside (t : Fin n) (s : Dropping T n) : StackClone.Action T n → Bool
  | .stack (.thread _ (.invoke _)) => false
  | .stack (.thread u _) | .next u _ => u != t || !s.place.iterates
  | .stack (.release x) => s.place.holds != some x
  | .deleteSelf _ => true

/-- One action; `none` when it is not possible. -/
def step (t : Fin n) (s : Dropping T n) : Action T n → Option (Dropping T n)
  | .own => s.proceed t
  | .other a =>
    if s.outside t a then
      (StackClone.step s.world a).map fun w => { s with world := w }
    else
      none

/-- The release of an entry that the destructor does not hold. -/
def Releases (s s' : Dropping T n) : Prop :=
  s'.place = s.place ∧ ∃ x, s.world.step (.release x) = some s'.world ∧ s.place.holds ≠ some x

end Dropping

variable {T : Type} {n : Nat}

/-- What the destructor leaves: every entry is deleted, the word is null, and the references
between the entries have no cycle: as long as some entry has an owner, there is one whose owner
can let go of it. -/
structure Dropped (w : World T n) : Prop where
  deleted : ∀ x ∈ w.mem.attached, w.mem.heap.isDeleted x = true
  newest : w.mem.newest = none
  freed : (∀ u, w.pc u = .idle) → ∀ x < w.mem.heap.nextAddr, w.mem.heap.released x = false →
    ∃ y w', w.mem.heap.released y = false ∧ w.step (.release y) = some w'

end Sdd.StackDrop
