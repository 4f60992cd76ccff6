import Sdd.Lib.Run
import Sdd.QueueClone
import Sdd.Sweep

/-!
# `Sdd.QueueDrop`: the destructor of a queue

The model of `Drop for Queue`. `Dropping` is a queue with the thread that drops it: `iter()` is an
operation of the queue, then comes the loop over the entries, and in the end the two fields are
dropped.

No thread has a reference to the queue any more, so that none calls a method of it. But entries
live on: the others delete entries through handles and let go of them, go on with iterators, which
do not borrow the queue, and run the destructors of entries. `Outside` are these actions.
-/

set_option autoImplicit false

namespace Sdd.QueueDrop

open Sdd.Lib Sdd.Queue

/-- The place where the destructor stands. -/
inductive Place where
  /-- Before `oldest.is_null()`. -/
  | check
  | iter
  | sweep (call : Sweep)
  /-- Before the field `oldest` is dropped. -/
  | oldest
  /-- Before the field `newest` is dropped. -/
  | newest
  | finished

/-- The loop goes on, or the fields are dropped. -/
def Place.after : Outcome Sweep Unit → Place
  | .running call => .sweep call
  | .done _ => .oldest

/-- The entry that the destructor holds a `Shared` of, apart from its call of `iter`. -/
def Place.holds : Place → Option Addr
  | .sweep call => call.holds
  | _ => none

/-- The destructor is in `iter()`. -/
def Place.iterates : Place → Bool
  | .iter => true
  | _ => false

/-- A queue with the thread that drops it. -/
structure Dropping (T : Type) (n : Nat) where
  world : World T n
  place : Place

inductive Action (T : Type) (n : Nat) where
  /-- The next atomic access of the destructor. -/
  | own
  | other (a : QueueClone.Action T n)

namespace Dropping

variable {T : Type} {n : Nat}

/-- The destructor begins. -/
def start (w : World T n) : Dropping T n := ⟨w, .check⟩

/-- The next atomic access of the destructor, which the thread `t` runs. -/
def proceed (t : Fin n) (s : Dropping T n) : Option (Dropping T n) :=
  match s.place with
  | .check =>
    if s.world.oldest = none then
      some { s with place := .oldest }
    else
      (s.world.step (.thread t (.invoke .iter))).map fun w => ⟨w, .iter⟩
  | .iter =>
    (s.world.proceed t).map fun w =>
      match w.pc t, w.history.getLast? with
      | .idle, some (.result _ _ (.first current)) => ⟨w, .after (Sweep.move current)⟩
      | _, _ => ⟨w, .iter⟩
  | .sweep call =>
    let (h, out) := call.step s.world.heap
    some ⟨{ s.world with heap := h }, .after out⟩
  | .oldest => some ⟨{ s.world with oldest := none }, .newest⟩
  | .newest => some ⟨{ s.world with newest := none }, .finished⟩
  | .finished => none

/-- What can happen besides the steps of the destructor. Its own thread runs destructors of entries
as well, but not inside of `iter()`. -/
def outside (t : Fin n) (s : Dropping T n) : QueueClone.Action T n → Bool
  | .handles (.queue (.thread _ (.invoke _))) => false
  | .handles (.queue (.thread u _)) | .next u _ => u != t || !s.place.iterates
  | .handles (.queue (.release x)) => s.place.holds != some x
  | .handles (.deleteSelf _) => true

/-- One action; `none` when it is not possible. -/
def step (t : Fin n) (s : Dropping T n) : Action T n → Option (Dropping T n)
  | .own => s.proceed t
  | .other a =>
    if s.outside t a then
      (QueueClone.step s.world a).map fun w => { s with world := w }
    else
      none

/-- The release of an entry that the destructor does not hold. -/
def Releases (s s' : Dropping T n) : Prop :=
  s'.place = s.place ∧ ∃ x, s.world.step (.release x) = some s'.world ∧ s.place.holds ≠ some x

end Dropping

variable {T : Type} {n : Nat}

/-- What the destructor leaves: every entry is deleted, the two words are null, and the references
between the entries have no cycle: as long as some entry has an owner, there is one whose owner
can let go of it. -/
structure Dropped (w : World T n) : Prop where
  deleted : ∀ x ∈ w.attached, w.heap.isDeleted x = true
  oldest : w.oldest = none
  newest : w.newest = none
  freed : (∀ u, w.pc u = .idle) → ∀ x < w.heap.nextAddr, w.heap.released x = false →
    ∃ y w', w.heap.released y = false ∧ w.step (.release y) = some w'

end Sdd.QueueDrop
