import Sdd.Handles
import Sdd.Lib.Container
import Mathlib.Data.Option.Basic

/-!
# `Sdd.QueueClone`: the copies of a queue

The model of `Queue::clone`, and of what its result is judged by: the entries that `pop` takes out
of a queue, one call after the other. A state of a queue is one that its operations, deletions
through handles and iterations can lead to. `Cloning` is the call of `clone` of a thread, with the
queue and the copy, which nobody else uses. It begins at the word `oldest` and follows `next_ptr`,
and pushes a clone of each instance to the copy.

Entries can be released in the mean time: `clone` and `pop` let go of some.
-/

set_option autoImplicit false

namespace Sdd.QueueClone

open Sdd.Lib Sdd.Queue
open Relation (ReflTransGen)

inductive Action (T : Type) (n : Nat) where
  | handles (a : Handles.Action T n)
  /-- A thread calls `next()` on an iterator that is at the entry `x`. -/
  | next (t : Fin n) (x : Addr)

section

variable {T : Type} {n : Nat}

/-- One action; `none` when it is not possible. An iterator makes the same accesses as the
destructor of an entry. -/
def step (w : World T n) : Action T n → Option (World T n)
  | .handles a => Handles.step w a
  | .next t x =>
    match w.pc t with
    | .idle => if x ∈ w.attached then some (w.goto t (.drop (.start x))) else none
    | _ => none

/-- The last call of the thread was `pop`, and it has returned. -/
def Popped (t : Fin n) (w : World T n) (o : Option T) : Prop :=
  w.pc t = .idle ∧ ∃ e, w.history.getLast? = some (.result t .pop (.popped e)) ∧
    e.map w.heap.value = o.map some

theorem Popped.unique {t : Fin n} {w : World T n} {o o' : Option T} (h : Popped t w o)
    (h' : Popped t w o') : o = o' := by
  obtain ⟨-, e, he, ho⟩ := h
  obtain ⟨-, e', he', ho'⟩ := h'
  cases he.symm.trans he'
  exact Option.map_injective (Option.some_injective T) (ho.symm.trans ho')

/-- A queue, as the thread `t` sees it that pops from it. -/
def container (t : Fin n) : Container (World T n) T where
  invoke w := w.step (.thread t (.invoke .pop))
  own w := w.proceed t
  env := Handles.Releases
  answered := Popped t
  stuck w o h := by
    unfold World.proceed
    rw [h.1]
  unique w o o' h h' := h.unique h'

end

/-- The place where a call of `clone` stands. -/
inductive Place where
  /-- Before the load of `oldest`. -/
  | load
  /-- In `next_ptr` of the entry `current`. -/
  | next (current : Addr) (call : NextPtr)
  /-- In the push to the copy. The call goes on with the entry `next`. -/
  | push (next : Option Addr)
  | finished

/-- The call has moved to `current`. -/
def Place.move : Option Addr → Place
  | none => .finished
  | some x => .next x (.start x)

/-- A call of `Queue::clone` in progress. -/
structure Cloning (T : Type) (n : Nat) where
  queue : World T n
  copy : World T n
  place : Place

namespace Cloning

variable {T : Type} {n : Nat}

/-- The call begins, with an empty copy. -/
def start (w : World T n) : Cloning T n := ⟨w, .init, .load⟩

/-- The next atomic access of the thread. -/
def proceed (clone : T → T) (t : Fin n) (s : Cloning T n) : Option (Cloning T n) :=
  match s.place with
  | .load => some { s with place := .move s.queue.oldest }
  | .next current call =>
    match call.step s.queue.heap with
    | (h, .running call) =>
      some { s with queue := { s.queue with heap := h }, place := .next current call }
    | (h, .done next) =>
      (h.value current).bind fun val =>
        (s.copy.step (.thread t (.invoke (.push (clone val))))).map fun copy =>
          ⟨{ s.queue with heap := h }, copy, .push next.addr⟩
  | .push next =>
    (s.copy.proceed t).map fun copy =>
      match copy.pc t with
      | .idle => ⟨s.queue, copy, .move next⟩
      | _ => ⟨s.queue, copy, .push next⟩
  | .finished => none

/-- The release of an entry of the queue that the call does not hold, or of one of the copy. -/
def Releases (s s' : Cloning T n) : Prop :=
  s'.place = s.place ∧
    (s'.copy = s.copy ∧ (∃ x, s.queue.step (.release x) = some s'.queue ∧
      ∀ current call, s.place = .next current call → call.holds ≠ some x) ∨
    s'.queue = s.queue ∧ Handles.Releases s.copy s'.copy)

end Cloning

variable {T : Type} {n : Nat}

/-- The thread calls `clone`, and the other threads stand still: the call returns, and then the
copy yields the clones of what the queue yields. -/
def Copies (clone : T → T) (t : Fin n) (w : World T n) : Prop :=
  Ends (Cloning.proceed clone t) Cloning.Releases
    (fun s => s.place = .finished ∧
      ∃ vals, (container t).Yields vals s.queue ∧ (container t).Yields (vals.map clone) s.copy)
    (.start w)

/-- The head of the queue is an entry that was deleted. -/
def DeadHead (w : World T n) : Prop := ∃ x, w.oldest = some x ∧ w.heap.isDeleted x = true

end Sdd.QueueClone
