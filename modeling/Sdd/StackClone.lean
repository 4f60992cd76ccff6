import Sdd.Lib.Alone
import Sdd.Lib.Container
import Mathlib.Data.Option.Basic
import Sdd.Stack

/-!
# `Sdd.StackClone`: the copies of a stack

The model of `Stack::clone`, and of what its result is judged by: the entries that `pop` takes out
of a stack, one call after the other. A state of a stack is one that its operations, deletions
through handles and iterations can lead to. `Cloning` is the call of `clone` of a thread, with the
stack and the copy, which nobody else uses. It begins at the word `newest` and follows `next_ptr`,
and puts a clone of each instance behind the last entry of the copy.

Entries can be released in the mean time: `clone` and `pop` let go of some.
-/

set_option autoImplicit false

namespace Sdd.StackClone

open Sdd.Lib Sdd.Stack
open Relation (ReflTransGen)

inductive Action (T : Type) (n : Nat) where
  | stack (a : Stack.Action T n)
  /-- The owner of a handle on `x` deletes the entry. -/
  | deleteSelf (x : Addr)
  /-- A thread calls `next()` on an iterator that is at the entry `x`. -/
  | next (t : Fin n) (x : Addr)

section

variable {T : Type} {n : Nat}

/-- A push has returned the entry. -/
def pushed (w : World T n) (x : Addr) : Bool :=
  w.history.any fun
    | .result _ _ (.pushed e) => e == x
    | _ => false

/-- One action; `none` when it is not possible. An iterator makes the same accesses as the
destructor of an entry. -/
def step (w : World T n) : Action T n → Option (World T n)
  | .stack a => w.step a
  | .deleteSelf x =>
    if pushed w x && !w.mem.heap.released x then
      some { w with mem := { w.mem with heap := (w.mem.heap.deleteSelf x).1 } }
    else
      none
  | .next t x =>
    match w.pc t with
    | .idle => if x ∈ w.mem.attached then some (w.goto t (.drop (.start x))) else none
    | _ => none

/-- The release of an entry. -/
def Releases (w w' : World T n) : Prop := ∃ x, w.step (.release x) = some w'

/-- The last call of the thread was `pop`, and it has returned. -/
def Popped (t : Fin n) (w : World T n) (o : Option T) : Prop :=
  w.pc t = .idle ∧ ∃ e, w.history.getLast? = some (.result t .pop (.popped e)) ∧
    e.map w.mem.heap.value = o.map some

theorem Popped.unique {t : Fin n} {w : World T n} {o o' : Option T} (h : Popped t w o)
    (h' : Popped t w o') : o = o' := by
  obtain ⟨-, e, he, ho⟩ := h
  obtain ⟨-, e', he', ho'⟩ := h'
  cases he.symm.trans he'
  exact Option.map_injective (Option.some_injective T) (ho.symm.trans ho')

/-- A stack, as the thread `t` sees it that pops from it. -/
def container (t : Fin n) : Container (World T n) T where
  invoke w := w.step (.thread t (.invoke .pop))
  own w := w.proceed t
  env := Releases
  answered := Popped t
  stuck w o h := by
    unfold World.proceed
    rw [h.1]
  unique w o o' h h' := h.unique h'

end

/-- The place where a call of `clone` stands. -/
inductive Place where
  /-- Before the load of `newest`. -/
  | load
  /-- Before the entry `current` is copied. -/
  | copy (current : Addr)
  /-- In `next_ptr` of the entry that has been copied. -/
  | next (call : NextPtr)
  | finished

/-- The call has moved to `current`. -/
def Place.move : Option Addr → Place
  | none => .finished
  | some x => .copy x

/-- The entries of the copy get one more: it is created, and the entry `oldest`, or `newest` if
there is none, is linked to it. Nobody else sees the copy, so that this is one step. -/
def attachLast {T : Type} (m : Mem T) (oldest : Option Addr) (val : T) : Mem T :=
  match oldest with
  | some l =>
    { m with
        heap := (m.heap.alloc val).setLink l ⟨some m.heap.nextAddr, .none⟩
        attached := m.attached ++ [m.heap.nextAddr] }
  | none =>
    { m with
        newest := some m.heap.nextAddr
        heap := m.heap.alloc val
        attached := m.attached ++ [m.heap.nextAddr] }

/-- A call of `Stack::clone` in progress. `oldest` is the last entry of the copy. -/
structure Cloning (T : Type) (n : Nat) where
  stack : World T n
  copy : World T n
  oldest : Option Addr
  place : Place

namespace Cloning

variable {T : Type} {n : Nat}

/-- The call begins, with an empty copy. -/
def start (w : World T n) : Cloning T n := ⟨w, .init, none, .load⟩

/-- The next atomic access of the thread. -/
def proceed (clone : T → T) (s : Cloning T n) : Option (Cloning T n) :=
  match s.place with
  | .load => some { s with place := .move s.stack.mem.newest }
  | .copy current =>
    (s.stack.mem.heap.value current).map fun val =>
      { s with
          copy := { s.copy with mem := attachLast s.copy.mem s.oldest (clone val) }
          oldest := some s.copy.mem.heap.nextAddr
          place := .next (.start current) }
  | .next call =>
    match call.step s.stack.mem.heap with
    | (h, .running call) =>
      some { s with stack := { s.stack with mem := { s.stack.mem with heap := h } }, place := .next call }
    | (h, .done next) =>
      some { s with
        stack := { s.stack with mem := { s.stack.mem with heap := h } }, place := .move next.addr }
  | .finished => none

/-- The release of an entry of the stack that the call does not hold, or of one of the copy. -/
def Releases (s s' : Cloning T n) : Prop :=
  s'.place = s.place ∧ s'.oldest = s.oldest ∧
    (s'.copy = s.copy ∧ (∃ x, s.stack.step (.release x) = some s'.stack ∧
      ∀ call, s.place = .next call → call.holds ≠ some x) ∨
    s'.stack = s.stack ∧ StackClone.Releases s.copy s'.copy)

end Cloning

variable {T : Type} {n : Nat}

/-- The thread calls `clone`, and the other threads stand still: the call returns, and then the
copy yields the clones of what the stack yields. -/
def Copies (clone : T → T) (t : Fin n) (w : World T n) : Prop :=
  Ends (Cloning.proceed clone) Cloning.Releases
    (fun s => s.place = .finished ∧
      ∃ vals, (container t).Yields vals s.stack ∧ (container t).Yields (vals.map clone) s.copy)
    (.start w)

/-- The head of the stack is an entry that was deleted. -/
def DeadHead (w : World T n) : Prop :=
  ∃ x, w.mem.newest = some x ∧ w.mem.heap.isDeleted x = true

end Sdd.StackClone
