import Sdd.LinkedList
import Sdd.Lib.Alone

/-!
# `Sdd.Counted`: linked lists with their reference counts

In a `Heap` the reference counts of the entries are only zero or not. `Counted` has the numbers
of strong references instead, for a program with one thread. `Counted.step` is an access of
`next_ptr_recursive`: `get_shared` takes a reference, a compare-and-exchange that succeeds moves
it to the link, and gives back the one that was there, and one that fails gives back its own.

An entry whose count has reached zero stays where it is, as the guard of the call is held.
-/

set_option autoImplicit false

namespace Sdd

structure Counted (T : Type) where
  /-- The `next` word of an entry: a pointer, and the tag of the entry itself. -/
  link : Addr → Ptr Addr
  value : Addr → Option T
  /-- The number of strong references. -/
  strong : Addr → Nat
  /-- The entries are below this address. -/
  nextAddr : Addr

namespace Counted

variable {T : Type}

/-- What `next_ptr_recursive` sees. -/
def heap (m : Counted T) : Heap T := ⟨m.link, m.value, fun x => m.strong x == 0, m.nextAddr⟩

/-- The links that refer to `x`. -/
def links (m : Counted T) (x : Addr) : Nat :=
  (List.range m.nextAddr).countP fun y => (m.link y).addr == some x

/-- `Shared::release`, if there is one. -/
def release (m : Counted T) : Option Addr → Addr → Nat
  | some x => Function.update m.strong x (m.strong x - 1)
  | none => m.strong

/-- The counts after an access of a call. -/
def counts (m : Counted T) : NextPtr → Addr → Nat
  | .getShared _ _ nextValid =>
    match m.heap.getShared nextValid with
    | some x => Function.update m.strong x (m.strong x + 1)
    | none => m.strong
  | .exchange _ f nextValid =>
    if m.link f.head = f.headNext then m.release f.headNext.addr else m.release nextValid.addr
  | .loadHead _ _ _ | .loadNext _ _ _ _ => m.strong

/-- The next atomic access of a call, and the release that follows it. -/
def step (m : Counted T) (call : NextPtr) : Counted T × Outcome NextPtr (Ptr Addr) :=
  ({ m with link := (call.step m.heap).1.link, strong := m.counts call }, (call.step m.heap).2)

/-- A call of `next_ptr` of the entry `x` returns `p` and leaves `m'`, with `Q m' p`. -/
def NextPtrGives (m : Counted T) (x : Addr) (Q : Counted T → Ptr Addr → Prop) : Prop :=
  Lib.Ends (Outcome.advance step) (fun _ _ => False) (fun s => ∃ m' p, s = (m', .done p) ∧ Q m' p)
    (m, .running (.start x))

end Counted

end Sdd
