import Mathlib.Logic.Relation
import Sdd.Bag

/-!
# `Sdd.IterMut`: the iterator of a bag

The model of `IterMut` in `bag.rs`. `IterCall` are calls of `next` of one iterator, one after the
other, and `IterCall.step` makes the next access: the load of the metadata of the current storage,
or an access of `peek_with` or `next_ptr` for the next one. What a call yields is the place of a
slot: the entry, or none for the primary storage, and the index.

The iterator has the bag for itself. The caller can change an instance that it has been given:
the iterator reads no slot.

`Reached` are the states of a bag that is used by `n` threads, and that has been looked through
while no thread used it, any number of times: by `len`, by `is_empty`, or by an iterator that has
been asked for any number of instances.
-/

set_option autoImplicit false

namespace Sdd.Bag

/-- The iterator. -/
structure IterMut where
  currentIndex : BitVec 32
  currentStackEntry : Option Addr

namespace IterMut

variable {bits n : Nat} {T : Type} (len : Nat)

/-- `Bag::iter_mut`. -/
def new : IterMut := ⟨0, none⟩

/-- The storage that the iterator is at. -/
def currentStorage (it : IterMut) (m : Mem bits T n) : Storage bits T :=
  match it.currentStackEntry with
  | some linked => m.storage linked
  | none => m.primary

/-- The first instantiated slot from the current index on. `wrapping_shr` shifts by the amount
modulo 32. -/
def nextOccupied (it : IterMut) (metadata : BitVec bits) : BitVec 32 :=
  let firstOccupied :=
    (Storage.instanceBitmap len metadata >>> (it.currentIndex.toNat % 32)).ctz
  it.currentIndex + firstOccupied

/-- The iterator leaves the current storage. -/
def leave (it : IterMut) : IterMut := ⟨BitVec.allOnes 32, it.currentStackEntry⟩

end IterMut

/-- Where a call of `next` stands, before its next atomic access. -/
inductive IterPc (bits : Nat) (T : Type) where
  /-- Before the load of the metadata of the current storage. -/
  | load
  /-- In `next_ptr` of the current entry `x`. -/
  | next (x : Addr) (call : NextPtr)
  /-- In `peek_with`. -/
  | peek (call : Stack.Call (Storage bits T))

/-- A call of `next` in progress. `yielded` is what the calls before it have returned, and `rest`
is the number of the calls after it. -/
structure IterCall (bits : Nat) (T : Type) where
  it : IterMut
  rest : Nat
  yielded : List (Option (Option Addr × Nat))
  pc : IterPc bits T

namespace IterCall

variable {bits n : Nat} {T : Type} (len : Nat)

/-- `k + 1` calls of `next` of a new iterator. -/
def start (k : Nat) : IterCall bits T := ⟨.new, k, [], .load⟩

/-- The next calls begin, `k` altogether: a call returns at once if the iterator has left the last
storage. -/
def resume (it : IterMut) (yielded : List (Option (Option Addr × Nat))) :
    Nat → Outcome (IterCall bits T) (List (Option (Option Addr × Nat)))
  | 0 => .done yielded
  | k + 1 =>
    if it.currentIndex = BitVec.allOnes 32 then
      resume it (yielded ++ [none]) k
    else
      .running ⟨it, k, yielded, .load⟩

/-- The call has found the next storage, or there is none. -/
def found (c : IterCall bits T) :
    Option Addr → Outcome (IterCall bits T) (List (Option (Option Addr × Nat)))
  | some y => .running { c with it := ⟨0, some y⟩, pc := .load }
  | none => resume c.it (c.yielded ++ [none]) c.rest

/-- The call goes on after an access of `next_ptr` of the entry `x`. -/
def advanced (c : IterCall bits T) (x : Addr) :
    Outcome NextPtr (Ptr Addr) → Outcome (IterCall bits T) (List (Option (Option Addr × Nat)))
  | .running call => .running { c with pc := .next x call }
  | .done next => c.found next.addr

/-- The call goes on after an access of `peek_with`. -/
def peeked (c : IterCall bits T) : Outcome (Stack.Call (Storage bits T)) Stack.Res →
    Outcome (IterCall bits T) (List (Option (Option Addr × Nat)))
  | .running call => .running { c with pc := .peek call }
  | .done (.peeked e) => c.found e
  | .done _ => c.found none

/-- The call goes on with the metadata of the current storage. -/
def loaded (c : IterCall bits T) (metadata : BitVec bits) :
    Outcome (IterCall bits T) (List (Option (Option Addr × Nat))) :=
  let nextOccupied := c.it.nextOccupied len metadata
  if nextOccupied.toNat < len then
    resume { c.it with currentIndex := nextOccupied + 1 }
      (c.yielded ++ [some (c.it.currentStackEntry, nextOccupied.toNat)]) c.rest
  else
    match c.it.currentStackEntry with
    | some linked => .running { c with it := c.it.leave, pc := .next linked (.start linked) }
    | none => .running { c with it := c.it.leave, pc := .peek (.start .peek) }

/-- The next atomic access. -/
def step (m : Mem bits T n) (c : IterCall bits T) :
    Mem bits T n × Outcome (IterCall bits T) (List (Option (Option Addr × Nat))) :=
  match c.pc with
  | .load => (m, c.loaded len (c.it.currentStorage m).metadata)
  | .next x call =>
    let r := call.step m.family.heap
    (m.setHeap r.1, c.advanced x r.2)
  | .peek call =>
    let r := (m.family.mem none).step call
    (m.setFamily (m.family.setMem none r.1), c.peeked r.2)

/-- The call holds a `Shared` of `x`. -/
def holds (x : Addr) (c : IterCall bits T) : Bool :=
  match c.pc with
  | .load => false
  | .next _ call => call.holds == some x
  | .peek call => call.holds x

end IterCall

namespace Mem

variable {bits n : Nat} {T C R : Type}

/-- A call that runs alone returns `res`, and leaves the words `m'`. -/
def Leaves (m : Mem bits T n) (step : Mem bits T n → C → Mem bits T n × Outcome C R)
    (holds : Addr → C → Bool) (call : C) (res : R) (m' : Mem bits T n) : Prop :=
  Relation.ReflTransGen
    (fun s s' => Outcome.advance step s = some s' ∨ LetsGo holds s s')
    (m, .running call) (m', .done res)

end Mem

namespace World

variable {bits n : Nat} {T : Type} (len : Nat)

/-- A call that looks through the bag has returned. -/
inductive Observed (m m' : Mem bits T n) : Prop where
  | len (k : Nat) (h : m.Leaves (LenCall.step len) LenCall.holds .start k m')
  | isEmpty (b : Bool) (h : m.Leaves (EmptyCall.step len) EmptyCall.holds .start b m')
  | iterMut (k : Nat) (yielded : List (Option (Option Addr × Nat)))
      (h : m.Leaves (IterCall.step len) IterCall.holds (.start k) yielded m')

/-- The states of a bag. -/
inductive Reached : World bits T n → Prop where
  | init : Reached .init
  | step {w w' : World bits T n} {a : Action T n} (h : Reached w)
      (hs : w.step len a = some w') : Reached w'
  | observe {w : World bits T n} {m : Mem bits T n} (h : Reached w)
      (hidle : ∀ t, w.pc t = .idle) (ho : Observed len w.mem m) : Reached { w with mem := m }

end World

end Sdd.Bag
