import Sdd.IterMut
import Sdd.Unwind
import Mathlib.Algebra.Group.Nat.Defs

/-!
# `Sdd.Checked`: the arithmetic of a bag with its checks

The accesses of `Sdd.Storage`, `Sdd.Bag` and `Sdd.IterMut` once more, with everything that can go
wrong on the way: a shift by the width of the word or more, an index of a slot that is not below
`ARRAY_LEN`, an arithmetic overflow, a division by zero, and the `debug_assert`s. `wrapping_shr`
shifts by the amount modulo the width.

`Admitted` is what `CHECK_ARRAY_LEN` admits.
-/

set_option autoImplicit false

namespace Sdd

/-- `CHECK_ARRAY_LEN` holds for `ARRAY_LEN = len`, and `usize` has 32 or 64 bits. -/
structure Admitted (bits len : Nat) : Prop where
  width : bits = 32 ∨ bits = 64
  check : len ≤ bits / 2

namespace Checked

/-- What goes wrong. -/
inductive Fault where
  /-- A shift amount is not below the width of the word. -/
  | shift
  /-- The index of a slot is not below `ARRAY_LEN`. -/
  | slot
  /-- An addition or subtraction overflows. -/
  | overflow
  /-- A division by zero. -/
  | division
  /-- A `debug_assert` fails. -/
  | assertion
deriving DecidableEq

section words

variable {w : Nat}

/-- `<<`. -/
def shl (x : BitVec w) (amount : Nat) : Except Fault (BitVec w) :=
  if amount < w then .ok (x <<< amount) else .error .shift

/-- `wrapping_shr`. -/
def wrappingShr (x : BitVec w) (amount : Nat) : BitVec w := x >>> (amount % w)

/-- `%`. -/
def rem (x y : BitVec w) : Except Fault (BitVec w) :=
  if y = 0 then .error .division else .ok (x % y)

/-- `+`. -/
def add (x y : BitVec w) : Except Fault (BitVec w) :=
  if x.toNat + y.toNat < 2 ^ w then .ok (x + y) else .error .overflow

/-- `-`. -/
def sub (x y : BitVec w) : Except Fault (BitVec w) :=
  if y.toNat ≤ x.toNat then .ok (x - y) else .error .overflow

/-- The access to the slot `index`. -/
def slot (len index : Nat) : Except Fault Unit :=
  if index < len then .ok () else .error .slot

/-- `debug_assert`. -/
def assertion (holds : Bool) : Except Fault Unit :=
  if holds then .ok () else .error .assertion

end words

variable {bits : Nat} {T : Type} (len : Nat)

/-- `1_usize << amount`. -/
def bit (amount : Nat) : Except Fault (BitVec bits) := shl (BitVec.ofNat bits 1) amount

/-- `Storage::instance_bitmap`. -/
def instanceBitmap (metadata : BitVec bits) : BitVec 32 := (wrappingShr metadata len).setWidth 32

/-- `Storage::owned_bitmap`. -/
def ownedBitmap (metadata : BitVec bits) : Except Fault (BitVec 32) := do
  let bound ← bit len
  let owned ← rem metadata bound
  return owned.setWidth 32

/-- `Storage::with_val`. -/
def withVal (val : T) : Except Fault (Storage bits T) := do
  let metadata ← bit len
  slot len 0
  return ⟨metadata, fun i => if i = 0 then some val else none⟩

/-- The search of `push` and `pop`. -/
def search (owned : BitVec 32) : Nat → BitVec 32 → Except Fault (Option Nat)
  | 0, _ => .ok none
  | fuel + 1, bitmap =>
    if Storage.trailingOnes bitmap < len then do
      let flag ← shl 1#32 (Storage.trailingOnes bitmap)
      if owned &&& flag = 0 then
        return some (Storage.trailingOnes bitmap)
      else
        search owned fuel (bitmap ||| flag)
    else
      .ok none

/-- One turn of the loop of `Storage::push`. -/
def pushLoop (allowEmpty : Bool) (val : T) (metadata : BitVec bits) :
    Except Fault (Outcome (PushCall bits T) (Option T)) := do
  let owned ← ownedBitmap len metadata
  if !allowEmpty && instanceBitmap len metadata &&& ~~~owned == 0 then
    return .done (some val)
  else
    match ← search len owned 33 (instanceBitmap len metadata) with
    | some index => return .running (.exchange val metadata index)
    | none => return .done (some val)

/-- The next access of `Storage::push`. -/
def pushStep (allowEmpty fails : Bool) (s : Storage bits T) :
    PushCall bits T → Except Fault (Storage bits T × Outcome (PushCall bits T) (Option T))
  | .load val => do return (s, ← pushLoop len allowEmpty val s.metadata)
  | .exchange val metadata index => do
    let new := metadata ||| (← bit index)
    if s.metadata = metadata ∧ ¬fails then
      return (s.setMetadata new, .running (.write val index))
    else
      return (s, ← pushLoop len allowEmpty val s.metadata)
  | .write val index => do
    slot len index
    return (s.setSlot index (some val), .running (.publish index))
  | .publish index => do
    let low ← bit index
    let high ← bit (index + len)
    assertion (s.metadata &&& low != 0)
    assertion (s.metadata &&& high == 0)
    let owned ← ownedBitmap len s.metadata
    if !allowEmpty && instanceBitmap len s.metadata &&& ~~~owned == 0 then
      return (s, .running (.readBack index))
    else
      return (s.setMetadata ((s.metadata &&& ~~~low) ||| high), .done none)
  | .readBack index => do
    slot len index
    match s.slots index with
    | some val => return (s.setSlot index none, .running (.rollBack val index))
    | none => return (s, .running .uninit)
  | .rollBack val index => do
    return (s.setMetadata (s.metadata &&& ~~~(← bit index)), .done (some val))
  | .uninit => return (s, .running .uninit)

/-- One turn of the loop of `Storage::pop`. -/
def popLoop (metadata : BitVec bits) :
    Except Fault (Outcome (PopCall bits T) (Option T × Bool)) := do
  let owned ← ownedBitmap len metadata
  match ← search len owned 33 (~~~instanceBitmap len metadata) with
  | some index => return .running (.exchange metadata index)
  | none => return .done (none, false)

/-- The next access of `Storage::pop`. -/
def popStep (fails : Bool) (s : Storage bits T) :
    PopCall bits T → Except Fault (Storage bits T × Outcome (PopCall bits T) (Option T × Bool))
  | .load => do return (s, ← popLoop len s.metadata)
  | .exchange metadata index => do
    let new := metadata ||| (← bit index)
    if s.metadata = metadata ∧ ¬fails then
      return (s.setMetadata new, .running (.read index))
    else
      return (s, ← popLoop len s.metadata)
  | .read index => do
    slot len index
    match s.slots index with
    | some inst => return (s.setSlot index none, .running (.clear inst index))
    | none => return (s, .running .uninit)
  | .clear inst index => do
    let low ← bit index
    let high ← bit (index + len)
    assertion (s.metadata &&& low != 0)
    assertion (s.metadata &&& high != 0)
    let new := s.metadata &&& ~~~(low ||| high)
    return (s.setMetadata new, .done (some inst, instanceBitmap len new == 0))
  | .uninit => return (s, .running .uninit)

/-- One turn of the loop of `Storage::pop_all`. -/
def allLoop (acc : List T) (metadata : BitVec bits) :
    Except Fault (Outcome (AllCall bits T) (List T)) := do
  let instances := (instanceBitmap len metadata).setWidth bits
  let owned := (← ownedBitmap len metadata).setWidth bits
  let instancesToPop := instances &&& ~~~owned
  assertion (instancesToPop &&& owned == 0)
  if instancesToPop = 0 then
    return .done acc
  else
    return .running (.exchange acc metadata instancesToPop)

/-- The next access of `Storage::pop_all`. -/
def allStep (fails : Bool) (s : Storage bits T) :
    AllCall bits T → Except Fault (Storage bits T × Outcome (AllCall bits T) (List T))
  | .load acc => do return (s, ← allLoop len acc s.metadata)
  | .exchange acc metadata instances =>
    if s.metadata = metadata ∧ ¬fails then
      return (s.setMetadata (metadata ||| instances),
        AllCall.foldLoop len acc (metadata ||| instances) instances instances.ctz.toNat)
    else do
      return (s, ← allLoop len acc s.metadata)
  | .fold acc metadata instances index => do
    slot len index
    match s.slots index with
    | some inst =>
      let mask ← sub (← bit (index + 1)) 1
      return (s.setSlot index none,
        AllCall.foldLoop len (acc ++ [inst]) metadata instances (instances &&& ~~~mask).ctz.toNat)
    | none => return (s, .running (.uninit acc))
  | .unlock acc metadata instances => do
    let high ← shl instances len
    if s.metadata = metadata ∧ ¬fails then
      return (s.setMetadata (metadata &&& ~~~(high ||| instances)), .done acc)
    else
      return (s, .running (.unlock acc s.metadata instances))
  | .uninit acc => return (s, .running (.uninit acc))

/-- The loop of `Storage::drop`. -/
def dropLoop (slots : Nat → Option T) : Nat → BitVec 32 → Except Fault (Option (List T))
  | 0, _ => .ok none
  | fuel + 1, bitmap =>
    if bitmap.ctz.toNat = 32 then
      .ok (some [])
    else do
      let flag ← shl 1#32 bitmap.ctz.toNat
      slot len bitmap.ctz.toNat
      let rest ← dropLoop slots fuel (bitmap &&& ~~~flag)
      return (slots bitmap.ctz.toNat).bind fun inst => rest.map (inst :: ·)

/-- `Storage::drop`. -/
def drop (s : Storage bits T) : Except Fault (Option (List T)) :=
  dropLoop len s.slots 33 (instanceBitmap len s.metadata)

section calls

open Bag

variable {n : Nat}

/-- A new storage is pushed. -/
def startNew (val : T) : Except Fault (Outcome (Call bits T) (Res T)) := do
  let s ← withVal len val
  return .running (.pushNew val (.start (.push s)))

/-- `Bag::push` goes on after an access of `peek_with`. -/
def pushPeeked (val : T) : Outcome (Stack.Call (Storage bits T)) Stack.Res →
    Except Fault (Outcome (Call bits T) (Res T))
  | .running call => .ok (.running (.pushPeek val call))
  | .done (.peeked (some x)) => .ok (.running (.pushStorage val x (.load val)))
  | .done _ => startNew len val

/-- `Bag::push` goes on after an access of `push` of the storage in the entry `x`. -/
def pushedStorage (val : T) (x : Addr) :
    Outcome (PushCall bits T) (Option T) → Except Fault (Outcome (Call bits T) (Res T))
  | .running call => .ok (.running (.pushStorage val x call))
  | .done none => .ok (.done .pushed)
  | .done (some val) => startNew len val

/-- The next access of a call of a method of the bag. The methods of the stack are not the
subject here. -/
def callStep (fails : Bool) (t : Fin n) (m : Mem bits T n) :
    Call bits T → Except Fault (Mem bits T n × Outcome (Call bits T) (Res T))
  | .pushPrimary tries val call => do
    let r ← pushStep len true fails m.primary call
    return (m.setPrimary r.1, Call.pushedPrimary tries val r.2)
  | .pushPeek val call => do
    let r := (m.family.mem none).step call
    return (m.setFamily (m.family.setMem none r.1), ← pushPeeked len val r.2)
  | .pushStorage val x call => do
    let r ← pushStep len false fails (m.storage x) call
    return (m.setStorage x r.1, ← pushedStorage len val x r.2)
  | .popStorage x call => do
    let r ← popStep len fails (m.storage x) call
    return (m.setStorage x r.1, Call.poppedStorage x r.2)
  | .popPrimary call => do
    let r ← popStep len fails m.primary call
    return (m.setPrimary r.1, Call.poppedPrimary r.2)
  | .allStorage x call => do
    let r ← allStep len fails (m.storage x) call
    return (m.setStorage x r.1, Call.allTaken x r.2)
  | .allPrimary call => do
    let r ← allStep len fails m.primary call
    return (m.setPrimary r.1, Call.allTakenPrimary r.2)
  | call => .ok (call.step len fails t m)

/-- A call of `next` goes on with the metadata of the current storage. -/
def loaded (c : IterCall bits T) (metadata : BitVec bits) :
    Except Fault (Outcome (IterCall bits T) (List (Option (Option Addr × Nat)))) := do
  let firstOccupied :=
    (wrappingShr (instanceBitmap len metadata) c.it.currentIndex.toNat).ctz
  let nextOccupied ← add c.it.currentIndex firstOccupied
  let index ← add nextOccupied 1
  if nextOccupied.toNat < len then
    slot len nextOccupied.toNat
    return IterCall.resume { c.it with currentIndex := index }
      (c.yielded ++ [some (c.it.currentStackEntry, nextOccupied.toNat)]) c.rest
  else
    match c.it.currentStackEntry with
    | some linked =>
      return .running { c with it := c.it.leave, pc := .next linked (.start linked) }
    | none => return .running { c with it := c.it.leave, pc := .peek (.start .peek) }

/-- The next access of a call of `next`. -/
def iterStep (m : Mem bits T n) (c : IterCall bits T) : Except Fault
    (Mem bits T n × Outcome (IterCall bits T) (List (Option (Option Addr × Nat)))) :=
  match c.pc with
  | .load => do return (m, ← loaded len c (c.it.currentStorage m).metadata)
  | _ => .ok (c.step len m)

end calls

end Checked

end Sdd
