import Sdd.LinkedList

/-!
# `Sdd.Storage`: the arrays of a bag

The model of `Storage` in `bag.rs`. The metadata of a storage is a word of `bits` bits
(`usize`): the bit `i` says that the slot `i` is owned, and the bit `len + i` that it is
instantiated. `PushCall`, `PopCall` and `AllCall` are calls of `push`, `pop` and `pop_all` in
progress; each step is an access to the metadata or to a slot. A weak compare-and-exchange can
fail although the value is the expected one. `fetch_update` is one step: its attempts that fail
change nothing.

A slot holds an instance, or nothing that can be read: an instance that is read is moved out.
A call that reads a slot which holds no instance goes to `uninit`, from where nothing is
possible any more.
-/

set_option autoImplicit false

namespace Sdd

/-- `ARRAY_LEN` can be `len`: it is not zero, and `CHECK_ARRAY_LEN` holds. A `usize` has at most
64 bits. -/
structure ArrayLen (bits len : Nat) : Prop where
  pos : 1 ≤ len
  half : len ≤ bits / 2
  word : bits ≤ 64

structure Storage (bits : Nat) (T : Type) where
  metadata : BitVec bits
  slots : Nat → Option T

namespace Storage

variable {bits : Nat} {T : Type}

/-- `Storage::instance_bitmap`. -/
def instanceBitmap (len : Nat) (metadata : BitVec bits) : BitVec 32 :=
  (metadata >>> len).setWidth 32

/-- `Storage::owned_bitmap`. -/
def ownedBitmap (len : Nat) (metadata : BitVec bits) : BitVec 32 :=
  (metadata % (BitVec.ofNat bits 1 <<< len)).setWidth 32

/-- `Storage::new`. -/
def new : Storage bits T := ⟨0, fun _ => none⟩

/-- `Storage::with_val`. -/
def withVal (len : Nat) (val : T) : Storage bits T :=
  ⟨BitVec.ofNat bits 1 <<< len, fun i => if i = 0 then some val else none⟩

def setMetadata (s : Storage bits T) (metadata : BitVec bits) : Storage bits T :=
  { s with metadata := metadata }

def setSlot (s : Storage bits T) (index : Nat) (o : Option T) : Storage bits T :=
  { s with slots := Function.update s.slots index o }

/-- `u32::count_ones`. -/
def countOnes (bitmap : BitVec 32) : Nat := (List.range 32).countP fun i => bitmap.getLsbD i

/-- `Storage::len`. -/
def len (arrayLen : Nat) (s : Storage bits T) : Nat :=
  countOnes (instanceBitmap arrayLen s.metadata &&& ~~~ownedBitmap arrayLen s.metadata)

/-- `u32::trailing_ones`. -/
def trailingOnes (bitmap : BitVec 32) : Nat := (~~~bitmap).ctz.toNat

/-- The search of `push` and `pop`: the first slot whose bit in `bitmap` is not set, and that is
not owned. Each turn sets a bit of `bitmap`, so that `fuel` turns are enough when it has fewer
unset bits than that. -/
def search (len : Nat) (owned : BitVec 32) : Nat → BitVec 32 → Option Nat
  | 0, _ => none
  | fuel + 1, bitmap =>
    if trailingOnes bitmap < len then
      if owned &&& (1#32 <<< trailingOnes bitmap) = 0 then
        some (trailingOnes bitmap)
      else
        search len owned fuel (bitmap ||| (1#32 <<< trailingOnes bitmap))
    else
      none

end Storage

/-- A call of `Storage::push` in progress, before its next access. -/
inductive PushCall (bits : Nat) (T : Type) where
  /-- Before the load of the metadata. -/
  | load (val : T)
  /-- Before the compare-and-exchange that marks the slot `owned`. -/
  | exchange (val : T) (metadata : BitVec bits) (index : Nat)
  /-- Before the instance is written to the slot. -/
  | write (val : T) (index : Nat)
  /-- Before `fetch_update`. -/
  | publish (index : Nat)
  /-- Before the instance is read from the slot again. -/
  | readBack (index : Nat)
  /-- Before `fetch_and`. -/
  | rollBack (val : T) (index : Nat)
  /-- The call has read a slot that holds no instance. -/
  | uninit

/-- A call of `Storage::pop` in progress, before its next access. -/
inductive PopCall (bits : Nat) (T : Type) where
  /-- Before the load of the metadata. -/
  | load
  /-- Before the compare-and-exchange that marks the slot `owned`. -/
  | exchange (metadata : BitVec bits) (index : Nat)
  /-- Before the instance is read from the slot. -/
  | read (index : Nat)
  /-- Before `fetch_update`. -/
  | clear (inst : T) (index : Nat)
  /-- The call has read a slot that holds no instance. -/
  | uninit

/-- A call of `Storage::pop_all` in progress, before its next access. `acc` are the instances
that have been folded, the first one first. -/
inductive AllCall (bits : Nat) (T : Type) where
  /-- Before the load of the metadata. -/
  | load (acc : List T)
  /-- Before the compare-and-exchange that locks the slots. -/
  | exchange (acc : List T) (metadata instancesToPop : BitVec bits)
  /-- Before the instance in the slot is read and folded. -/
  | fold (acc : List T) (metadata instancesToPop : BitVec bits) (index : Nat)
  /-- Before the compare-and-exchange of the `ExitGuard`. -/
  | unlock (acc : List T) (metadata instancesToPop : BitVec bits)
  /-- The call has read a slot that holds no instance. -/
  | uninit (acc : List T)

variable {bits : Nat} {T : Type} (len : Nat)

namespace PushCall

/-- One turn of the loop, up to the compare-and-exchange. -/
def loop (allowEmpty : Bool) (val : T) (metadata : BitVec bits) :
    Outcome (PushCall bits T) (Option T) :=
  let instanceBitmap := Storage.instanceBitmap len metadata
  let ownedBitmap := Storage.ownedBitmap len metadata
  if !allowEmpty && instanceBitmap &&& ~~~ownedBitmap == 0 then
    .done (some val)
  else
    match Storage.search len ownedBitmap 33 instanceBitmap with
    | some index => .running (.exchange val metadata index)
    | none => .done (some val)

/-- The next access of the call. It returns the instance if it has not been pushed. -/
def step (allowEmpty fails : Bool) (s : Storage bits T) :
    PushCall bits T → Storage bits T × Outcome (PushCall bits T) (Option T)
  | .load val => (s, loop len allowEmpty val s.metadata)
  | .exchange val metadata index =>
    if s.metadata = metadata ∧ ¬fails then
      (s.setMetadata (metadata ||| (BitVec.ofNat bits 1 <<< index)), .running (.write val index))
    else
      (s, loop len allowEmpty val s.metadata)
  | .write val index => (s.setSlot index (some val), .running (.publish index))
  | .publish index =>
    if !allowEmpty &&
        Storage.instanceBitmap len s.metadata &&& ~~~Storage.ownedBitmap len s.metadata == 0 then
      (s, .running (.readBack index))
    else
      (s.setMetadata
        ((s.metadata &&& ~~~(BitVec.ofNat bits 1 <<< index)) |||
          (BitVec.ofNat bits 1 <<< (index + len))), .done none)
  | .readBack index =>
    match s.slots index with
    | some val => (s.setSlot index none, .running (.rollBack val index))
    | none => (s, .running .uninit)
  | .rollBack val index =>
    (s.setMetadata (s.metadata &&& ~~~(BitVec.ofNat bits 1 <<< index)), .done (some val))
  | .uninit => (s, .running .uninit)

end PushCall

namespace PopCall

/-- One turn of the loop, up to the compare-and-exchange. -/
def loop (metadata : BitVec bits) : Outcome (PopCall bits T) (Option T × Bool) :=
  let instanceBitmapInverted := ~~~Storage.instanceBitmap len metadata
  let ownedBitmap := Storage.ownedBitmap len metadata
  match Storage.search len ownedBitmap 33 instanceBitmapInverted with
  | some index => .running (.exchange metadata index)
  | none => .done (none, false)

/-- The next access of the call. It returns the instance, and whether no slot is instantiated
any more. -/
def step (fails : Bool) (s : Storage bits T) :
    PopCall bits T → Storage bits T × Outcome (PopCall bits T) (Option T × Bool)
  | .load => (s, loop len s.metadata)
  | .exchange metadata index =>
    if s.metadata = metadata ∧ ¬fails then
      (s.setMetadata (metadata ||| (BitVec.ofNat bits 1 <<< index)), .running (.read index))
    else
      (s, loop len s.metadata)
  | .read index =>
    match s.slots index with
    | some inst => (s.setSlot index none, .running (.clear inst index))
    | none => (s, .running .uninit)
  | .clear inst index =>
    let new := s.metadata &&& ~~~((BitVec.ofNat bits 1 <<< index) |||
      (BitVec.ofNat bits 1 <<< (index + len)))
    (s.setMetadata new, .done (some inst, Storage.instanceBitmap len new == 0))
  | .uninit => (s, .running .uninit)

end PopCall

namespace AllCall

/-- The instantiated slots that are not owned. -/
def instancesToPop (metadata : BitVec bits) : BitVec bits :=
  (Storage.instanceBitmap len metadata).setWidth bits &&&
    ~~~(Storage.ownedBitmap len metadata).setWidth bits

/-- One turn of the loop, up to the compare-and-exchange. -/
def loop (acc : List T) (metadata : BitVec bits) : Outcome (AllCall bits T) (List T) :=
  if instancesToPop len metadata = 0 then
    .done acc
  else
    .running (.exchange acc metadata (instancesToPop len metadata))

/-- One turn of the loop over the locked slots. -/
def foldLoop (acc : List T) (metadata instances : BitVec bits) (index : Nat) :
    Outcome (AllCall bits T) (List T) :=
  if index < len then
    .running (.fold acc metadata instances index)
  else
    .running (.unlock acc metadata instances)

/-- The next access of the call. It returns what has been folded. -/
def step (fails : Bool) (s : Storage bits T) :
    AllCall bits T → Storage bits T × Outcome (AllCall bits T) (List T)
  | .load acc => (s, loop len acc s.metadata)
  | .exchange acc metadata instances =>
    if s.metadata = metadata ∧ ¬fails then
      (s.setMetadata (metadata ||| instances),
        foldLoop len acc (metadata ||| instances) instances instances.ctz.toNat)
    else
      (s, loop len acc s.metadata)
  | .fold acc metadata instances index =>
    match s.slots index with
    | some inst =>
      (s.setSlot index none, foldLoop len (acc ++ [inst]) metadata instances
        (instances &&& ~~~((BitVec.ofNat bits 1 <<< (index + 1)) - 1)).ctz.toNat)
    | none => (s, .running (.uninit acc))
  | .unlock acc metadata instances =>
    if s.metadata = metadata ∧ ¬fails then
      (s.setMetadata (metadata &&& ~~~((instances <<< len) ||| instances)), .done acc)
    else
      (s, .running (.unlock acc s.metadata instances))
  | .uninit acc => (s, .running (.uninit acc))

end AllCall

end Sdd
