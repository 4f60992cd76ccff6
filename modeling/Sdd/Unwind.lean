import Sdd.Bag

/-!
# `Sdd.Unwind`: `pop_all` of a bag when the fold panics

The fold that `Bag::pop_all` is given can panic on an instance. The instance has been moved to
the fold then. The `ExitGuard` of `Storage::pop_all` runs, the `Shared` of the storage is dropped,
and the stack with the rest of the entries is dropped: `Stack::drop` deletes all its entries.
`Unwind` is this in progress, and `Unwind.step` makes its next atomic access.

`Storage.drop` is the destructor of a storage, which runs when its entry is freed.
-/

set_option autoImplicit false

namespace Sdd

variable {bits : Nat} {T : Type} (len : Nat)

namespace Storage

/-- The loop of `Storage::drop`: the instances that it drops, the first one first. It drops a slot
that holds no instance, or does not end, if there is no result. -/
def dropLoop (slots : Nat → Option T) : Nat → BitVec 32 → Option (List T)
  | 0, _ => none
  | fuel + 1, instanceBitmap =>
    if instanceBitmap.ctz.toNat = 32 then
      some []
    else
      (slots instanceBitmap.ctz.toNat).bind fun inst =>
        (dropLoop slots fuel
          (instanceBitmap &&& ~~~(1#32 <<< instanceBitmap.ctz.toNat))).map (inst :: ·)

/-- `Storage::drop` of a storage whose instances have a destructor. -/
def drop (s : Storage bits T) : Option (List T) :=
  dropLoop s.slots 33 (instanceBitmap len s.metadata)

end Storage

/-- The fold panics: the instances that it has been given, and the call in the `ExitGuard`. -/
def AllCall.panic (s : Storage bits T) :
    AllCall bits T → Option (Storage bits T × List T × AllCall bits T)
  | .fold acc metadata instances index => (s.slots index).map fun inst =>
    (s.setSlot index none, acc ++ [inst], .unlock (acc ++ [inst]) metadata instances)
  | _ => none

namespace Bag

/-- The unwinding of a call of `pop_all` in progress, before its next atomic access. -/
inductive Unwind (bits : Nat) (T : Type) where
  /-- In the `ExitGuard` of the storage in the entry `x`, of which there is a `Shared`. -/
  | storage (x : Addr) (call : AllCall bits T)
  /-- In the `ExitGuard` of the primary storage. -/
  | primary (call : AllCall bits T)
  /-- `Stack::drop`, before `is_null`. -/
  | isNull
  /-- `Stack::drop`, in `cleanup_newest` for the iterator. -/
  | iter (call : Stack.Call (Storage bits T))
  /-- `Stack::drop`, before `delete_self` of the entry `x`. -/
  | delete (x : Addr)
  /-- `Stack::drop`, in `next_ptr` of the entry `x`. -/
  | next (x : Addr) (call : NextPtr)
  /-- Before the drop of the word `newest`. -/
  | newest

variable {n : Nat}

/-- The fold panics: the words, the instances that it has been given, and what unwinds. -/
def Call.panic (m : Mem bits T n) :
    Call bits T → Option (Mem bits T n × List T × Unwind bits T)
  | .allStorage x call => (call.panic (m.storage x)).map fun r =>
    (m.setStorage x r.1, r.2.1, .storage x r.2.2)
  | .allPrimary call => (call.panic m.primary).map fun r =>
    (m.setPrimary r.1, r.2.1, .primary r.2.2)
  | _ => none

namespace Unwind

/-- The call holds a `Shared` of `x`. -/
def holds (x : Addr) : Unwind bits T → Bool
  | storage y _ => y == x
  | iter call => call.holds x
  | next _ call => call.holds == some x
  | primary _ | isNull | delete _ | newest => false

/-- The unwinding goes on after an access of an `ExitGuard`. -/
def unlocked (wrap : AllCall bits T → Unwind bits T) :
    Outcome (AllCall bits T) (List T) → Outcome (Unwind bits T) Unit
  | .running call => .running (wrap call)
  | .done _ => .running .isNull

/-- `Stack::drop` is at the entry, if there is one. -/
def loop : Option Addr → Outcome (Unwind bits T) Unit
  | some x => .running (.delete x)
  | none => .running .newest

/-- `Stack::drop` goes on after an access of `cleanup_newest`. -/
def cleaned : Outcome (Stack.Call (Storage bits T)) Stack.Res → Outcome (Unwind bits T) Unit
  | .running call => .running (.iter call)
  | .done (.peeked current) => loop current
  | .done _ => loop none

/-- `Stack::drop` goes on after an access of `next_ptr` of the entry `x`. -/
def advanced (x : Addr) : Outcome NextPtr (Ptr Addr) → Outcome (Unwind bits T) Unit
  | .running call => .running (.next x call)
  | .done current => loop current.addr

/-- The next atomic access when a call of the thread `t` unwinds. `fails` says that a weak
compare-and-exchange fails although the value is the expected one. -/
def step (fails : Bool) (t : Fin n) (m : Mem bits T n) :
    Unwind bits T → Mem bits T n × Outcome (Unwind bits T) Unit
  | .storage x call =>
    let r := call.step len fails (m.storage x)
    (m.setStorage x r.1, unlocked (.storage x) r.2)
  | .primary call =>
    let r := call.step len fails m.primary
    (m.setPrimary r.1, unlocked .primary r.2)
  | .isNull =>
    (m, .running (if (m.family.newest (some t)).isNone then .newest else .iter (.start .peek)))
  | .iter call =>
    let r := (m.family.mem (some t)).step call
    (m.setFamily (m.family.setMem (some t) r.1), cleaned r.2)
  | .delete x => (m.setHeap (m.family.heap.deleteSelf x).1, .running (.next x (.start x)))
  | .next x call =>
    let r := call.step m.family.heap
    (m.setHeap r.1, advanced x r.2)
  | .newest =>
    (m.setFamily { m.family with newest := Function.update m.family.newest (some t) none },
      .done ())

end Unwind

end Bag

end Sdd
