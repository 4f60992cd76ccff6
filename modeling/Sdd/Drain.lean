import Sdd.Lib.Run
import Sdd.Storage

/-!
# `Sdd.Drain`: one fallback storage

A storage that `with_val` has created, and `n` threads that call `push(_, false)`, `pop` and
`pop_all` on it. The steps are those of `Sdd.Storage`, but `fetch_update` is not one step here: it
loads the metadata, and its closure is called again whenever the compare-and-exchange fails. The
flag that `pop` returns is what the closure has computed last.

`drains` counts the steps that bring the instance bitmap to zero, and `answers` lists the results
with what the step did. No operation reads them.
-/

set_option autoImplicit false

namespace Sdd.Drain

/-- The operations on one storage. -/
inductive Op (T : Type) where
  | push (val : T)
  | pop
  | popAll

/-- Their answers. -/
inductive Res (T : Type) where
  /-- `push` returns the value if it has not been pushed. -/
  | pushed (val : Option T)
  | popped (val : Option T) (empty : Bool)
  | folded (vals : List T)

/-- A call in progress, before its next access to the metadata or to a slot. -/
inductive Call (bits : Nat) (T : Type) where
  /-- `push`, outside of `fetch_update`. -/
  | push (val : T) (call : PushCall bits T)
  /-- `push`, before the compare-and-exchange of `fetch_update` that expects `m`. -/
  | publish (val : T) (index : Nat) (m : BitVec bits)
  /-- `pop`, outside of `fetch_update`. -/
  | pop (call : PopCall bits T)
  /-- `pop`, before the compare-and-exchange of `fetch_update` that expects `m`. -/
  | clear (inst : T) (index : Nat) (m : BitVec bits) (empty : Bool)
  | popAll (call : AllCall bits T)

namespace Call

variable {bits : Nat} {T : Type} (len : Nat)

/-- The place where an operation begins. -/
def start : Op T → Call bits T
  | .push val => .push val (.load val)
  | .pop => .pop .load
  | .popAll => .popAll (.load [])

/-- The closure of `push` on `m`. -/
def publishing (val : T) (index : Nat) (m : BitVec bits) : Outcome (Call bits T) (Res T) :=
  if Storage.instanceBitmap len m &&& ~~~Storage.ownedBitmap len m = 0 then
    .running (.push val (.readBack index))
  else
    .running (.publish val index m)

/-- The metadata without the slot that `pop` has taken. -/
def cleared (m : BitVec bits) (index : Nat) : BitVec bits :=
  m &&& ~~~((BitVec.ofNat bits 1 <<< index) ||| (BitVec.ofNat bits 1 <<< (index + len)))

/-- The closure of `pop` on `m`. -/
def clearing (inst : T) (index : Nat) (m : BitVec bits) : Outcome (Call bits T) (Res T) :=
  .running (.clear inst index m (Storage.instanceBitmap len (cleared len m index) == 0))

/-- `push` goes on after an access outside of `fetch_update`. -/
def pushed (val : T) : Outcome (PushCall bits T) (Option T) → Outcome (Call bits T) (Res T)
  | .running call => .running (.push val call)
  | .done res => .done (.pushed res)

/-- `pop` goes on after an access outside of `fetch_update`. -/
def popped : Outcome (PopCall bits T) (Option T × Bool) → Outcome (Call bits T) (Res T)
  | .running call => .running (.pop call)
  | .done res => .done (.popped res.1 res.2)

/-- `pop_all` goes on, or returns what it has folded. -/
def folded : Outcome (AllCall bits T) (List T) → Outcome (Call bits T) (Res T)
  | .running call => .running (.popAll call)
  | .done vals => .done (.folded vals)

/-- The next access of a call. `fails` says that a weak compare-and-exchange fails although the
value is the expected one. -/
def step (fails : Bool) (s : Storage bits T) :
    Call bits T → Storage bits T × Outcome (Call bits T) (Res T)
  | .push val (.publish index) => (s, publishing len val index s.metadata)
  | .push val call =>
    let r := call.step len false fails s
    (r.1, pushed val r.2)
  | .publish val index m =>
    if s.metadata = m ∧ ¬fails then
      (s.setMetadata ((m &&& ~~~(BitVec.ofNat bits 1 <<< index)) |||
        (BitVec.ofNat bits 1 <<< (index + len))), .done (.pushed none))
    else
      (s, publishing len val index s.metadata)
  | .pop (.clear inst index) => (s, clearing len inst index s.metadata)
  | .pop call =>
    let r := call.step len fails s
    (r.1, popped r.2)
  | .clear inst index m empty =>
    if s.metadata = m ∧ ¬fails then
      (s.setMetadata (cleared len m index), .done (.popped (some inst) empty))
    else
      (s, clearing len inst index s.metadata)
  | .popAll call =>
    let r := call.step len fails s
    (r.1, folded r.2)

end Call

/-- The return from a call. -/
structure Answer (T : Type) where
  res : Res T
  /-- The last step of the call has brought the instance bitmap to zero. -/
  drained : Bool

/-- One storage, the calls in progress, and what has been done. -/
structure World (bits : Nat) (T : Type) (n : Nat) where
  storage : Storage bits T
  /-- The call that a thread is in. -/
  call : Fin n → Option (Call bits T)
  drains : Nat
  answers : List (Answer T)

/-- A thread acts. -/
inductive Action (T : Type) (n : Nat) where
  | invoke (t : Fin n) (op : Op T)
  /-- The next access of the call in progress. -/
  | proceed (t : Fin n) (fails : Bool)

namespace World

variable {bits n : Nat} {T : Type} (len : Nat)

/-- A storage with one instance, and no call. -/
def init (val : T) : World bits T n := ⟨.withVal len val, fun _ => none, 0, []⟩

/-- A step has brought the instance bitmap to zero. -/
def drained (s s' : Storage bits T) : Bool :=
  Storage.instanceBitmap len s.metadata != 0 && Storage.instanceBitmap len s'.metadata == 0

/-- The thread goes on after an access of its call. -/
def called (w : World bits T n) (t : Fin n) (r : Storage bits T × Outcome (Call bits T) (Res T)) :
    World bits T n where
  storage := r.1
  call := Function.update w.call t (match r.2 with | .running call => some call | .done _ => none)
  drains := if drained len w.storage r.1 then w.drains + 1 else w.drains
  answers := match r.2 with
    | .running _ => w.answers
    | .done res => ⟨res, drained len w.storage r.1⟩ :: w.answers

/-- One action; `none` when it is not possible. -/
def step (w : World bits T n) : Action T n → Option (World bits T n)
  | .invoke t op =>
    match w.call t with
    | none => some { w with call := Function.update w.call t (some (.start op)) }
    | some _ => none
  | .proceed t fails => (w.call t).map fun call => w.called len t (call.step len fails w.storage)

end World

end Sdd.Drain
