import Sdd.Stacks
import Sdd.Storage

/-!
# `Sdd.Bag`: the bag

The model of `bag.rs`. `Call` is a call of a method of a bag in progress, and `Call.step` makes
its next atomic access: to the primary storage, to the stack, or to a storage in an entry of
the stack. `World` is a bag with `n` threads that call its methods. `LenCall` and `EmptyCall` are
calls of `len` and `is_empty`; `Gives` says what such a call returns when it runs alone.

The stack of the bag is the stack `none` of a family. The stack `some t` is the one that
`pop_all` moves all entries to when the thread `t` calls it. The value of an entry is a storage,
and a guard is held while a call uses one, so that the entry is not freed before. The values
that `pop_all` folds are listed, the first one first, as the accumulator.

`history` records the invocations and results of the operations. No operation reads it.
`Returns` says that an operation that a thread begins now returns when all other threads stand
still; entries can be released in the mean time.
-/

set_option autoImplicit false

namespace Sdd.Bag

open Sdd.Stacks (Family)
open Sdd.Lib.Linearize (Event)

inductive Op (T : Type) where
  | push (val : T)
  | tryPush (val : T)
  | pop
  | popAll

inductive Res (T : Type) where
  /-- `push` returns, or `try_push` returns `Ok`. -/
  | pushed
  /-- `try_push` returns `Err` with the value. -/
  | rejected (val : T)
  | popped (val : Option T)
  /-- `pop_all` returns after it has folded the values. -/
  | folded (vals : List T)

/-- A call of a method in progress, before its next atomic access. -/
inductive Call (bits : Nat) (T : Type) where
  /-- `push`, or `try_push` if `tries`, in `push` of the primary storage. -/
  | pushPrimary (tries : Bool) (val : T) (call : PushCall bits T)
  /-- `push`, in `peek_with`. -/
  | pushPeek (val : T) (call : Stack.Call (Storage bits T))
  /-- `push`, in `push` of the storage in the entry `x`. -/
  | pushStorage (val : T) (x : Addr) (call : PushCall bits T)
  /-- `push`, in `push_unchecked` of a new storage. -/
  | pushNew (val : T) (call : Stack.Call (Storage bits T))
  /-- `pop`, in `peek_with`. -/
  | popPeek (call : Stack.Call (Storage bits T))
  /-- `pop`, in `pop` of the storage in the entry `x`. -/
  | popStorage (x : Addr) (call : PopCall bits T)
  /-- `pop`, before `delete_self` of the entry `x`. -/
  | popDelete (x : Addr) (val : Option T)
  /-- `pop`, in `pop` of the primary storage. -/
  | popPrimary (call : PopCall bits T)
  /-- `pop_all`, before `pop_all` of the stack. -/
  | allSwap
  /-- `pop_all`, in `pop` of the stack with all the entries. -/
  | allPop (acc : List T) (call : Stack.Call (Storage bits T))
  /-- `pop_all`, in `pop_all` of the storage in the entry `x`, of which it has a `Shared`. -/
  | allStorage (x : Addr) (call : AllCall bits T)
  /-- `pop_all`, in `pop_all` of the primary storage. -/
  | allPrimary (call : AllCall bits T)

/-- The words of a bag that `n` threads use. -/
structure Mem (bits : Nat) (T : Type) (n : Nat) where
  primary : Storage bits T
  family : Family (Storage bits T) (Option (Fin n))

namespace Mem

variable {bits n : Nat} {T : Type}

/-- The storage in the entry `x`. -/
def storage (m : Mem bits T n) (x : Addr) : Storage bits T :=
  (m.family.heap.value x).getD .new

def setPrimary (m : Mem bits T n) (s : Storage bits T) : Mem bits T n :=
  { m with primary := s }

def setFamily (m : Mem bits T n) (f : Family (Storage bits T) (Option (Fin n))) : Mem bits T n :=
  { m with family := f }

def setHeap (m : Mem bits T n) (heap : Heap (Storage bits T)) : Mem bits T n :=
  m.setFamily { m.family with heap := heap }

def setStorage (m : Mem bits T n) (x : Addr) (s : Storage bits T) : Mem bits T n :=
  m.setHeap { m.family.heap with value := Function.update m.family.heap.value x (some s) }

end Mem

namespace Call

variable {bits : Nat} {T : Type} (len : Nat)

/-- The operation of a call. -/
def op : Call bits T → Op T
  | pushPrimary tries val _ => if tries then .tryPush val else .push val
  | pushPeek val _ | pushStorage val _ _ | pushNew val _ => .push val
  | popPeek _ | popStorage _ _ | popDelete _ _ | popPrimary _ => .pop
  | allSwap | allPop _ _ | allStorage _ _ | allPrimary _ => .popAll

/-- The call holds a `Shared` of `x`. -/
def holds (x : Addr) : Call bits T → Bool
  | pushPeek _ c | pushNew _ c | popPeek c | allPop _ c => c.holds x
  | allStorage y _ => y == x
  | _ => false

/-- A call of a method begins. -/
def start : Op T → Call bits T
  | .push val => .pushPrimary false val (.load val)
  | .tryPush val => .pushPrimary true val (.load val)
  | .pop => .popPeek (.start .peek)
  | .popAll => .allSwap

/-- `push` or `try_push` goes on after an access of `push` of the primary storage. -/
def pushedPrimary (tries : Bool) (val : T) :
    Outcome (PushCall bits T) (Option T) → Outcome (Call bits T) (Res T)
  | .running call => .running (.pushPrimary tries val call)
  | .done none => .done .pushed
  | .done (some val) =>
    if tries then .done (.rejected val) else .running (.pushPeek val (.start .peek))

/-- A new storage is pushed. -/
def startNew (val : T) : Outcome (Call bits T) (Res T) :=
  .running (.pushNew val (.start (.push (.withVal len val))))

/-- `push` goes on after an access of `peek_with`. -/
def pushPeeked (val : T) :
    Outcome (Stack.Call (Storage bits T)) Stack.Res → Outcome (Call bits T) (Res T)
  | .running call => .running (.pushPeek val call)
  | .done (.peeked (some x)) => .running (.pushStorage val x (.load val))
  | .done _ => startNew len val

/-- `push` goes on after an access of `push` of the storage in the entry `x`. -/
def pushedStorage (val : T) (x : Addr) :
    Outcome (PushCall bits T) (Option T) → Outcome (Call bits T) (Res T)
  | .running call => .running (.pushStorage val x call)
  | .done none => .done .pushed
  | .done (some val) => startNew len val

/-- `push` goes on after an access of `push_unchecked`. -/
def pushedNew (val : T) :
    Outcome (Stack.Call (Storage bits T)) Stack.Res → Outcome (Call bits T) (Res T)
  | .running call => .running (.pushNew val call)
  | .done _ => .done .pushed

/-- The closure that `pop` passes to `peek_with` returns. -/
def popped : Option T → Outcome (Call bits T) (Res T)
  | some val => .done (.popped (some val))
  | none => .running (.popPrimary .load)

/-- `pop` goes on after an access of `peek_with`. -/
def popPeeked :
    Outcome (Stack.Call (Storage bits T)) Stack.Res → Outcome (Call bits T) (Res T)
  | .running call => .running (.popPeek call)
  | .done (.peeked (some x)) => .running (.popStorage x .load)
  | .done _ => popped none

/-- `pop` goes on after an access of `pop` of the storage in the entry `x`. -/
def poppedStorage (x : Addr) :
    Outcome (PopCall bits T) (Option T × Bool) → Outcome (Call bits T) (Res T)
  | .running call => .running (.popStorage x call)
  | .done (val, empty) => if empty then .running (.popDelete x val) else popped val

/-- `pop` goes on after an access of `pop` of the primary storage. -/
def poppedPrimary :
    Outcome (PopCall bits T) (Option T × Bool) → Outcome (Call bits T) (Res T)
  | .running call => .running (.popPrimary call)
  | .done (val, _) => .done (.popped val)

/-- `pop_all` goes on after an access of `pop` of the stack with all the entries. -/
def allPopped (acc : List T) :
    Outcome (Stack.Call (Storage bits T)) Stack.Res → Outcome (Call bits T) (Res T)
  | .running call => .running (.allPop acc call)
  | .done (.popped (some x)) => .running (.allStorage x (.load acc))
  | .done _ => .running (.allPrimary (.load acc))

/-- `pop_all` goes on after an access of `pop_all` of the storage in the entry `x`. -/
def allTaken (x : Addr) : Outcome (AllCall bits T) (List T) → Outcome (Call bits T) (Res T)
  | .running call => .running (.allStorage x call)
  | .done acc => .running (.allPop acc (.start .pop))

/-- `pop_all` goes on after an access of `pop_all` of the primary storage. -/
def allTakenPrimary : Outcome (AllCall bits T) (List T) → Outcome (Call bits T) (Res T)
  | .running call => .running (.allPrimary call)
  | .done acc => .done (.folded acc)

variable {n : Nat}

/-- The next atomic access of a call of the thread `t`. `fails` says that a weak
compare-and-exchange on a storage fails although the value is the expected one. -/
def step (fails : Bool) (t : Fin n) (m : Mem bits T n) :
    Call bits T → Mem bits T n × Outcome (Call bits T) (Res T)
  | .pushPrimary tries val call =>
    let r := call.step len true fails m.primary
    (m.setPrimary r.1, pushedPrimary tries val r.2)
  | .pushPeek val call =>
    let r := (m.family.mem none).step call
    (m.setFamily (m.family.setMem none r.1), pushPeeked len val r.2)
  | .pushStorage val x call =>
    let r := call.step len false fails (m.storage x)
    (m.setStorage x r.1, pushedStorage len val x r.2)
  | .pushNew val call =>
    let r := (m.family.mem none).step call
    (m.setFamily (m.family.setMem none r.1), pushedNew val r.2)
  | .popPeek call =>
    let r := (m.family.mem none).step call
    (m.setFamily (m.family.setMem none r.1), popPeeked r.2)
  | .popStorage x call =>
    let r := call.step len fails (m.storage x)
    (m.setStorage x r.1, poppedStorage x r.2)
  | .popDelete x val => (m.setHeap (m.family.heap.deleteSelf x).1, popped val)
  | .popPrimary call =>
    let r := call.step len fails m.primary
    (m.setPrimary r.1, poppedPrimary r.2)
  | .allSwap =>
    (m.setFamily (m.family.popAll none (some t)), .running (.allPop [] (.start .pop)))
  | .allPop acc call =>
    let r := (m.family.mem (some t)).step call
    (m.setFamily (m.family.setMem (some t) r.1), allPopped acc r.2)
  | .allStorage x call =>
    let r := call.step len fails (m.storage x)
    (m.setStorage x r.1, allTaken x r.2)
  | .allPrimary call =>
    let r := call.step len fails m.primary
    (m.setPrimary r.1, allTakenPrimary r.2)

end Call

/-- A call of `len` in progress. The iterator over the stack is made first, and it goes on to the
next entry before it returns one. -/
inductive LenCall (bits : Nat) (T : Type) where
  /-- In `cleanup_newest` for the iterator. -/
  | iter (call : Stack.Call (Storage bits T))
  /-- Before `len` of the primary storage. -/
  | primary (current : Option Addr)
  /-- In `next_ptr` of the entry `x`, which the iterator returns next. -/
  | next (acc : Nat) (x : Addr) (call : NextPtr)
  /-- Before `len` of the storage in the entry `x`. -/
  | count (acc : Nat) (x : Addr) (current : Option Addr)

/-- A call of `is_empty` in progress. -/
inductive EmptyCall (bits : Nat) (T : Type) where
  /-- Before `len` of the primary storage. -/
  | primary
  /-- In `is_empty` of the stack. -/
  | stack (call : Stack.Call (Storage bits T))

section observers

variable {bits n : Nat} {T : Type} (len : Nat)

namespace LenCall

def start : LenCall bits T := .iter (.start .peek)

/-- The next turn of the loop over the entries. -/
def fold (acc : Nat) : Option Addr → Outcome (LenCall bits T) Nat
  | some x => .running (.next acc x (.start x))
  | none => .done acc

/-- The call goes on after an access of `cleanup_newest`. -/
def cleaned : Outcome (Stack.Call (Storage bits T)) Stack.Res → Outcome (LenCall bits T) Nat
  | .running call => .running (.iter call)
  | .done (.peeked current) => .running (.primary current)
  | .done _ => .running (.primary none)

/-- The call goes on after an access of `next_ptr`. -/
def advanced (acc : Nat) (x : Addr) :
    Outcome NextPtr (Ptr Addr) → Outcome (LenCall bits T) Nat
  | .running call => .running (.next acc x call)
  | .done current => .running (.count acc x current.addr)

/-- The next atomic access. -/
def step (m : Mem bits T n) : LenCall bits T → Mem bits T n × Outcome (LenCall bits T) Nat
  | .iter call =>
    let r := (m.family.mem none).step call
    (m.setFamily (m.family.setMem none r.1), cleaned r.2)
  | .primary current => (m, fold (m.primary.len len) current)
  | .next acc x call =>
    let r := call.step m.family.heap
    (m.setHeap r.1, advanced acc x r.2)
  | .count acc x current => (m, fold (acc + (m.storage x).len len) current)

/-- The call holds a `Shared` of `x`. -/
def holds (x : Addr) : LenCall bits T → Bool
  | .iter call => call.holds x
  | .next _ _ call => call.holds == some x
  | .primary _ | .count _ _ _ => false

end LenCall

namespace EmptyCall

def start : EmptyCall bits T := .primary

/-- The call goes on after an access of `is_empty` of the stack. -/
def looked : Outcome (Stack.Call (Storage bits T)) Stack.Res → Outcome (EmptyCall bits T) Bool
  | .running call => .running (.stack call)
  | .done (.empty empty) => .done empty
  | .done _ => .done false

/-- The next atomic access. -/
def step (m : Mem bits T n) : EmptyCall bits T → Mem bits T n × Outcome (EmptyCall bits T) Bool
  | .primary =>
    (m, if m.primary.len len = 0 then .running (.stack (.start .isEmpty)) else .done false)
  | .stack call =>
    let r := (m.family.mem none).step call
    (m.setFamily (m.family.setMem none r.1), looked r.2)

/-- The call holds a `Shared` of `x`. -/
def holds (x : Addr) : EmptyCall bits T → Bool
  | .primary => false
  | .stack call => call.holds x

end EmptyCall

namespace Mem

variable {C R : Type}

/-- An entry that nothing refers to is released while a call is in progress. -/
def LetsGo (holds : Addr → C → Bool) (s s' : Mem bits T n × Outcome C R) : Prop :=
  ∃ x, x < s.1.family.heap.nextAddr ∧ s.1.family.heap.unlinked x = true ∧
    (∀ i, s.1.family.newest i ≠ some x) ∧
    (∀ call, s.2 = .running call → holds x call = false) ∧
    s' = (s.1.setHeap (s.1.family.heap.release x), s.2)

/-- A call that begins now returns `res` if all other threads stand still. -/
def Gives (m : Mem bits T n) (step : Mem bits T n → C → Mem bits T n × Outcome C R)
    (holds : Addr → C → Bool) (call : C) (res : R) : Prop :=
  Lib.Ends (Outcome.advance step) (LetsGo holds) (fun s => ∃ m', s = (m', .done res))
    (m, .running call)

end Mem

end observers

/-- The place where a thread stands. -/
inductive Pc (bits : Nat) (T : Type) where
  | idle
  | call (call : Call bits T)
  /-- The destructor of an entry, in `next_ptr_recursive` of the next one. -/
  | drop (call : NextPtr)

/-- The thread holds a `Shared` of `x`. -/
def Pc.holds {bits : Nat} {T : Type} (x : Addr) : Pc bits T → Bool
  | idle => false
  | call c => c.holds x
  | drop c => c.holds == some x

structure World (bits : Nat) (T : Type) (n : Nat) where
  mem : Mem bits T n
  pc : Fin n → Pc bits T
  history : List (Event (Fin n) (Op T) (Res T))

/-- What a thread does next. -/
inductive Act (T : Type) where
  | invoke (op : Op T)
  /-- The next atomic access of the call in progress. -/
  | proceed (fails : Bool)
  /-- The destructor of the released entry `x` runs. -/
  | drop (x : Addr)

inductive Action (T : Type) (n : Nat) where
  | thread (t : Fin n) (act : Act T)
  /-- The last owner of the entry `x` lets go of it. -/
  | release (x : Addr)

namespace World

variable {bits n : Nat} {T : Type} (len : Nat)

/-- `Bag::new`. -/
def init : World bits T n := ⟨⟨.new, .empty⟩, fun _ => .idle, []⟩

def goto (w : World bits T n) (t : Fin n) (pc : Pc bits T) : World bits T n :=
  { w with pc := Function.update w.pc t pc }

/-- The thread goes on after one atomic access of its call of `op`. -/
def called (w : World bits T n) (t : Fin n) (op : Op T) :
    Mem bits T n × Outcome (Call bits T) (Res T) → World bits T n
  | (m, .running call) => { w with mem := m }.goto t (.call call)
  | (m, .done res) =>
    { w with mem := m, history := w.history ++ [Event.result t op res] }.goto t .idle

/-- The next atomic access of the call that a thread is in. -/
def proceed (w : World bits T n) (t : Fin n) (fails : Bool) : Option (World bits T n) :=
  match w.pc t with
  | .idle => none
  | .call call => some (w.called t call.op (call.step len fails t w.mem))
  | .drop call =>
    let r := call.step w.mem.family.heap
    let w' := { w with mem := w.mem.setHeap r.1 }
    match r.2 with
    | .running call' => some (w'.goto t (.drop call'))
    | .done _ => some (w'.goto t .idle)

/-- The last owner of `x` can let go of it: nothing refers to it. -/
def unowned (w : World bits T n) (x : Addr) : Bool :=
  decide (x < w.mem.family.heap.nextAddr) && w.mem.family.newest none != some x &&
    ((List.finRange n).all fun t => w.mem.family.newest (some t) != some x) &&
    w.mem.family.heap.unlinked x && (List.finRange n).all fun t => !(w.pc t).holds x

/-- One action; `none` when it is not possible. -/
def step (w : World bits T n) : Action T n → Option (World bits T n)
  | .thread t (.invoke op) =>
    match w.pc t with
    | .idle =>
      some ({ w with history := w.history ++ [Event.invoke t op] }.goto t (.call (.start op)))
    | _ => none
  | .thread t (.proceed fails) => w.proceed len t fails
  | .thread t (.drop x) =>
    match w.pc t, w.mem.family.heap.released x, (w.mem.family.heap.link x).addr with
    | .idle, true, some y => some (w.goto t (.drop (.start y)))
    | _, _, _ => none
  | .release x =>
    if w.unowned x then some { w with mem := w.mem.setHeap (w.mem.family.heap.release x) } else none

/-- The release of an entry. -/
def Releases (w w' : World bits T n) : Prop := ∃ x, w.step len (.release x) = some w'

/-- The operation returns if the thread begins it now, and the other threads stand still. -/
def Returns (w : World bits T n) (t : Fin n) (op : Op T) : Prop :=
  ∀ w', w.step len (.thread t (.invoke op)) = some w' →
    Lib.Ends (fun w => w.proceed len t false) (Releases len) (fun w => w.pc t = .idle) w'

end World

end Sdd.Bag
