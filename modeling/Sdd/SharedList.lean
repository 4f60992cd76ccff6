import Sdd.LinkedList

/-!
# `Sdd.SharedList`: the methods of `LinkedList` on shared entries

The methods `push_back`, `mark`, `unmark`, `delete_self`, `next_ptr` and `next_shared`, called
by `n` threads on entries that they share. `Call` is a call in progress, and `Call.step` makes
its next atomic access. `mark`, `unmark` and `delete_self` are one loop, that of
`AtomicShared::update_tag_if`.

An entry is either created to be the head of a list, or it is created and passed to
`push_back`. From then on until `push_back` returns, the call alone has it; after that
anybody can call methods on it, also if `push_back` has returned it with an error. A weak
compare-and-exchange can fail although the value is the expected one.

An entry is released when the last owner lets go of it: an owner is a link of an entry that
was not dropped, or a call that holds a `Shared`; the handles of the callers are not part of
the state, so that an entry can also be released later. When a released entry is dropped,
its link lets go of the next entry. An entry is not dropped during a call on it, since the
caller has a reference. `next_ptr` can be at an entry that was dropped here; a guard only
rules this out, and the word of the entry is never reused.

`history` records the results of the calls. No call reads it.
-/

set_option autoImplicit false

namespace Sdd.SharedList

/-- The updates of the tag of an entry. -/
inductive TagOp where
  | mark
  | unmark
  | deleteSelf
  deriving DecidableEq, Repr

/-- The new tag. -/
def TagOp.tag : TagOp → Tag
  | mark => .first
  | unmark => .none
  | deleteSelf => .second

/-- The condition of the update. -/
def TagOp.allowed : TagOp → Tag → Bool
  | mark, tag => tag == .none
  | unmark, tag => tag == .first
  | deleteSelf, tag => tag == .none || tag == .first

inductive Op (T : Type) where
  | pushBack (val : T) (mark : Bool)
  | updateTag (op : TagOp)
  | nextPtr
  | nextShared

inductive Res where
  /-- `push_back` returns `Ok` with the entry. -/
  | pushed (e : Addr)
  /-- `push_back` returns `Err` with the entry. -/
  | rejected (e : Addr)
  | updated (op : TagOp) (b : Bool)
  | nextPtr (next : Ptr Addr)
  | nextShared (next : Option Addr)
  deriving DecidableEq, Repr

/-- A call of a method in progress, before its next atomic access. -/
inductive Call where
  /-- `push_back`, before the load of the link. -/
  | loadLink (e : Addr) (mark : Bool)
  /-- `push_back`, before `get_shared` of the next entry, which is then stored to the link of
  the new one. -/
  | swapLink (e : Addr) (mark : Bool) (next : Ptr Addr)
  /-- `push_back`, before the compare-and-exchange on the link. -/
  | attach (e : Addr) (mark : Bool) (next : Ptr Addr)
  /-- `update_tag_if`, before the load of the link. -/
  | loadTag (op : TagOp)
  /-- `update_tag_if`, before the compare-and-exchange on the link. -/
  | exchangeTag (op : TagOp) (prev : Ptr Addr)
  | nextPtr (call : NextPtr)
  | nextShared (call : NextShared)

namespace Call

/-- The entry that a call of `push_back` is to attach. -/
def entry : Call → Option Addr
  | loadLink e _ | swapLink e _ _ | attach e _ _ => some e
  | _ => none

/-- The entry that the call holds a `Shared` of. -/
def holds : Call → Option Addr
  | nextPtr call => call.holds
  | nextShared call => call.holds
  | call => call.entry

/-- The new tag of the entry that `push_back` is called on. -/
def newTag (mark : Bool) : Tag := if mark then .first else .none

/-- One turn of the loop of `push_back`, up to the next atomic access. -/
def pushLoop (e : Addr) (mark : Bool) (next : Ptr Addr) : Outcome Call Res :=
  if next.tag = .second ∨ next.tag = .both then
    .done (.rejected e)
  else
    .running (.swapLink e mark next)

/-- One turn of the loop of `update_tag_if`, up to the next atomic access. -/
def tagLoop (op : TagOp) (prev : Ptr Addr) : Outcome Call Res :=
  if op.allowed prev.tag then .running (.exchangeTag op prev) else .done (.updated op false)

/-- The call goes on after one atomic access of `next_ptr`. -/
def ofNextPtr : Outcome NextPtr (Ptr Addr) → Outcome Call Res
  | .running call => .running (.nextPtr call)
  | .done next => .done (.nextPtr next)

/-- The call goes on after one atomic access of `next_shared`. -/
def ofNextShared : Outcome NextShared (Option Addr) → Outcome Call Res
  | .running call => .running (.nextShared call)
  | .done next => .done (.nextShared next)

variable {T : Type}

/-- The next atomic access of a call on the entry `x`. `fails` says that a weak
compare-and-exchange fails although the value is the expected one. -/
def step (h : Heap T) (x : Addr) (fails : Bool) : Call → Heap T × Outcome Call Res
  | .loadLink e mark => (h, pushLoop e mark (h.link x))
  | .swapLink e mark next =>
    (h.setLink e ⟨h.getShared next, .none⟩, .running (.attach e mark next))
  | .attach e mark next =>
    if h.link x = next ∧ ¬fails then
      (h.setLink x ⟨some e, newTag mark⟩, .done (.pushed e))
    else
      (h, pushLoop e mark (h.link x))
  | .loadTag op => (h, tagLoop op (h.link x))
  | .exchangeTag op prev =>
    if h.link x = prev ∧ ¬fails then
      (h.setLink x (prev.withTag op.tag), .done (.updated op true))
    else
      (h, tagLoop op (h.link x))
  | .nextPtr call => ((call.step h).1, ofNextPtr (call.step h).2)
  | .nextShared call => ((call.step h).1, ofNextShared (call.step h).2)

end Call

/-- A call on `entry` has returned. -/
structure Event (n : Nat) where
  tid : Fin n
  entry : Addr
  res : Res
  deriving DecidableEq

structure World (T : Type) (n : Nat) where
  heap : Heap T
  /-- The heads, and the entries that `push_back` has returned. -/
  shared : Addr → Bool
  /-- The destructor of the entry has run. -/
  dropped : Addr → Bool
  /-- The call that a thread is in, and the entry that it is called on. -/
  pc : Fin n → Option (Addr × Call)
  /-- The results of the calls, the latest last. -/
  history : List (Event n)

inductive Action (T : Type) (n : Nat) where
  /-- An entry is created to be the head of a list. -/
  | create (val : T)
  | invoke (t : Fin n) (x : Addr) (op : Op T)
  /-- The next atomic access of the call in progress. -/
  | proceed (t : Fin n) (fails : Bool)
  /-- The last owner of the entry `x` lets go of it. -/
  | release (x : Addr)
  /-- The destructor of the released entry `x` runs. -/
  | drop (x : Addr)

/-- The pushes that succeeded, in their order: the entry that `push_back` was called on, and
the entry that was attached. -/
def pushes {n : Nat} (history : List (Event n)) : List (Addr × Addr) :=
  history.filterMap fun ev =>
    match ev.res with
    | .pushed e => some (ev.entry, e)
    | _ => none

namespace World

variable {T : Type} {n : Nat}

def init : World T n := ⟨.empty, fun _ => false, fun _ => false, fun _ => none, []⟩

def goto (w : World T n) (t : Fin n) (pc : Option (Addr × Call)) : World T n :=
  { w with pc := Function.update w.pc t pc }

/-- The caller of `push_back` gets the entry. -/
def share (shared : Addr → Bool) : Res → Addr → Bool
  | .pushed e | .rejected e => Function.update shared e true
  | _ => shared

/-- A call of a method on `x` begins. -/
def invoke (w : World T n) (t : Fin n) (x : Addr) : Op T → World T n
  | .pushBack val mark =>
    { w with heap := w.heap.alloc val }.goto t (some (x, .loadLink w.heap.nextAddr mark))
  | .updateTag op => w.goto t (some (x, .loadTag op))
  | .nextPtr => w.goto t (some (x, .nextPtr (.start x)))
  | .nextShared => w.goto t (some (x, .nextShared (.start x)))

/-- The thread goes on after one atomic access of its call on `x`. -/
def called (w : World T n) (t : Fin n) (x : Addr) : Heap T × Outcome Call Res → World T n
  | (h, .running call) => { w with heap := h }.goto t (some (x, call))
  | (h, .done res) =>
    { w with
        heap := h
        shared := share w.shared res
        history := w.history ++ [Event.mk t x res] }.goto t none

/-- The last owner of `x` can let go of it: nothing refers to it. -/
def unowned (w : World T n) (x : Addr) : Bool :=
  decide (x < w.heap.nextAddr) &&
    ((List.range w.heap.nextAddr).all fun y => w.dropped y || (w.heap.link y).addr != some x) &&
    (List.finRange n).all fun t => (w.pc t).all fun c => c.2.holds != some x

/-- No call on `x` is in progress. -/
def unused (w : World T n) (x : Addr) : Bool :=
  (List.finRange n).all fun t => (w.pc t).all fun c => c.1 != x

/-- One action; `none` when it is not possible. -/
def step (w : World T n) : Action T n → Option (World T n)
  | .create val =>
    some { w with
      heap := w.heap.alloc val
      shared := Function.update w.shared w.heap.nextAddr true }
  | .invoke t x op =>
    if w.pc t = none ∧ w.shared x = true ∧ w.dropped x = false then some (w.invoke t x op) else none
  | .proceed t fails => (w.pc t).map fun c => w.called t c.1 (c.2.step w.heap c.1 fails)
  | .release x => if w.unowned x then some { w with heap := w.heap.release x } else none
  | .drop x =>
    if w.heap.released x = true ∧ w.unused x = true then
      some { w with dropped := Function.update w.dropped x true }
    else
      none

end World

end Sdd.SharedList
