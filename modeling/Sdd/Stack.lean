import Sdd.LinkedList
import Sdd.Lib.Linearize

/-!
# `Sdd.Stack`: the stack

The model of `stack.rs`. `Call` is a call of a method of a stack in progress, and
`Call.step` makes its next atomic access: to `newest`, to the link of an entry, or to the
reference count of an entry. A container that is built on stacks uses the calls as they
are. `World` is a stack by itself, with `n` threads that call its methods.

Every store to `newest` uses `Tag::None`, so that it is a plain pointer here. `peek` and
`peek_with` read the stack in the same way and are one operation; `push` is `push_if` with a
condition that always holds, and `pop` is `pop_if` with such a condition. Conditions are
functions of the instance. A guard is held for the whole of each operation, so that no entry
that a call has seen is freed before the call returns; entries are not freed here at all.

`attached`, `cond` and `history` record what has happened: the entries in the order in which
they were attached, the last one first, the condition that each one was pushed with, and the
invocations and results of the operations. No operation reads them.
-/

set_option autoImplicit false

namespace Sdd.Stack

open Sdd.Lib.Linearize (Event)

inductive Op (T : Type) where
  | pushIf (val : T) (cond : Option T → Bool)
  | popIf (cond : T → Bool)
  | peek
  | isEmpty

/-- `Stack::push`. -/
def Op.push {T : Type} (val : T) : Op T := .pushIf val fun _ => true

/-- `Stack::pop`. -/
def Op.pop {T : Type} : Op T := .popIf fun _ => true

inductive Res where
  /-- `push_if` returns `Ok` with the entry. -/
  | pushed (e : Addr)
  /-- `push_if` returns `Err`. -/
  | rejected
  /-- `pop_if` returns `Ok`. -/
  | popped (e : Option Addr)
  /-- `pop_if` returns `Err` with the entry. -/
  | refused (e : Addr)
  | peeked (e : Option Addr)
  | empty (b : Bool)
  deriving DecidableEq, Repr

/-- The arguments of `push_if_internal`, and the entry when it has been created. -/
structure Push (T : Type) where
  val : T
  cond : Option T → Bool
  entry : Option Addr

/-- What the result of `cleanup_newest` is used for. -/
inductive Clean (T : Type) where
  | push (p : Push T)
  | popIf (cond : T → Bool)
  /-- `pop_if` has deleted the entry. -/
  | popped (cond : T → Bool) (e : Addr)
  | peek
  | isEmpty

/-- A call of a method in progress, before its next atomic access. -/
inductive Call (T : Type) where
  /-- Before the load of `newest`. -/
  | loadNewest (k : Clean T)
  /-- `cleanup_newest`, before `is_deleted`. -/
  | cleanDeleted (k : Clean T) (x : Addr)
  /-- `cleanup_newest`, in `next_shared` of the entry. -/
  | cleanNext (k : Clean T) (x : Addr) (call : NextShared)
  /-- `cleanup_newest`, before the compare-and-exchange on `newest`. -/
  | cleanExchange (k : Clean T) (x : Addr) (next : Option Addr)
  /-- `push_if_internal`, before `get_shared` of the newest entry, which is then stored to the
  link of the new one. -/
  | swapLink (p : Push T) (e : Addr) (newest : Option Addr)
  /-- `push_if_internal`, before the compare-and-exchange on `newest`. -/
  | attach (p : Push T) (e : Addr) (newest : Option Addr)
  /-- `pop_if`, before `get_shared`. -/
  | popGetShared (cond : T → Bool) (x : Addr)
  /-- `pop_if`, before `is_deleted`. -/
  | popDeleted (cond : T → Bool) (x : Addr)
  /-- `pop_if`, before `delete_self`. -/
  | popDelete (cond : T → Bool) (x : Addr)

/-- The words of a stack. -/
structure Mem (T : Type) where
  newest : Option Addr
  heap : Heap T
  attached : List Addr
  cond : Addr → Option T → Bool

section
variable {T : Type}

/-- The operation that a thread cleans up for. -/
def Clean.op : Clean T → Op T
  | push p => .pushIf p.val p.cond
  | popIf cond | popped cond _ => .popIf cond
  | peek => .peek
  | isEmpty => .isEmpty

/-- The entry that a thread which cleans up holds a `Shared` of, apart from the list calls. -/
def Clean.holds : Clean T → Option Addr
  | push p => p.entry
  | popped _ e => some e
  | _ => none

namespace Call

/-- The operation of a call. -/
def op : Call T → Op T
  | loadNewest k | cleanDeleted k _ | cleanNext k _ _ | cleanExchange k _ _ => k.op
  | swapLink p _ _ | attach p _ _ => .pushIf p.val p.cond
  | popGetShared cond _ | popDeleted cond _ | popDelete cond _ => .popIf cond

/-- The call holds a `Shared` of `x`. -/
def holds (x : Addr) : Call T → Bool
  | loadNewest k | cleanDeleted k _ => k.holds == some x
  | cleanNext k _ call => k.holds == some x || call.holds == some x
  | cleanExchange k _ next => k.holds == some x || next == some x
  | swapLink _ e _ | attach _ e _ => e == x
  | popGetShared _ _ => false
  | popDeleted _ e | popDelete _ e => e == x

/-- A call of a method begins. -/
def start : Op T → Call T
  | .pushIf val cond => .loadNewest (.push ⟨val, cond, none⟩)
  | .popIf cond => .loadNewest (.popIf cond)
  | .peek => .loadNewest .peek
  | .isEmpty => .loadNewest .isEmpty

end Call

namespace Mem

/-- The condition of `push_if` is evaluated on the newest entry that was found. The entry is
created when it holds for the first time. -/
def evaluate (m : Mem T) (p : Push T) (newest : Option Addr) : Mem T × Outcome (Call T) Res :=
  if p.cond (newest.bind m.heap.value) then
    match p.entry with
    | some e => (m, .running (.swapLink p e newest))
    | none =>
      ({ m with heap := m.heap.alloc p.val },
        .running (.swapLink { p with entry := some m.heap.nextAddr } m.heap.nextAddr newest))
  else
    (m, .done .rejected)

/-- `cleanup_newest` returns. -/
def cleaned (m : Mem T) (k : Clean T) (newest : Option Addr) : Mem T × Outcome (Call T) Res :=
  match k with
  | .push p => m.evaluate p newest
  | .popIf cond =>
    match newest with
    | none => (m, .done (.popped none))
    | some x => (m, .running (.popGetShared cond x))
  | .popped _ e => (m, .done (.popped (some e)))
  | .peek => (m, .done (.peeked newest))
  | .isEmpty => (m, .done (.empty newest.isNone))

/-- One turn of the loop of `cleanup_newest`. -/
def cleanup (m : Mem T) (k : Clean T) : Option Addr → Mem T × Outcome (Call T) Res
  | none => m.cleaned k none
  | some x => (m, .running (.cleanDeleted k x))

/-- `cleanup_newest` goes on after one atomic access of `next_shared`. -/
def cleanNext (m : Mem T) (k : Clean T) (x : Addr) :
    Outcome NextShared (Option Addr) → Mem T × Outcome (Call T) Res
  | .running call => (m, .running (.cleanNext k x call))
  | .done next => (m, .running (.cleanExchange k x next))

/-- The next atomic access of a call. -/
def step (m : Mem T) : Call T → Mem T × Outcome (Call T) Res
  | .loadNewest k => m.cleanup k m.newest
  | .cleanDeleted k x =>
    if m.heap.isDeleted x then
      (m, .running (.cleanNext k x (.start x)))
    else
      m.cleaned k (some x)
  | .cleanNext k x call =>
    { m with heap := (call.step m.heap).1 }.cleanNext k x (call.step m.heap).2
  | .cleanExchange k x next =>
    if m.newest = some x then
      { m with newest := next }.cleanup k next
    else
      m.cleanup k m.newest
  | .swapLink p e newest =>
    ({ m with heap := m.heap.setLink e ⟨m.heap.getShared ⟨newest, .none⟩, .none⟩ },
      .running (.attach p e newest))
  | .attach p e newest =>
    if m.newest = newest then
      ({ m with
          newest := some e
          attached := e :: m.attached
          cond := Function.update m.cond e p.cond },
        .done (.pushed e))
    else
      m.cleanup (.push p) m.newest
  | .popGetShared cond x =>
    if m.heap.released x then
      (m, .running (.cleanDeleted (.popIf cond) x))
    else
      (m, .running (.popDeleted cond x))
  | .popDeleted cond x =>
    if !m.heap.isDeleted x && !((m.heap.value x).any cond) then
      (m, .done (.refused x))
    else
      (m, .running (.popDelete cond x))
  | .popDelete cond x =>
    match m.heap.deleteSelf x with
    | (h, true) => ({ m with heap := h }, .running (.cleanDeleted (.popped cond x) x))
    | (_, false) => (m, .running (.cleanDeleted (.popIf cond) x))

/-- The undeleted entries, the newest first. -/
def contents (m : Mem T) : List Addr :=
  m.attached.filter fun x => !m.heap.isDeleted x

end Mem

end

/-- The place where a thread stands. -/
inductive Pc (T : Type) where
  | idle
  | call (call : Call T)
  /-- The destructor of an entry, in `next_ptr_recursive` of the next one. -/
  | drop (call : NextPtr)

/-- The thread holds a `Shared` of `x`. -/
def Pc.holds {T : Type} (x : Addr) : Pc T → Bool
  | idle => false
  | call c => c.holds x
  | drop c => c.holds == some x

structure World (T : Type) (n : Nat) where
  mem : Mem T
  pc : Fin n → Pc T
  history : List (Event (Fin n) (Op T) Res)

/-- What a thread does next. -/
inductive Act (T : Type) where
  | invoke (op : Op T)
  /-- The next atomic access of the call in progress. -/
  | proceed
  /-- The destructor of the released entry `x` runs. -/
  | drop (x : Addr)

inductive Action (T : Type) (n : Nat) where
  | thread (t : Fin n) (act : Act T)
  /-- The last owner of the entry `x` lets go of it. -/
  | release (x : Addr)

namespace World

variable {T : Type} {n : Nat}

def init : World T n :=
  ⟨⟨none, .empty, [], fun _ _ => true⟩, fun _ => .idle, []⟩

def goto (w : World T n) (t : Fin n) (pc : Pc T) : World T n :=
  { w with pc := Function.update w.pc t pc }

/-- The thread goes on after one atomic access of its call of `op`. -/
def called (w : World T n) (t : Fin n) (op : Op T) : Mem T × Outcome (Call T) Res → World T n
  | (m, .running call) => { w with mem := m }.goto t (.call call)
  | (m, .done res) =>
    { w with mem := m, history := w.history ++ [Event.result t op res] }.goto t .idle

/-- The next atomic access of the call that a thread is in. -/
def proceed (w : World T n) (t : Fin n) : Option (World T n) :=
  match w.pc t with
  | .idle => none
  | .call call => some (w.called t call.op (w.mem.step call))
  | .drop call =>
    let w' := { w with mem := { w.mem with heap := (call.step w.mem.heap).1 } }
    match (call.step w.mem.heap).2 with
    | .running call' => some (w'.goto t (.drop call'))
    | .done _ => some (w'.goto t .idle)

/-- The last owner of `x` can let go of it: nothing refers to it. -/
def unowned (w : World T n) (x : Addr) : Bool :=
  decide (x < w.mem.heap.nextAddr) && w.mem.newest != some x && w.mem.heap.unlinked x &&
    (List.finRange n).all fun t => !(w.pc t).holds x

/-- One action; `none` when it is not possible. -/
def step (w : World T n) : Action T n → Option (World T n)
  | .thread t (.invoke op) =>
    match w.pc t with
    | .idle =>
      some ({ w with history := w.history ++ [Event.invoke t op] }.goto t (.call (.start op)))
    | _ => none
  | .thread t .proceed => w.proceed t
  | .thread t (.drop x) =>
    match w.pc t, w.mem.heap.released x, (w.mem.heap.link x).addr with
    | .idle, true, some y => some (w.goto t (.drop (.start y)))
    | _, _, _ => none
  | .release x =>
    if w.unowned x then
      some { w with mem := { w.mem with heap := w.mem.heap.release x } }
    else
      none

end World

end Sdd.Stack
