import Sdd.LinkedList
import Sdd.Lib.Linearize

/-!
# `Sdd.Queue`: the queue

The model of `queue.rs`, for `n` threads and instances of any type `T`. `World.step` is one
atomic access of one thread, to `oldest`, to `newest` or to the link of an entry, or the
release of an entry by its last owner. Every store to `oldest` and `newest` uses
`Tag::None`, so that these two words are plain pointers here.

`peek` and `peek_with` read the queue in the same way and are one operation; `push` is
`push_if` with a condition that always holds, and `pop` is `pop_if` with such a condition.
Conditions are functions of the instance. A guard is held for the whole of each operation,
so that no entry that a call has seen is freed before the call returns; entries are not
freed here at all. `Act.drop` is the destructor of a released entry, which cleans up what
the entry is linked to.

`attached` and `history` record what has happened: the entries in the order in which they
were attached, and the invocations and results of the operations. No operation reads them.
-/

set_option autoImplicit false

namespace Sdd.Queue

open Sdd.Lib.Linearize (Event)

inductive Op (T : Type) where
  | pushIf (val : T) (cond : Option T → Bool)
  | popIf (cond : T → Bool)
  | peek
  | isEmpty
  /-- `iter()` and the first `next()` on it. -/
  | iter

/-- `Queue::push`. -/
def Op.push {T : Type} (val : T) : Op T := .pushIf val fun _ => true

/-- `Queue::pop`. -/
def Op.pop {T : Type} : Op T := .popIf fun _ => true

inductive Res where
  /-- `push_if` returns `Ok` with the entry. -/
  | pushed (e : Addr)
  /-- `push_if` returns `Err`. -/
  | rejected
  /-- `pop_if` returns `Ok`. -/
  | popped (e : Option Addr)
  /-- `pop_if` returns `Err` with the entry. -/
  | refused (e : Addr)
  | peeked (e : Option Addr)
  | empty (b : Bool)
  | first (e : Option Addr)
  deriving DecidableEq, Repr

/-- The arguments of `push_if_internal`, and the entry when it has been created. -/
structure Push (T : Type) where
  val : T
  cond : Option T → Bool
  entry : Option Addr

/-- What the result of `cleanup_oldest` is used for. -/
inductive Clean (T : Type) where
  /-- `pop_if` has deleted the entry. -/
  | popped (cond : T → Bool) (e : Addr)
  /-- `pop_if` goes on with the new oldest entry. -/
  | retry (cond : T → Bool)
  | peek
  /-- `push_if_internal` after a compare-and-exchange on a tagged link. -/
  | push (p : Push T)
  | iter

/-- The place where a thread stands, before its next atomic access. -/
inductive Pc (T : Type) where
  | idle
  /-- `push_if_internal`, before the load of `newest`. -/
  | loadNewest (p : Push T)
  /-- `push_if_internal`, before a load of `oldest`. -/
  | loadOldest (p : Push T)
  /-- `traverse`, in `next_ptr` of `current`. -/
  | traverse (p : Push T) (current : Addr) (call : NextPtr)
  /-- Before the compare-and-exchange that attaches the entry. -/
  | attach (p : Push T) (e : Addr) (newest : Option Addr)
  /-- Before the swap of `newest` by the pusher. -/
  | swapNewest (p : Push T) (e : Addr)
  /-- Before `oldest.is_null()`. -/
  | checkOldest (p : Push T) (e : Addr)
  /-- Before the pusher resets `newest`. -/
  | resetNewest (p : Push T) (e : Addr)
  /-- `cleanup_oldest`, before the load of `oldest`. -/
  | cleanLoad (k : Clean T)
  /-- `cleanup_oldest`, before `is_deleted`. -/
  | cleanDeleted (k : Clean T) (oldest : Addr)
  /-- `cleanup_oldest`, in `next_shared` of the oldest entry. -/
  | cleanNext (k : Clean T) (oldest : Addr) (call : NextShared)
  /-- `cleanup_oldest`, before the compare-and-exchange on `oldest`. -/
  | cleanExchange (k : Clean T) (oldest : Addr) (next : Option Addr)
  /-- `cleanup_oldest`, before the reset of `newest`. -/
  | cleanReset (k : Clean T)
  /-- `pop_if`, before the load of `oldest`. -/
  | popLoad (cond : T → Bool)
  /-- `pop_if`, before `get_shared`. -/
  | popGetShared (cond : T → Bool) (oldest : Addr)
  /-- `pop_if`, before `is_deleted`. -/
  | popDeleted (cond : T → Bool) (oldest : Addr)
  /-- `pop_if`, before `delete_self`. -/
  | popDelete (cond : T → Bool) (oldest : Addr)
  /-- `peek`, before the load of `oldest`. -/
  | peekLoad
  /-- `peek`, before `is_deleted`. -/
  | peekDeleted (oldest : Addr)
  /-- `is_empty`, before the load of `newest`. -/
  | isEmpty
  /-- The destructor of an entry, in `next_ptr_recursive` of the next one. -/
  | drop (call : NextPtr)

section
variable {T : Type}

/-- The operation that a thread cleans up for. -/
def Clean.op : Clean T → Op T
  | popped cond _ | retry cond => .popIf cond
  | peek => .peek
  | push p => .pushIf p.val p.cond
  | iter => .iter

/-- The operation of a thread. -/
def Pc.op : Pc T → Option (Op T)
  | idle | drop _ => none
  | loadNewest p | loadOldest p | traverse p _ _ | attach p _ _ | swapNewest p _ | checkOldest p _
  | resetNewest p _ => some (.pushIf p.val p.cond)
  | cleanLoad k | cleanDeleted k _ | cleanNext k _ _ | cleanExchange k _ _ | cleanReset k =>
    some k.op
  | popLoad cond | popGetShared cond _ | popDeleted cond _ | popDelete cond _ => some (.popIf cond)
  | peekLoad | peekDeleted _ => some .peek
  | isEmpty => some .isEmpty

/-- The entry that a thread which cleans up holds a `Shared` of, apart from the list calls. -/
def Clean.holds : Clean T → Option Addr
  | popped _ e => some e
  | push p => p.entry
  | _ => none

/-- The thread holds a `Shared` of `x`. -/
def Pc.holds (x : Addr) : Pc T → Bool
  | loadNewest p | loadOldest p => p.entry == some x
  | traverse p _ call => p.entry == some x || call.holds == some x
  | attach _ e _ | swapNewest _ e | checkOldest _ e | resetNewest _ e => e == x
  | cleanLoad k | cleanDeleted k _ | cleanReset k => k.holds == some x
  | cleanNext k _ call => k.holds == some x || call.holds == some x
  | cleanExchange k _ next => k.holds == some x || next == some x
  | popDeleted _ e | popDelete _ e => e == x
  | drop call => call.holds == some x
  | idle | popLoad _ | popGetShared _ _ | peekLoad | peekDeleted _ | isEmpty => false

end

structure World (T : Type) (n : Nat) where
  oldest : Option Addr
  newest : Option Addr
  heap : Heap T
  pc : Fin n → Pc T
  attached : List Addr
  history : List (Event (Fin n) (Op T) Res)

/-- What a thread does next. -/
inductive Act (T : Type) where
  | invoke (op : Op T)
  /-- The next atomic access of the call in progress. -/
  | proceed
  /-- The destructor of the released entry `x` runs. -/
  | drop (x : Addr)

inductive Action (T : Type) (n : Nat) where
  | thread (t : Fin n) (act : Act T)
  /-- The last owner of the entry `x` lets go of it. -/
  | release (x : Addr)

namespace World

variable {T : Type} {n : Nat}

def init : World T n := ⟨none, none, .empty, fun _ => .idle, [], []⟩

def goto (w : World T n) (t : Fin n) (pc : Pc T) : World T n :=
  { w with pc := Function.update w.pc t pc }

/-- The call of the thread returns. -/
def finish (w : World T n) (t : Fin n) (op : Op T) (res : Res) : World T n :=
  { w with history := w.history ++ [Event.result t op res] }.goto t .idle

/-- The undeleted entries, the oldest first. -/
def contents (w : World T n) : List Addr :=
  w.attached.filter fun x => !w.heap.isDeleted x

/-- The condition of `push_if` is evaluated on the last entry that was found. The entry is
created when it holds for the first time. -/
def evaluate (w : World T n) (t : Fin n) (p : Push T) (newest : Option Addr) : World T n :=
  if p.cond (newest.bind w.heap.value) then
    match p.entry with
    | some e => w.goto t (.attach p e newest)
    | none =>
      { w with heap := w.heap.alloc p.val }.goto t
        (.attach { p with entry := some w.heap.nextAddr } w.heap.nextAddr newest)
  else
    w.finish t (.pushIf p.val p.cond) .rejected

/-- `traverse` begins. -/
def traverse (w : World T n) (t : Fin n) (p : Push T) : Option Addr → World T n
  | none => w.evaluate t p none
  | some x => w.goto t (.traverse p x (.start x))

/-- `traverse` goes on after one atomic access. -/
def traversed (w : World T n) (t : Fin n) (p : Push T) (current : Addr) :
    Outcome NextPtr (Ptr Addr) → World T n
  | .running call => w.goto t (.traverse p current call)
  | .done next =>
    match next.addr with
    | none => w.evaluate t p (some current)
    | some x => w.goto t (.traverse p x (.start x))

/-- The compare-and-exchange that attaches the entry `e` to the newest one, or to `oldest`. -/
def attach (w : World T n) (t : Fin n) (p : Push T) (e : Addr) : Option Addr → World T n
  | some l =>
    if w.heap.link l = .null then
      { w with
        heap := w.heap.setLink l ⟨some e, .none⟩
        attached := w.attached ++ [e] }.goto t (.swapNewest p e)
    else if (w.heap.link l).tag = .first then
      w.goto t (.cleanLoad (.push p))
    else if (w.heap.link l).isNull then
      w.goto t (.loadOldest p)
    else
      w.traverse t p (w.heap.link l).addr
  | none =>
    if w.oldest = none then
      { w with
        oldest := some e
        attached := w.attached ++ [e] }.goto t (.swapNewest p e)
    else
      w.traverse t p w.oldest

/-- `pop_if` goes on with the entry `current`. -/
def popIf (w : World T n) (t : Fin n) (cond : T → Bool) : Option Addr → World T n
  | none => w.finish t (.popIf cond) (.popped none)
  | some x => w.goto t (.popGetShared cond x)

/-- `peek` goes on with the entry `current`. -/
def peek (w : World T n) (t : Fin n) : Option Addr → World T n
  | none => w.finish t .peek (.peeked none)
  | some x => w.goto t (.peekDeleted x)

/-- `cleanup_oldest` returns. -/
def cleaned (w : World T n) (t : Fin n) (k : Clean T) (oldest : Option Addr) : World T n :=
  match k with
  | .popped cond e => w.finish t (.popIf cond) (.popped (some e))
  | .retry cond => w.popIf t cond oldest
  | .peek => w.peek t oldest
  | .push p => w.traverse t p oldest
  | .iter => w.finish t .iter (.first oldest)

/-- `cleanup_oldest` goes on after one atomic access of `next_shared`. -/
def cleanNext (w : World T n) (t : Fin n) (k : Clean T) (oldest : Addr) :
    Outcome NextShared (Option Addr) → World T n
  | .running call => w.goto t (.cleanNext k oldest call)
  | .done next => w.goto t (.cleanExchange k oldest next)

/-- The compare-and-exchange on `oldest`. -/
def cleanExchange (w : World T n) (t : Fin n) (k : Clean T) (oldest : Addr)
    (next : Option Addr) : World T n :=
  if w.oldest = some oldest then
    match next with
    | none => { w with oldest := none }.goto t (.cleanReset k)
    | some x => { w with oldest := some x }.cleaned t k (some x)
  else
    w.cleaned t k w.oldest

/-- `pop_if` with a `Shared` of the oldest entry, before it is deleted. -/
def popDeleted (w : World T n) (t : Fin n) (cond : T → Bool) (x : Addr) : World T n :=
  if !w.heap.isDeleted x && !((w.heap.value x).any cond) then
    w.finish t (.popIf cond) (.refused x)
  else
    w.goto t (.popDelete cond x)

/-- `pop_if` deletes the entry, unless another thread has done so. -/
def popDelete (w : World T n) (t : Fin n) (cond : T → Bool) (x : Addr) : World T n :=
  match w.heap.deleteSelf x with
  | (h, true) => { w with heap := h }.goto t (.cleanLoad (.popped cond x))
  | (_, false) => w.goto t (.cleanLoad (.retry cond))

/-- The next atomic access of the call that a thread is in. -/
def proceed (w : World T n) (t : Fin n) : Option (World T n) :=
  match w.pc t with
  | .idle => none
  | .loadNewest p =>
    match w.newest with
    | none => some (w.goto t (.loadOldest p))
    | some x => some (w.traverse t p (some x))
  | .loadOldest p => some (w.traverse t p w.oldest)
  | .traverse p current call =>
    some ({ w with heap := (call.step w.heap).1 }.traversed t p current (call.step w.heap).2)
  | .attach p e newest => some (w.attach t p e newest)
  | .swapNewest p e => some ({ w with newest := some e }.goto t (.checkOldest p e))
  | .checkOldest p e =>
    if w.oldest = none then
      some (w.goto t (.resetNewest p e))
    else
      some (w.finish t (.pushIf p.val p.cond) (.pushed e))
  | .resetNewest p e =>
    some ({ w with newest := none }.finish t (.pushIf p.val p.cond) (.pushed e))
  | .cleanLoad k =>
    match w.oldest with
    | none => some (w.cleaned t k none)
    | some x => some (w.goto t (.cleanDeleted k x))
  | .cleanDeleted k x =>
    if w.heap.isDeleted x then
      some (w.goto t (.cleanNext k x (.start x)))
    else
      some (w.cleaned t k (some x))
  | .cleanNext k x call =>
    some ({ w with heap := (call.step w.heap).1 }.cleanNext t k x (call.step w.heap).2)
  | .cleanExchange k x next => some (w.cleanExchange t k x next)
  | .cleanReset k => some ({ w with newest := none }.cleaned t k none)
  | .popLoad cond => some (w.popIf t cond w.oldest)
  | .popGetShared cond x =>
    if w.heap.released x then
      some (w.goto t (.cleanLoad (.retry cond)))
    else
      some (w.goto t (.popDeleted cond x))
  | .popDeleted cond x => some (w.popDeleted t cond x)
  | .popDelete cond x => some (w.popDelete t cond x)
  | .peekLoad => some (w.peek t w.oldest)
  | .peekDeleted x =>
    if w.heap.isDeleted x then
      some (w.goto t (.cleanLoad .peek))
    else
      some (w.finish t .peek (.peeked (some x)))
  | .isEmpty => some (w.finish t .isEmpty (.empty w.newest.isNone))
  | .drop call =>
    match (call.step w.heap).2 with
    | .running call' => some ({ w with heap := (call.step w.heap).1 }.goto t (.drop call'))
    | .done _ => some ({ w with heap := (call.step w.heap).1 }.goto t .idle)

/-- Where an operation begins. -/
def entry : Op T → Pc T
  | .pushIf val cond => .loadNewest ⟨val, cond, none⟩
  | .popIf cond => .popLoad cond
  | .peek => .peekLoad
  | .isEmpty => .isEmpty
  | .iter => .cleanLoad .iter

/-- The last owner of `x` can let go of it: nothing refers to it. -/
def unowned (w : World T n) (x : Addr) : Bool :=
  decide (x < w.heap.nextAddr) && w.oldest != some x && w.newest != some x &&
    w.heap.unlinked x && (List.finRange n).all fun t => !(w.pc t).holds x

/-- One action; `none` when it is not possible. -/
def step (w : World T n) : Action T n → Option (World T n)
  | .thread t (.invoke op) =>
    match w.pc t with
    | .idle => some ({ w with history := w.history ++ [Event.invoke t op] }.goto t (entry op))
    | _ => none
  | .thread t .proceed => w.proceed t
  | .thread t (.drop x) =>
    match w.pc t, w.heap.released x, (w.heap.link x).addr with
    | .idle, true, some y => some (w.goto t (.drop (.start y)))
    | _, _, _ => none
  | .release x => if w.unowned x then some { w with heap := w.heap.release x } else none

end World

end Sdd.Queue
