import Sdd.Process
import Mathlib.Data.Option.Basic

/-!
# `Sdd.AtomicOwned`: instances with a single owner

The model of `atomic_owned.rs`, of `owned.rs` and of the methods of `Ptr` in `ptr.rs`, on top of
the collector with thread exit. `Cells` holds the words of the `AtomicOwned` handles, the `Owned`
handles, and the `Ptr`s and the calls of `update_tag_if` of each thread. `Cells.call` is a call of
a method up to its only access to a shared word. It is the same for all kinds of pointers.

In a `World` the pointers are addresses. `Owned::new` can return any address that is free, and an
address is free again when the collector has dropped the instance at it. A `Ptr` lives as long as
its thread has a guard. In an `Ideal` world an instance has a number instead of an address, and no
number is used again.

The condition of `update_tag_if` is user code: while it runs the thread can do anything, and call
`update_tag_if` once more. It is called with the word that was loaded last, also if the thread has
no guard.
-/

set_option autoImplicit false

namespace Sdd.AtomicOwned

open Sdd.Collector

/-- The address of a `RefCounted`. -/
abbrev Address := Nat

/-- The number of an instance, in the order of their creation. -/
abbrev Serial := Nat

/-- The name of an `AtomicOwned`. -/
abbrev CellId := Nat

/-- A call of `update_tag_if` in progress. -/
structure Update (A : Type) where
  cell : CellId
  tag : Tag
  /-- The word that was loaded last. -/
  prev : Ptr A
  /-- The condition has returned `true`, and the compare-and-exchange is next. -/
  met : Bool

/-- The handles, where a pointer is an element of `A`. -/
structure Cells (A : Type) where
  /-- The words of the `AtomicOwned` handles; `none` for one that was consumed. -/
  words : List (Option (Ptr A))
  /-- The `Owned` handles: the owner and the instance of each one. -/
  owned : List (Tid × A)
  /-- What the `Ptr`s of a thread point to; `Ptr::with_tag` gives them any tag. -/
  ptrs : Tid → List A
  /-- The calls of `update_tag_if` of a thread, the innermost first. -/
  updates : Tid → List (Update A)
  /-- What `compare_exchange` and `update_tag_if` have returned, the latest first. -/
  answers : List (Tid × Bool)

/-- What a thread does next. -/
inductive Act (A : Type) where
  /-- A step of the collector. -/
  | process (act : Process.Act)
  /-- `Owned::new`. -/
  | new (x : A)
  /-- `Owned::drop`. -/
  | drop (x : A)
  /-- `AtomicOwned::drop`. -/
  | dropAtomic (cell : CellId)
  /-- `AtomicOwned::null`. -/
  | null
  /-- `AtomicOwned::from`. -/
  | from (x : A)
  /-- `AtomicOwned::load`. -/
  | load (cell : CellId)
  /-- `Owned::get_guarded_ptr`. -/
  | getGuardedPtr (x : A)
  /-- `AtomicOwned::swap`. -/
  | swap (cell : CellId) (new : Option A) (tag : Tag)
  /-- `AtomicOwned::compare_exchange`, and the weak one, which can fail when `spurious` is set. -/
  | compareExchange (cell : CellId) (current : Ptr A) (new : Option A) (tag : Tag)
      (spurious : Bool)
  /-- `AtomicOwned::update_tag_if`, up to the call of the condition. -/
  | updateTagIf (cell : CellId) (tag : Tag)
  /-- The condition returns. -/
  | answer (ok : Bool)
  /-- The weak compare-and-exchange of `update_tag_if`. -/
  | updateTag (spurious : Bool)
  /-- `AtomicOwned::into_owned`. -/
  | intoOwned (cell : CellId)
  /-- An `Owned` handle is moved to another thread. -/
  | send (x : A) (receiver : Tid)

/-- A thread acts. -/
structure Action (A : Type) where
  tid : Tid
  act : Act A

namespace Cells

variable {A : Type}

/-- There is no handle. -/
def init : Cells A where
  words := []
  owned := []
  ptrs := fun _ => []
  updates := fun _ => []
  answers := []

/-- The word of a cell that was not consumed. -/
def word (c : Cells A) (cell : CellId) : Option (Ptr A) := (c.words[cell]?).join

/-- The word of a cell changes. -/
def setWord (c : Cells A) (cell : CellId) (p : Option (Ptr A)) : Cells A :=
  { c with words := c.words.set cell p }

/-- `Owned::from`: the thread owns the instance that the pointer points to. -/
def give (c : Cells A) (t : Tid) : Option A → Cells A
  | none => c
  | some x => { c with owned := (t, x) :: c.owned }

/-- The thread gets a `Ptr`. -/
def point (c : Cells A) (t : Tid) : Option A → Cells A
  | none => c
  | some x => { c with ptrs := Function.update c.ptrs t (x :: c.ptrs t) }

/-- The thread has other calls of `update_tag_if` in progress. -/
def setUpdates (c : Cells A) (t : Tid) (us : List (Update A)) : Cells A :=
  { c with updates := Function.update c.updates t us }

/-- The answer of an exchange is recorded. -/
def log (c : Cells A) (t : Tid) (ok : Bool) : Cells A := { c with answers := (t, ok) :: c.answers }

/-- The `Ptr`s of a thread are gone when it has no guard any more. -/
def expire (c : Cells A) (alive : Tid → Bool) : Cells A :=
  { c with ptrs := fun r => if alive r then c.ptrs r else [] }

/-- The thread is before the compare-and-exchange of `update_tag_if`. -/
def updating (c : Cells A) (t : Tid) : Bool := (c.updates t).head?.any (·.met)

section
variable [DecidableEq A]

/-- `forget`: the thread's handle is no longer dropped. -/
def forget (c : Cells A) (t : Tid) : Option A → Cells A
  | none => c
  | some x => { c with owned := c.owned.erase (t, x) }

/-- The thread has an `Owned` to the address. -/
def owns (c : Cells A) (t : Tid) (x : A) : Bool := (t, x) ∈ c.owned

/-- The new pointer takes the place of the old one, whose instance the thread owns then: the
common part of `swap` and of a successful `compare_exchange`. -/
def exchange (c : Cells A) (t : Tid) (cell : CellId) (prev : Ptr A) (new : Option A)
    (tag : Tag) : Cells A :=
  ((c.forget t new).setWord cell (some ⟨new, tag⟩)).give t prev.addr

/-- The condition of `update_tag_if` is called. Under a guard its argument is a `Ptr` like any
other. -/
def ask (c : Cells A) (guarded : Bool) (t : Tid) (u : Update A) (rest : List (Update A)) :
    Cells A :=
  (c.setUpdates t (u :: rest)).point t (if guarded then u.prev.addr else none)

/-- A call of a method of a handle, or the next step of `update_tag_if`. `guarded` says that the
thread has a guard. -/
def call (c : Cells A) (guarded : Bool) (t : Tid) : Act A → Option (Cells A)
  | .null => some { c with words := c.words ++ [some .null] }
  | .from x =>
    if c.owns t x then
      some { c.forget t (some x) with words := c.words ++ [some ⟨some x, .none⟩] }
    else
      none
  | .load cell => if guarded then (c.word cell).map fun p => c.point t p.addr else none
  | .getGuardedPtr x => if guarded && c.owns t x then some (c.point t (some x)) else none
  | .swap cell new tag =>
    if new.all (c.owns t) then
      (c.word cell).map fun prev => c.exchange t cell prev new tag
    else
      none
  | .compareExchange cell current new tag spurious =>
    if guarded && new.all (c.owns t) && current.addr.all (fun x => x ∈ c.ptrs t) then
      (c.word cell).map fun prev =>
        if prev = current ∧ spurious = false then
          ((c.exchange t cell prev new tag).point t new).log t true
        else
          (c.point t prev.addr).log t false
    else
      none
  | .updateTagIf cell tag =>
    (c.word cell).map fun p => c.ask guarded t ⟨cell, tag, p, false⟩ (c.updates t)
  | .answer ok =>
    match c.updates t with
    | [] => none
    | u :: rest =>
      if ok then
        some (c.setUpdates t ({ u with met := true } :: rest))
      else
        some ((c.setUpdates t rest).log t false)
  | .updateTag spurious =>
    match c.updates t with
    | [] => none
    | u :: rest => (c.word u.cell).map fun p =>
        if p = u.prev ∧ spurious = false then
          ((c.setWord u.cell (some (p.withTag u.tag))).setUpdates t rest).log t true
        else
          c.ask guarded t { u with prev := p, met := false } rest
  | .intoOwned cell => (c.word cell).map fun p => (c.setWord cell none).give t p.addr
  | .send x receiver =>
    if c.owns t x then some ((c.forget t (some x)).give receiver (some x)) else none
  | .process _ | .new _ | .drop _ | .dropAtomic _ => none

end

end Cells

/-- The act that comes after the compare-and-exchange of `update_tag_if` is decided on. -/
def Act.updates {A : Type} : Act A → Bool
  | .updateTag _ => true
  | _ => false

/-- The thread runs user code. -/
def user (p : Process) (t : Tid) : Bool :=
  (p.stage t).user && match p.base.pc t with
    | .idle | .destructor _ _ => true
    | _ => false

/-- The collector, the handles, and the memory that instances live in. -/
structure World where
  process : Process
  cells : Cells Address
  /-- The instance at each address; `none` for memory that is free. -/
  memory : Address → Option Serial
  /-- The address of each instance that was retired. -/
  retired : InstId → Option Address
  nextSerial : Serial
  /-- What was at the addresses when they were freed, the latest first. -/
  freed : List (Option Serial)

namespace World

/-- No address is allocated. -/
def init : World where
  process := .init
  cells := .init
  memory := fun _ => none
  retired := fun _ => none
  nextSerial := 0
  freed := []

/-- The instances that a step of the collector has dropped. -/
def dropping (w : World) (p : Process) : List InstId :=
  p.base.dropped.take (p.base.dropped.length - w.process.base.dropped.length)

/-- The collector takes a step: the memory of the instances that it has dropped is freed. -/
def proceed (w : World) (p : Process) : World :=
  let free := (w.dropping p).filterMap w.retired
  { w with
      process := p
      cells := w.cells.expire p.base.guardAlive
      memory := fun x => if x ∈ free then none else w.memory x
      freed := free.map w.memory ++ w.freed }

/-- `RefCounted::pass_to_collector`. -/
def retire (w : World) (t : Tid) (x : Address) : Option World :=
  (w.process.step ⟨t, .base .collect⟩).map fun p =>
    { w with
        process := p
        retired := Function.update w.retired w.process.base.nextInst (some x) }

/-- What a thread does when it is not in the middle of a call. -/
def act (w : World) (t : Tid) : Act Address → Option World
  | .process act => (w.process.step ⟨t, act⟩).map w.proceed
  | .new x =>
    if user w.process t && (w.memory x).isNone then
      some { w with
        cells := w.cells.give t (some x)
        memory := Function.update w.memory x (some w.nextSerial)
        nextSerial := w.nextSerial + 1 }
    else
      none
  | .drop x =>
    if user w.process t && w.cells.owns t x then
      { w with cells := w.cells.forget t (some x) }.retire t x
    else
      none
  | .dropAtomic cell =>
    if user w.process t then
      (w.cells.word cell).bind fun p =>
        match p.addr with
        | none => some { w with cells := w.cells.setWord cell none }
        | some x => { w with cells := w.cells.setWord cell none }.retire t x
    else
      none
  | act =>
    if user w.process t then
      (w.cells.call (w.process.base.guardAlive t) t act).map fun c => { w with cells := c }
    else
      none

/-- One action of one thread; `none` when the thread cannot take it. -/
def step (w : World) (a : Action Address) : Option World :=
  if w.cells.updating a.tid = a.act.updates then w.act a.tid a.act else none

end World

/-- The same program, where no instance takes the place of another one. -/
structure Ideal where
  process : Process
  cells : Cells Serial
  nextSerial : Serial

namespace Ideal

/-- No instance exists. -/
def init : Ideal := ⟨.init, .init, 0⟩

/-- `RefCounted::pass_to_collector`. -/
def retire (w : Ideal) (t : Tid) : Option Ideal :=
  (w.process.step ⟨t, .base .collect⟩).map fun p => { w with process := p }

/-- What a thread does when it is not in the middle of a call. -/
def act (w : Ideal) (t : Tid) : Act Serial → Option Ideal
  | .process act => (w.process.step ⟨t, act⟩).map fun p =>
      { w with process := p, cells := w.cells.expire p.base.guardAlive }
  | .new x =>
    if user w.process t && x == w.nextSerial then
      some { w with cells := w.cells.give t (some x), nextSerial := w.nextSerial + 1 }
    else
      none
  | .drop x =>
    if user w.process t && w.cells.owns t x then
      { w with cells := w.cells.forget t (some x) }.retire t
    else
      none
  | .dropAtomic cell =>
    if user w.process t then
      (w.cells.word cell).bind fun p =>
        match p.addr with
        | none => some { w with cells := w.cells.setWord cell none }
        | some _ => { w with cells := w.cells.setWord cell none }.retire t
    else
      none
  | act =>
    if user w.process t then
      (w.cells.call (w.process.base.guardAlive t) t act).map fun c => { w with cells := c }
    else
      none

/-- One action of one thread; `none` when the thread cannot take it. -/
def step (w : Ideal) (a : Action Serial) : Option Ideal :=
  if w.cells.updating a.tid = a.act.updates then w.act a.tid a.act else none

end Ideal

end Sdd.AtomicOwned
