import Sdd.AtomicOwned
import Sdd.RefCounted

/-!
# `Sdd.AtomicShared`: reference counting on the collector

The reference counts of `Sdd.RefCounted` on top of the collector with thread exit. There
`passed` lists the instances that were passed to the collector. Here a `World` also says what
becomes of them: the last access of `pass_to_collector` is a step of the collector, `collect`, and
`retired` names the instance that was retired with it. The destructors run in the collector, and
are user code.

A `Ptr` that is taken under a guard lives as long as its thread has one. `Ptr::get_shared` takes a
`Ptr` and no guard. The condition of `update_tag_if` gets a `Ptr` as well, to the word that was
loaded last, and the thread does not need a guard for that; this `Ptr` lives until the condition
returns. The condition is user code: while it runs the thread can do anything, and call
`update_tag_if` once more.

A thread in the middle of another call takes no step of the collector, except that
`pass_to_collector` calls `Collector::current`, which can allocate a collector. A counter can be
read and written after its instance was dropped: what the calls do then is not what the program
does, but such a call is not left out.

A garbage list is linked anew only when a destructor panics, and no destructor panics here.
-/

set_option autoImplicit false

namespace Sdd.AtomicShared

open Sdd.AtomicOwned (Update user)
open Sdd.RefCounted (Tid CellId InstId)

structure World where
  process : Process
  counted : RefCounted.World
  /-- What the `Ptr`s of a thread that were taken under a guard point to. -/
  ptrs : Tid → List InstId
  /-- The calls of `update_tag_if` of a thread, the innermost first. -/
  updates : Tid → List (Update InstId)
  /-- The instance that was retired with each `collect`. -/
  retired : Collector.InstId → Option InstId

/-- What a thread does next. -/
inductive Act where
  /-- A step of the collector. -/
  | process (act : Process.Act)
  /-- `AtomicShared::load`. -/
  | load (cell : CellId)
  /-- `Shared::get_guarded_ptr`, or the one of `Owned`. -/
  | getGuardedPtr (i : InstId)
  /-- `AtomicShared::update_tag_if`, up to the call of the condition. -/
  | updateTagIf (cell : CellId) (tag : Tag)
  /-- The condition returns. -/
  | answer (ok : Bool)
  /-- The weak compare-and-exchange of `update_tag_if`. -/
  | updateTag (spurious : Bool)
  /-- A call of a method of a handle, or the next access of it. -/
  | counted (act : RefCounted.Act)

structure Action where
  tid : Tid
  act : Act

/-- The act that comes after the compare-and-exchange of `update_tag_if` is decided on. -/
def Act.updates : Act → Bool
  | .updateTag _ => true
  | _ => false

/-- The `Ptr` that a call returns. -/
def returned (w : RefCounted.World) : RefCounted.Act → Option InstId
  | .compareExchange cell current new _ spurious =>
    (w.word cell).bind fun prev => if prev = current ∧ spurious = false then new else prev.addr
  | _ => none

/-- The place is in `pass_to_collector`, before the call of `Collector::current`. -/
def atPass : RefCounted.Pc → Bool
  | .pass _ => true
  | _ => false

namespace World

def init : World where
  process := .init
  counted := .init
  ptrs := fun _ => []
  updates := fun _ => []
  retired := fun _ => none

/-- The thread gets a `Ptr`. -/
def point (w : World) (t : Tid) : Option InstId → World
  | none => w
  | some i => { w with ptrs := Function.update w.ptrs t (i :: w.ptrs t) }

def setUpdates (w : World) (t : Tid) (us : List (Update InstId)) : World :=
  { w with updates := Function.update w.updates t us }

/-- The thread has a guard. -/
def guarded (w : World) (t : Tid) : Bool := w.process.base.guardAlive t

/-- The thread is before the compare-and-exchange of `update_tag_if`. -/
def updating (w : World) (t : Tid) : Bool := (w.updates t).head?.any (·.met)

/-- A `Ptr` of the thread points to the instance: one that was taken under a guard, or the argument
of a condition. -/
def found (w : World) (t : Tid) (i : InstId) : Bool :=
  i ∈ w.ptrs t || (w.updates t).any fun u => u.prev.addr == some i

/-- The thread is not in the middle of a call. -/
def idle (w : World) (t : Tid) : Bool :=
  match w.counted.pc t with
  | .idle => true
  | _ => false

/-- `Collector::current` in `pass_to_collector`: the thread allocates a collector. -/
def allocates (w : World) (t : Tid) : Process.Act → Bool
  | .base .alloc => atPass (w.counted.pc t)
  | .base .proceed => atPass (w.counted.pc t) && !user w.process t
  | _ => false

/-- The collector takes a step. The `Ptr`s of a thread are gone when it has no guard any more. -/
def proceed (w : World) (p : Process) : World :=
  { w with
      process := p
      ptrs := fun r => if p.base.guardAlive r then w.ptrs r else [] }

/-- What the arguments of a call ask for. The steps of `update_tag_if` are acts of their own. -/
def permits (w : World) (t : Tid) : RefCounted.Act → Bool
  | .getShared _ => w.guarded t
  | .ptrGetShared i => w.found t i
  | .compareExchange _ current _ _ _ => w.guarded t && current.addr.all (w.found t)
  | .updateTag _ _ => false
  | .setNextPtr _ _ => false
  | _ => true

section
variable (bits : Nat)

/-- `pass_to_collector`, its last access: the instance `i` becomes the head of a garbage list. -/
def retire (w : World) (t : Tid) (i : InstId) (act : RefCounted.Act) : Option World :=
  (w.counted.step bits ⟨t, act⟩).bind fun c =>
    (w.process.step ⟨t, .base .collect⟩).map fun p =>
      { w with
          process := p
          counted := c
          retired := Function.update w.retired w.process.base.nextInst (some i) }

/-- A call of a method of a handle, or the next access of it. -/
def count (w : World) (t : Tid) (act : RefCounted.Act) : Option World :=
  match w.counted.pc t with
  | .link i => w.retire bits t i act
  | _ => (w.counted.step bits ⟨t, act⟩).map fun c =>
      { w with counted := c }.point t (returned w.counted act)

/-- `update_tag_if` after the condition has returned `true`: the tag is updated if the word is still
the one that was loaded, and else the condition is asked once more. -/
def updateTag (w : World) (t : Tid) (u : Update InstId) (rest : List (Update InstId))
    (spurious : Bool) : Option World :=
  (w.counted.word u.cell).bind fun p =>
    if p = u.prev ∧ spurious = false then
      (w.counted.step bits ⟨t, .updateTag u.cell u.tag⟩).map fun c =>
        { w with counted := c }.setUpdates t rest
    else
      some (w.setUpdates t ({ u with prev := p, met := false } :: rest))

/-- What a thread does. -/
def act (w : World) (t : Tid) : Act → Option World
  | .process act =>
    if w.idle t ∨ w.allocates t act then (w.process.step ⟨t, act⟩).map w.proceed else none
  | .load cell =>
    if user w.process t ∧ w.idle t ∧ w.guarded t then
      (w.counted.word cell).map fun p => w.point t p.addr
    else
      none
  | .getGuardedPtr i =>
    if user w.process t ∧ w.idle t ∧ w.guarded t ∧ w.counted.handles.contains (t, i) then
      some (w.point t (some i))
    else
      none
  | .updateTagIf cell tag =>
    if user w.process t ∧ w.idle t then
      (w.counted.word cell).map fun p => w.setUpdates t (⟨cell, tag, p, false⟩ :: w.updates t)
    else
      none
  | .answer ok =>
    if user w.process t ∧ w.idle t then
      match w.updates t with
      | [] => none
      | u :: rest => some (w.setUpdates t (if ok then { u with met := true } :: rest else rest))
    else
      none
  | .updateTag spurious =>
    if user w.process t ∧ w.idle t then
      match w.updates t with
      | [] => none
      | u :: rest => w.updateTag bits t u rest spurious
    else
      none
  | .counted act =>
    if user w.process t ∧ w.permits t act then w.count bits t act else none

/-- One action of one thread; `none` when the thread cannot take it. -/
def step (w : World) (a : Action) : Option World :=
  if w.updating a.tid = a.act.updates then w.act bits a.tid a.act else none

end

end World

end Sdd.AtomicShared
