import Sdd.Epoch
import Mathlib.Logic.Function.Basic

/-!
# `Sdd.Local`: the collector of one thread, and destructors that panic

The model of `new_guard`, `end_guard`, `collect`, `epoch_updated` and `clear_for_drop` of
`collector.rs` for one thread, with the intrusive lists as they are: a `Node` is a
`Collectible`, and its link is read and written in the node. A node is an instance or a deferred
closure, or an obsolete collector that `scan` has unlinked from the chain. The collectors in
`chain` are those that other threads give up; their nodes are in memory from the beginning. The
epoch that a guard observes can be any.

A destructor is user code: at `Pc.destructor` the thread can retire instances, create and drop
guards, and so on. It returns, or it panics. The callers of a destructor are the calls of
`clear_for_drop`, the innermost first, and `epoch_updated`. A panic runs the two `ExitGuard`s: that
of `epoch_updated` at `Pc.unwind`, and that of `new_guard` at `Pc.endGuard`. The links that a call of
`clear_for_drop` has in its local variables are gone then.

A step that reads the link of a node that was freed is not possible. `dropped` records the nodes
of which the drop has begun.
-/

set_option autoImplicit false

namespace Sdd

/-- A `Collectible`. -/
abbrev Node := Nat

namespace Local

/-- The three lists of a collector. -/
structure Lists where
  previousInstanceLink : Option Node
  currentInstanceLink : Option Node
  nextInstanceLink : Option Node
  deriving DecidableEq

def Lists.empty : Lists := ⟨none, none, none⟩

/-- The lists as `clear_for_drop` takes them. -/
def Lists.garbageContainers (l : Lists) : List (Option Node) :=
  [l.previousInstanceLink, l.currentInstanceLink, l.nextInstanceLink]

/-- A call of `clear_for_drop` in progress: the rest of the list that it drops, and the lists that
it has not begun with. -/
structure Clear where
  collector : Node
  link : Option Node
  garbageContainers : List (Option Node)
  deriving DecidableEq

/-- The place where the thread stands. `garbageLink` is the variable of `epoch_updated`. -/
inductive Pc where
  /-- Outside of the collector. -/
  | idle
  /-- `epoch_updated`, before the next node is dropped. -/
  | drain (garbageLink : Option Node)
  /-- In a loop of `clear_for_drop`. -/
  | clear (garbageLink : Option Node) (call : Clear) (callers : List Clear)
  /-- In the destructor of the node `n`. -/
  | destructor (garbageLink : Option Node) (callers : List Clear) (n : Node)
  /-- In the `ExitGuard` of `epoch_updated`. -/
  | unwind (garbageLink : Option Node)
  /-- In the `ExitGuard` of `new_guard`, before `end_guard`. -/
  | endGuard
  /-- `end_guard`, in `scan`. -/
  | scan (panics : Bool)
  /-- A panic has left `new_guard`. -/
  | panicked
  deriving DecidableEq

end Local

structure Local where
  /-- `Link` of a node. -/
  link : Node → Option Node
  /-- The lists of a collector; other nodes have none. -/
  lists : Node → Option Local.Lists
  freed : Node → Bool
  /-- The allocator: the nodes from this number on are fresh. -/
  nextNode : Node
  /-- The collectors of other threads that become obsolete. -/
  chain : List Node
  /-- The tag of `chain_head` is `Tag::Second`. -/
  marked : Bool
  /-- The lists of the collector of the thread. -/
  own : Local.Lists
  inactive : Bool
  announcement : Epoch
  nextEpochUpdate : Nat
  hasGarbage : Bool
  numReaders : Nat
  pc : Local.Pc
  dropped : List Node

namespace Local

/-- What the thread does next, or what happens to the chain. -/
inductive Act where
  /-- `Guard::new`, which observes the epoch if it is the only guard. -/
  | newGuard (epoch : Epoch)
  | endGuard
  /-- An instance or a deferred closure is retired. -/
  | collect
  | accelerate
  | setHasGarbage
  /-- The next turn of a loop of the collector, or the return from a destructor. -/
  | proceed
  /-- The destructor panics. -/
  | panic
  /-- `scan` takes an obsolete collector out of the chain. -/
  | unlink (d : Node)
  /-- The thread goes on after a panic. -/
  | caught
  /-- Another thread sets or resets the mark at the chain. -/
  | mark (marked : Bool)
  deriving DecidableEq

def CADENCE : Nat := 64

/-- `u32::MAX` -/
def MAX_READERS : Nat := 4294967295

/-- The thread runs user code. -/
def user (m : Local) : Bool :=
  match m.pc with
  | .idle | .destructor _ _ _ => true
  | _ => false

/-- `Collector::collect` -/
def collect (m : Local) (n : Node) : Local :=
  { m with
    link := Function.update m.link n m.own.currentInstanceLink
    own := { m.own with currentInstanceLink := some n }
    hasGarbage := true }

/-- `epoch_updated`, up to its loop. -/
def epochUpdated (m : Local) : Local :=
  if m.hasGarbage then
    { m with
      own := ⟨m.own.currentInstanceLink, none, m.own.previousInstanceLink⟩
      hasGarbage := m.own.previousInstanceLink.isSome || m.own.currentInstanceLink.isSome
      pc := .drain m.own.nextInstanceLink }
  else
    { m with nextEpochUpdate := CADENCE }

/-- `Collector::new_guard` -/
def newGuard (m : Local) (newEpoch : Epoch) : Option Local :=
  if m.numReaders = 0 then
    if m.announcement = newEpoch then
      some { m with numReaders := 1, inactive := false }
    else
      some (epochUpdated { m with numReaders := 1, inactive := false, announcement := newEpoch })
  else if m.numReaders = MAX_READERS then
    none
  else
    some { m with numReaders := m.numReaders + 1 }

/-- The last store of `end_guard`. -/
def setInactive (m : Local) (panics : Bool) : Local :=
  { m with inactive := true, pc := if panics then .panicked else .idle }

/-- `end_guard` of the last guard, up to `scan` or to the end. -/
def endGuard (m : Local) (panics : Bool) : Local :=
  if m.nextEpochUpdate = 0 then
    { m with numReaders := 0, pc := .scan panics }
  else if m.hasGarbage || m.marked then
    { m with numReaders := 0, nextEpochUpdate := m.nextEpochUpdate - 1 }.setInactive panics
  else
    { m with numReaders := 0 }.setInactive panics

/-- The drop of the box of the node `n` begins, up to the first turn of `clear_for_drop` for a
collector. -/
def dropBox (m : Local) (garbageLink : Option Node) (callers : List Clear) (n : Node) : Local :=
  { m with
    dropped := n :: m.dropped
    pc := if (m.lists n).isSome then .clear garbageLink ⟨n, none, []⟩ callers
      else .destructor garbageLink callers n }

/-- The loop that has dropped a node. -/
def returnTo (garbageLink : Option Node) : List Clear → Pc
  | [] => .drain garbageLink
  | call :: callers => .clear garbageLink call callers

/-- The box of the node `n` is freed, and its drop returns. -/
def freeBox (m : Local) (garbageLink : Option Node) (callers : List Clear) (n : Node) : Local :=
  { m with freed := Function.update m.freed n true, pc := returnTo garbageLink callers }

/-- The link of a node. -/
def nextPtr (m : Local) (n : Node) : Option (Option Node) :=
  if m.freed n then none else some (m.link n)

/-- The next turn of a loop of `clear_for_drop`. -/
def clear (m : Local) (garbageLink : Option Node) (call : Clear) (callers : List Clear) :
    Option Local :=
  match call.link, call.garbageContainers with
  | some n, _ => (m.nextPtr n).map fun link =>
    m.dropBox garbageLink ({ call with link := link } :: callers) n
  | none, link :: containers =>
    some { m with pc := .clear garbageLink ⟨call.collector, link, containers⟩ callers }
  | none, [] => (m.lists call.collector).map fun lists =>
    if lists = .empty then
      m.freeBox garbageLink callers call.collector
    else
      { m with
        lists := Function.update m.lists call.collector (some .empty)
        pc := .clear garbageLink ⟨call.collector, none, lists.garbageContainers⟩ callers }

/-- The next turn of a loop of the collector, or the return from a destructor. -/
def proceed (m : Local) : Option Local :=
  match m.pc with
  | .idle | .panicked => none
  | .drain none => some { m with nextEpochUpdate := CADENCE, pc := .idle }
  | .drain (some n) => (m.nextPtr n).map fun link => m.dropBox link [] n
  | .clear garbageLink call callers => m.clear garbageLink call callers
  | .destructor garbageLink callers n => some (m.freeBox garbageLink callers n)
  | .unwind none => some { m with pc := .endGuard }
  | .unwind (some n) => (m.nextPtr n).map fun link => { m.collect n with pc := .unwind link }
  | .endGuard =>
    if m.numReaders = 1 then some (m.endGuard true)
    else some { m with numReaders := m.numReaders - 1, pc := .panicked }
  | .scan panics => some ({ m with nextEpochUpdate := CADENCE }.setInactive panics)

/-- The destructor of the node `n` panics. The boxes that are dropped are freed, and the local
variables of the calls of `clear_for_drop` are gone. -/
def panic (m : Local) : Option Local :=
  match m.pc with
  | .destructor garbageLink callers n => some { m with
      freed := fun x => m.freed x || x == n || callers.any (·.collector == x)
      pc := .unwind garbageLink }
  | _ => none

/-- One action; `none` when it is not possible. -/
def step (m : Local) : Act → Option Local
  | .newGuard epoch => if m.user then m.newGuard epoch else none
  | .endGuard =>
    if m.user ∧ m.numReaders ≠ 0 then
      if m.numReaders ≠ 1 then
        some { m with numReaders := m.numReaders - 1 }
      else
        -- In a destructor the last reader is the guard that is created.
        match m.pc with
        | .idle => some (m.endGuard false)
        | _ => none
    else
      none
  | .collect =>
    if m.user then
      some ({ m with
        nextNode := m.nextNode + 1
        lists := Function.update m.lists m.nextNode none }.collect m.nextNode)
    else
      none
  | .accelerate => if m.user ∧ m.numReaders ≠ 0 then some { m with nextEpochUpdate := 0 } else none
  | .setHasGarbage => if m.user ∧ m.numReaders ≠ 0 then some { m with hasGarbage := true } else none
  | .proceed => m.proceed
  | .panic => m.panic
  | .unlink d =>
    match m.pc with
    | .scan _ => if d ∈ m.chain then some ({ m with chain := m.chain.erase d }.collect d) else none
    | _ => none
  | .caught =>
    match m.pc with
    | .panicked => some { m with pc := .idle }
    | _ => none
  | .mark marked => some { m with marked := marked }

end Local

end Sdd
