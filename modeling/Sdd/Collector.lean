import Sdd.Epoch
import Sdd.Tag
import Mathlib.Logic.Function.Basic

/-!
# `Sdd.Collector`: the epoch collector

The model of `collector.rs` and of the parts of `guard.rs` that call it. A `World` holds
the two words of `GLOBAL_ROOT`, every `Collector` that was allocated, and for each thread
its `LOCAL_COLLECTOR` and the place where it stands (`Pc`). `World.step` is one action of
one thread. Each action makes at most one access to a word that other threads read: the
global epoch, the state or the `next_link` of a collector, or `chain_head`. In particular
the load of the global epoch in `new_guard` and its publication are two actions, and
the walk in `scan` takes two actions for each collector. The fields that only the owning
thread uses are written together with the access next to them.

A `fetch_update` is one action. Its closure is a function of the word, so that its
successful compare-and-exchange acts on the word as it is at that moment, and the
failed ones change nothing.

The intrusive garbage lists are lists, last collected first. `collect` hands out a fresh
`InstId` for each retired instance or deferred closure; a whole collector that `scan`
unlinks is garbage too, and dropping it drops what is on its own lists. A destructor is
user code: while a thread stands at `Pc.destructor`, it can retire instances and create
and drop further guards. The thread-exit path (`CollectorAnchor::drop`) is not in this
module.
-/

set_option autoImplicit false

namespace Sdd

namespace Collector

/-- The name of a thread. -/
abbrev Tid := Nat

/-- The name of a collector: collectors are numbered in the order of their allocation. -/
abbrev CollectorId := Nat

/-- A retired instance, or a deferred closure. -/
abbrev InstId := Nat

/-- A `Collectible` on a garbage list. -/
inductive Garbage where
  | inst (i : InstId)
  | collector (c : CollectorId)
  deriving DecidableEq, Repr

/-- The state byte of a collector: the announced epoch in the low six bits, then the
`INACTIVE` and the `INVALID` bit. -/
structure StateByte where
  epoch : Epoch
  inactive : Bool
  invalid : Bool
  deriving DecidableEq

end Collector

open Collector

/-- A collector, with the fields that its owner uses and the two that scans read. -/
structure Collector where
  state : StateByte
  announcement : Epoch
  nextEpochUpdate : Nat
  hasGarbage : Bool
  numReaders : Nat
  previousInstanceLink : List Garbage
  currentInstanceLink : List Garbage
  nextInstanceLink : List Garbage
  nextLink : Option CollectorId

namespace Collector

/-- The number of quiescent states before an epoch update is triggered. -/
def CADENCE : Nat := 64

/-- `u32::MAX`, the largest number of guards of one thread. -/
def MAX_READERS : Nat := 4294967295

/-- `Collector::default()` with the two fields that `alloc` sets. -/
def new : Collector where
  state := ⟨.default, true, false⟩
  announcement := .default
  nextEpochUpdate := CADENCE
  hasGarbage := false
  numReaders := 0
  previousInstanceLink := []
  currentInstanceLink := []
  nextInstanceLink := []
  nextLink := none

/-- Collects a garbage instance. -/
def collect (k : Collector) (g : Garbage) : Collector :=
  { k with currentInstanceLink := g :: k.currentInstanceLink, hasGarbage := true }

/-- The rotation at the start of `epoch_updated`: each list moves on by one generation,
and what was on the next list is left to be dropped. -/
def rotate (k : Collector) : Collector :=
  { k with
      nextInstanceLink := k.previousInstanceLink
      previousInstanceLink := k.currentInstanceLink
      currentInstanceLink := []
      hasGarbage := !k.previousInstanceLink.isEmpty || !k.currentInstanceLink.isEmpty }

/-- The instances that `clear_for_drop` drops, in its order. -/
def garbage (k : Collector) : List Garbage :=
  k.previousInstanceLink ++ k.currentInstanceLink ++ k.nextInstanceLink

/-- `clear_for_drop` takes all three lists. -/
def cleared (k : Collector) : Collector :=
  { k with previousInstanceLink := [], currentInstanceLink := [], nextInstanceLink := [] }

/-- The place where a thread stands: what its next atomic access is, with the local
variables of the source at that place. `c` is the thread's own collector. -/
inductive Pc where
  /-- Outside of the collector: user code, possibly with live guards. -/
  | idle
  /-- `alloc`, before the compare-and-exchange on `chain_head`. -/
  | alloc (c : CollectorId) (current : Ptr CollectorId)
  /-- `new_guard`, between the load of the global epoch and its publication. -/
  | newGuard (c : CollectorId) (newEpoch : Epoch)
  /-- `epoch_updated`, before the next instance of `garbage_link` is dropped. -/
  | drain (c : CollectorId) (garbageLink : List Garbage)
  /-- `epoch_updated`, inside the destructor of an instance. -/
  | destructor (c : CollectorId) (garbageLink : List Garbage)
  /-- `scan`, before `lock_chain`. -/
  | lockChain (c : CollectorId)
  /-- `scan`, before the load of `known_epoch`. -/
  | knownEpoch (c : CollectorId) (current : Option CollectorId)
  /-- `scan`, at the head of the walk. -/
  | scan (c : CollectorId) (known : StateByte) (prev current : Option CollectorId)
  /-- `scan`, between the load of a collector's state and the load of its `next_link`. -/
  | scanNext (c : CollectorId) (known : StateByte) (prev : Option CollectorId)
      (current : CollectorId) (state : StateByte)
  /-- `scan`, before an obsolete collector is unlinked. -/
  | unlink (c : CollectorId) (known : StateByte) (prev : Option CollectorId)
      (current : CollectorId) (next : Option CollectorId)
  /-- `scan`, before `unlock_chain`. -/
  | unlockChain (c : CollectorId)
  /-- `end_guard`, before the state becomes inactive. -/
  | setInactive (c : CollectorId)
  /-- `pass_garbage`, before `mark_scan_enforced`. -/
  | markScanEnforced
  deriving DecidableEq

/-- The global variables of the collector, the collectors, and the places of the threads. -/
structure World where
  epoch : Epoch
  chainHead : Ptr CollectorId
  collectors : CollectorId → Collector
  localCollector : Tid → Option CollectorId
  pc : Tid → Pc
  /-- The allocator: collectors and instances from these numbers on are fresh. -/
  nextCollector : CollectorId
  nextInst : InstId
  /-- The instances that were dropped, the latest first. -/
  dropped : List InstId

/-- What a thread does next. -/
inductive Act where
  /-- The next atomic access of the call in progress. -/
  | proceed
  /-- `Collector::current()` in a thread without a collector. -/
  | alloc
  | newGuard
  | endGuard
  /-- An instance or a deferred closure is retired. -/
  | collect
  /-- `suspend()`. -/
  | passGarbage
  | accelerate
  | setHasGarbage
  deriving DecidableEq, Repr

/-- A thread acts. -/
structure Action where
  tid : Tid
  act : Act
  deriving DecidableEq, Repr

namespace World

/-- No collector exists. -/
def init : World where
  epoch := .default
  chainHead := .null
  collectors := fun _ => .new
  localCollector := fun _ => none
  pc := fun _ => .idle
  nextCollector := 0
  nextInst := 0
  dropped := []

/-- The collector `c` changes. -/
def modify (w : World) (c : CollectorId) (f : Collector → Collector) : World :=
  { w with collectors := Function.update w.collectors c (f (w.collectors c)) }

/-- The thread goes to another place. -/
def goto (w : World) (t : Tid) (pc : Pc) : World :=
  { w with pc := Function.update w.pc t pc }

section
variable (w : World) (c : CollectorId) (f : Collector → Collector) (t : Tid) (p : Pc)

/-- One collector has changed. -/
@[simp] theorem modify_collectors :
    (w.modify c f).collectors = Function.update w.collectors c (f (w.collectors c)) := rfl

/-- A change of a collector leaves the global epoch alone. -/
@[simp] theorem modify_epoch : (w.modify c f).epoch = w.epoch := rfl

/-- A change of a collector leaves the head of the chain alone. -/
@[simp] theorem modify_chainHead : (w.modify c f).chainHead = w.chainHead := rfl

/-- A change of a collector does not change whose it is. -/
@[simp] theorem modify_localCollector : (w.modify c f).localCollector = w.localCollector := rfl

/-- The threads stay where they are when a collector changes. -/
@[simp] theorem modify_pc : (w.modify c f).pc = w.pc := rfl

/-- A change of a collector allocates none. -/
@[simp] theorem modify_nextCollector : (w.modify c f).nextCollector = w.nextCollector := rfl

/-- A change of a collector creates no instance. -/
@[simp] theorem modify_nextInst : (w.modify c f).nextInst = w.nextInst := rfl

/-- A change of a collector drops nothing. -/
@[simp] theorem modify_dropped : (w.modify c f).dropped = w.dropped := rfl

/-- One thread is at another place. -/
@[simp] theorem goto_pc : (w.goto t p).pc = Function.update w.pc t p := rfl

/-- The collectors do not see where the threads are. -/
@[simp] theorem goto_collectors : (w.goto t p).collectors = w.collectors := rfl

/-- A thread that goes on leaves the global epoch alone. -/
@[simp] theorem goto_epoch : (w.goto t p).epoch = w.epoch := rfl

/-- A thread that goes on leaves the head of the chain alone. -/
@[simp] theorem goto_chainHead : (w.goto t p).chainHead = w.chainHead := rfl

/-- A thread that goes on keeps its collector. -/
@[simp] theorem goto_localCollector : (w.goto t p).localCollector = w.localCollector := rfl

/-- A thread that goes on allocates no collector. -/
@[simp] theorem goto_nextCollector : (w.goto t p).nextCollector = w.nextCollector := rfl

/-- A thread that goes on creates no instance. -/
@[simp] theorem goto_nextInst : (w.goto t p).nextInst = w.nextInst := rfl

/-- A thread that goes on drops nothing. -/
@[simp] theorem goto_dropped : (w.goto t p).dropped = w.dropped := rfl

end

/-- The collector of a thread that runs user code: outside of the collector, or in a
destructor that `epoch_updated` runs. -/
def user (w : World) (t : Tid) : Option CollectorId :=
  match w.pc t with
  | .idle => w.localCollector t
  | .destructor c _ => some c
  | _ => none

/-- The thread has a live guard whose epoch is published. -/
def guardAlive (w : World) (t : Tid) : Bool :=
  match w.localCollector t with
  | some c => 0 < (w.collectors c).numReaders && !(w.collectors c).state.inactive
  | none => false

/-- `Collector::new_guard`, up to the load of the global epoch. A nested guard counts as
a reader and does nothing else. -/
def newGuard (w : World) (t : Tid) (c : CollectorId) : Option World :=
  if (w.collectors c).numReaders = 0 then
    some ((w.modify c fun k => { k with numReaders := 1 }).goto t (.newGuard c w.epoch))
  else if (w.collectors c).numReaders = Collector.MAX_READERS then
    none
  else
    some (w.modify c fun k => { k with numReaders := k.numReaders + 1 })

/-- `Collector::new_guard` from the publication of the epoch on, with the rotation in
`epoch_updated`. -/
def publish (w : World) (t : Tid) (c : CollectorId) (newEpoch : Epoch) : World :=
  let w := w.modify c fun k => { k with state := ⟨newEpoch, false, false⟩ }
  if (w.collectors c).announcement = newEpoch then
    w.goto t .idle
  else
    let w := w.modify c fun k => { k with announcement := newEpoch }
    if (w.collectors c).hasGarbage then
      (w.modify c .rotate).goto t (.drain c (w.collectors c).nextInstanceLink)
    else
      (w.modify c fun k => { k with nextEpochUpdate := Collector.CADENCE }).goto t .idle

/-- One turn of the loop in `epoch_updated`. A collector that is dropped has its own
lists dropped first (`clear_for_drop`). -/
def drain (w : World) (t : Tid) (c : CollectorId) : List Garbage → World
  | [] => (w.modify c fun k => { k with nextEpochUpdate := Collector.CADENCE }).goto t .idle
  | .inst i :: rest => { w with dropped := i :: w.dropped }.goto t (.destructor c rest)
  | .collector d :: rest =>
    (w.modify d .cleared).goto t (.drain c ((w.collectors d).garbage ++ rest))

/-- `Collector::end_guard`, up to the scan or to the last store. -/
def endGuard (w : World) (t : Tid) (c : CollectorId) : Option World :=
  if (w.collectors c).numReaders = 0 then
    none
  else if (w.collectors c).numReaders = 1 then
    if w.pc t = .idle then
      let w := w.modify c fun k => { k with numReaders := 0 }
      if (w.collectors c).nextEpochUpdate = 0 then
        some (w.goto t (.lockChain c))
      else if (w.collectors c).hasGarbage || w.chainHead.tag == .second then
        some ((w.modify c fun k => { k with nextEpochUpdate := k.nextEpochUpdate - 1 }).goto t
          (.setInactive c))
      else
        some (w.goto t (.setInactive c))
    else
      -- In a destructor the last reader is the guard that `new_guard` has not returned yet.
      none
  else
    some (w.modify c fun k => { k with numReaders := k.numReaders - 1 })

/-- The return from `scan` to `end_guard`. -/
def scanned (w : World) (t : Tid) (c : CollectorId) : World :=
  (w.modify c fun k => { k with nextEpochUpdate := Collector.CADENCE }).goto t (.setInactive c)

/-- `Collector::lock_chain`. -/
def lockChain (w : World) (t : Tid) (c : CollectorId) : World :=
  if w.chainHead.tag = .first ∨ w.chainHead.tag = .both then
    w.scanned t c
  else
    { w with chainHead := w.chainHead.withTag .first }.goto t (.knownEpoch c w.chainHead.addr)

/-- `Collector::unlock_chain`. A mark that was set while the chain was locked stays. -/
def unlockChain (w : World) : World :=
  { w with
      chainHead := w.chainHead.withTag (if w.chainHead.tag = .first then .none else .second) }

/-- `mark_scan_enforced`. -/
def markScanEnforced (w : World) : World :=
  match w.chainHead.tag with
  | .none => { w with chainHead := w.chainHead.withTag .second }
  | .first => { w with chainHead := w.chainHead.withTag .both }
  | .second | .both => w

/-- One turn of the walk in `scan`, and the store to the global epoch at its end. The own
collector is passed over. -/
def scan (w : World) (t : Tid) (c : CollectorId) (known : StateByte)
    (prev : Option CollectorId) : Option CollectorId → World
  | none => { w with epoch := known.epoch.next }.goto t (.unlockChain c)
  | some d =>
    if d = c then
      w.goto t (.scan c known (some d) (w.collectors c).nextLink)
    else
      w.goto t (.scanNext c known prev d (w.collectors d).state)

/-- The rest of one turn of the walk, with the state loaded before: an obsolete
collector is to be unlinked, and an active one with another epoch ends the scan. -/
def scanNext (w : World) (t : Tid) (c : CollectorId) (known : StateByte)
    (prev : Option CollectorId) (d : CollectorId) (state : StateByte) : World :=
  let next := (w.collectors d).nextLink
  if state.invalid then
    w.goto t (.unlink c known prev d next)
  else if !state.inactive && state != known then
    w.goto t (.unlockChain c)
  else
    w.goto t (.scan c known (some d) next)

/-- The removal of an obsolete collector from the chain. At the head it fails when
another collector was pushed in front. -/
def unlink (w : World) (t : Tid) (c : CollectorId) (known : StateByte)
    (prev : Option CollectorId) (d : CollectorId) (next : Option CollectorId) : World :=
  match prev with
  | none =>
    if w.chainHead.addr = some d then
      ({ w with chainHead := ⟨next, w.chainHead.tag⟩ }.modify c (·.collect (.collector d))).goto t
        (.scan c known none next)
    else
      w.goto t (.scan c known (some d) next)
  | some p =>
    ((w.modify p fun k => { k with nextLink := next }).modify c (·.collect (.collector d))).goto t
      (.scan c known (some p) next)

/-- The next atomic access of the call that a thread is in. -/
def proceed (w : World) (t : Tid) : Option World :=
  match w.pc t with
  | .idle => none
  | .alloc c current =>
    let w := w.modify c fun k => { k with nextLink := current.addr }
    if w.chainHead = current then
      some ({ w with
        chainHead := ⟨some c, current.tag⟩
        localCollector := Function.update w.localCollector t (some c) }.goto t .idle)
    else
      some (w.goto t (.alloc c w.chainHead))
  | .newGuard c newEpoch => some (w.publish t c newEpoch)
  | .drain c garbageLink => some (w.drain t c garbageLink)
  | .destructor c garbageLink => some (w.goto t (.drain c garbageLink))
  | .lockChain c => some (w.lockChain t c)
  | .knownEpoch c current => some (w.goto t (.scan c (w.collectors c).state none current))
  | .scan c known prev current => some (w.scan t c known prev current)
  | .scanNext c known prev d state => some (w.scanNext t c known prev d state)
  | .unlink c known prev d next => some (w.unlink t c known prev d next)
  | .unlockChain c => some (w.unlockChain.scanned t c)
  | .setInactive c =>
    some ((w.modify c fun k => { k with state := ⟨k.announcement, true, false⟩ }).goto t .idle)
  | .markScanEnforced => some (w.markScanEnforced.goto t .idle)

/-- `Collector::pass_garbage`, up to `mark_scan_enforced`. With a live guard, or without
garbage, nothing happens. -/
def passGarbage (w : World) (t : Tid) (c : CollectorId) : World :=
  if (w.collectors c).numReaders ≠ 0 ∨ (w.collectors c).hasGarbage = false then
    w
  else
    { w.modify c fun k => { k with state := { k.state with invalid := true } } with
        localCollector := Function.update w.localCollector t none }.goto t .markScanEnforced

/-- One action of one thread; `none` when the thread cannot take it. -/
def step (w : World) (a : Action) : Option World :=
  match a.act with
  | .proceed => w.proceed a.tid
  | .alloc =>
    if w.pc a.tid = .idle ∧ w.localCollector a.tid = none then
      some ({ w with
        collectors := Function.update w.collectors w.nextCollector .new
        nextCollector := w.nextCollector + 1 }.goto a.tid (.alloc w.nextCollector w.chainHead))
    else
      none
  | .newGuard => (w.user a.tid).bind fun c => w.newGuard a.tid c
  | .endGuard => (w.user a.tid).bind fun c => w.endGuard a.tid c
  | .collect => (w.user a.tid).map fun c =>
      { w.modify c (·.collect (.inst w.nextInst)) with nextInst := w.nextInst + 1 }
  | .passGarbage => (w.user a.tid).map fun c => w.passGarbage a.tid c
  | .accelerate => (w.user a.tid).bind fun c =>
      if (w.collectors c).numReaders = 0 then none
      else some (w.modify c fun k => { k with nextEpochUpdate := 0 })
  | .setHasGarbage => (w.user a.tid).bind fun c =>
      if (w.collectors c).numReaders = 0 then none
      else some (w.modify c fun k => { k with hasGarbage := true })

end World

end Collector

end Sdd
