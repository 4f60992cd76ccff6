import Sdd.Collector

/-!
# `Sdd.Nesting`: the guards of one thread

The model of `new_guard`, `end_guard`, `epoch_updated`, `clear_for_drop`, `pass_garbage` and
`current` of `collector.rs` as one thread sees them, with its live guards and its call stack. In
`Sdd.Collector` a thread stands at one place; here a destructor calls the collector again, and what
it calls is pushed onto the stack. Nothing is assumed about the order in which guards are dropped,
nor about the collector that a guard belongs to: a guard has an id and the collector that
`Guard::new` stored in it.

User code runs when the stack is empty, and on top of a destructor. What comes from other threads is
arbitrary: the epoch that `new_guard` loads, the mark at `chain_head` that `end_guard` loads, the
obsolete collectors that `scan` finds, and what is in them. A destructor can panic; the two
`ExitGuard`s run then, that of `epoch_updated` and that of `new_guard`.

`fault` says that a `debug_assert` has failed or that a counter has underflowed. The execution goes
on, so that nothing that follows is hidden.
-/

set_option autoImplicit false

namespace Sdd.Nesting

open Sdd.Collector

/-- The name of a guard: guards are numbered in the order of their creation. -/
abbrev GuardId := Nat

/-- A call in progress, with the local variables that it goes on with. -/
inductive Frame where
  /-- `new_guard`, between the load of the global epoch and its publication. -/
  | newGuard (c : CollectorId) (newEpoch : Epoch)
  /-- `epoch_updated`, called by `new_guard`, before the next instance of `garbage_link` is
  dropped. -/
  | epochUpdated (c : CollectorId) (garbageLink : List Garbage)
  /-- `clear_for_drop` of an obsolete collector, before the next instance is dropped. -/
  | clearForDrop (d : CollectorId) (link : List Garbage)
  /-- The destructor of an instance: user code. -/
  | destructor (i : InstId)
  /-- `scan`, called by `end_guard`. -/
  | scan (c : CollectorId)
  /-- `end_guard`, before the state becomes inactive. -/
  | setInactive (c : CollectorId)
  deriving DecidableEq

/-- The collectors, the guards of the thread, and its calls in progress. -/
structure State where
  collectors : CollectorId → Collector
  /-- The collectors below this number belong to other threads. -/
  foreign : CollectorId
  nextCollector : CollectorId
  /-- `LOCAL_COLLECTOR` -/
  localCollector : Option CollectorId
  /-- The live guards. -/
  guards : List (GuardId × CollectorId)
  nextGuard : GuardId
  /-- The calls in progress, the innermost first. -/
  stack : List Frame
  nextInst : InstId
  /-- The creations that have panicked. -/
  refused : Nat
  fault : Bool

/-- What the thread does next, or what happens around it. -/
inductive Act where
  /-- `Guard::new`, and the epoch that it loads if it is the only guard. -/
  | newGuard (epoch : Epoch)
  /-- A guard is dropped. `marked` says that the tag of `chain_head` is `Tag::Second`. -/
  | endGuard (g : GuardId) (marked : Bool)
  /-- An instance is retired. -/
  | collect
  /-- `Guard::defer_execute` -/
  | deferExecute (g : GuardId)
  /-- `Guard::accelerate` -/
  | accelerate (g : GuardId)
  /-- `Guard::set_has_garbage` -/
  | setHasGarbage (g : GuardId)
  /-- `suspend()` -/
  | passGarbage
  /-- The next turn of a loop of the collector, or the return from a destructor. -/
  | proceed
  /-- The destructor panics. -/
  | panic (marked : Bool)
  /-- `scan` takes an obsolete collector out of the chain. -/
  | unlink (d : CollectorId)
  /-- Another thread does something with its collector. -/
  | other (d : CollectorId) (k : Collector)

namespace State

/-- A thread that has not used the collector, among `foreign` collectors of other threads. -/
def init (others : CollectorId → Collector) (foreign : CollectorId) : State where
  collectors := others
  foreign := foreign
  nextCollector := foreign
  localCollector := none
  guards := []
  nextGuard := 0
  stack := []
  nextInst := 0
  refused := 0
  fault := false

/-- The collector `c` changes. -/
def modify (s : State) (c : CollectorId) (f : Collector → Collector) : State :=
  { s with collectors := Function.update s.collectors c (f (s.collectors c)) }

/-- `debug_assert!` -/
def assert (s : State) (b : Bool) : State := { s with fault := s.fault || !b }

/-- The thread has other calls in progress. -/
def goto (s : State) (stack : List Frame) : State := { s with stack := stack }

/-- The return from `Guard::new`. -/
def enter (s : State) (c : CollectorId) : State :=
  { s with guards := (s.nextGuard, c) :: s.guards, nextGuard := s.nextGuard + 1 }

section
variable (s : State) (c : CollectorId) (f : Collector → Collector) (b : Bool) (fs : List Frame)

/-- One collector has changed. -/
@[simp] theorem modify_collectors :
    (s.modify c f).collectors = Function.update s.collectors c (f (s.collectors c)) := rfl

/-- The same collectors belong to other threads after a change of one of them. -/
@[simp] theorem modify_foreign : (s.modify c f).foreign = s.foreign := rfl

/-- A change of a collector allocates none. -/
@[simp] theorem modify_nextCollector : (s.modify c f).nextCollector = s.nextCollector := rfl

/-- A change of a collector does not change whose it is. -/
@[simp] theorem modify_localCollector : (s.modify c f).localCollector = s.localCollector := rfl

/-- The guards stay when a collector changes. -/
@[simp] theorem modify_guards : (s.modify c f).guards = s.guards := rfl

/-- The calls in progress stay when a collector changes. -/
@[simp] theorem modify_stack : (s.modify c f).stack = s.stack := rfl

/-- A change of a collector is not an assertion. -/
@[simp] theorem modify_fault : (s.modify c f).fault = s.fault := rfl

/-- An assertion leaves the collectors as they are. -/
@[simp] theorem assert_collectors : (s.assert b).collectors = s.collectors := rfl

/-- An assertion leaves the collectors of other threads as they are. -/
@[simp] theorem assert_foreign : (s.assert b).foreign = s.foreign := rfl

/-- An assertion allocates no collector. -/
@[simp] theorem assert_nextCollector : (s.assert b).nextCollector = s.nextCollector := rfl

/-- An assertion leaves the thread its collector. -/
@[simp] theorem assert_localCollector : (s.assert b).localCollector = s.localCollector := rfl

/-- An assertion leaves the guards as they are. -/
@[simp] theorem assert_guards : (s.assert b).guards = s.guards := rfl

/-- An assertion leaves the calls in progress as they are. -/
@[simp] theorem assert_stack : (s.assert b).stack = s.stack := rfl

/-- An assertion that does not hold is a fault, and faults stay. -/
@[simp] theorem assert_fault : (s.assert b).fault = (s.fault || !b) := rfl

/-- An assertion that holds has no effect. -/
theorem assert_true : s.assert true = s := by simp [assert]

/-- The collectors do not see which calls are in progress. -/
@[simp] theorem goto_collectors : (s.goto fs).collectors = s.collectors := rfl

/-- Nor do the collectors of other threads. -/
@[simp] theorem goto_foreign : (s.goto fs).foreign = s.foreign := rfl

/-- A call that goes on allocates no collector. -/
@[simp] theorem goto_nextCollector : (s.goto fs).nextCollector = s.nextCollector := rfl

/-- The thread keeps its collector while its calls go on. -/
@[simp] theorem goto_localCollector : (s.goto fs).localCollector = s.localCollector := rfl

/-- The guards stay while the calls go on. -/
@[simp] theorem goto_guards : (s.goto fs).guards = s.guards := rfl

/-- The thread has the given calls in progress. -/
@[simp] theorem goto_stack : (s.goto fs).stack = fs := rfl

/-- A call that goes on is not an assertion. -/
@[simp] theorem goto_fault : (s.goto fs).fault = s.fault := rfl

/-- The new guard was announced before `Guard::new` returns. -/
@[simp] theorem enter_collectors : (s.enter c).collectors = s.collectors := rfl

/-- A new guard does not concern the collectors of other threads. -/
@[simp] theorem enter_foreign : (s.enter c).foreign = s.foreign := rfl

/-- A new guard allocates no collector. -/
@[simp] theorem enter_nextCollector : (s.enter c).nextCollector = s.nextCollector := rfl

/-- A new guard leaves the thread its collector. -/
@[simp] theorem enter_localCollector : (s.enter c).localCollector = s.localCollector := rfl

/-- The new guard refers to the collector that it was created with. -/
@[simp] theorem enter_guards : (s.enter c).guards = (s.nextGuard, c) :: s.guards := rfl

/-- The calls in progress stay when a guard is there. -/
@[simp] theorem enter_stack : (s.enter c).stack = s.stack := rfl

/-- A new guard is not an assertion. -/
@[simp] theorem enter_fault : (s.enter c).fault = s.fault := rfl

end

/-- The thread runs user code. -/
def user (s : State) : Bool :=
  match s.stack with
  | [] | .destructor _ :: _ => true
  | _ => false

/-- `Collector::alloc` -/
def alloc (s : State) : State :=
  { s with
      collectors := Function.update s.collectors s.nextCollector .new
      nextCollector := s.nextCollector + 1
      localCollector := some s.nextCollector }

/-- `Collector::current`, which allocates a collector when there is none. -/
def current (s : State) : State × CollectorId :=
  match s.localCollector with
  | some c => (s, c)
  | none => (s.alloc, s.nextCollector)

/-- `Collector::new_guard`, up to the load of the global epoch, or to the end for a guard that
is not the first one. -/
def newGuard (s : State) (c : CollectorId) (newEpoch : Epoch) : State :=
  let k := s.collectors c
  if k.numReaders = 0 then
    ((s.assert k.state.inactive).modify c fun k => { k with numReaders := 1 }).goto
      (.newGuard c newEpoch :: s.stack)
  else if k.numReaders = Collector.MAX_READERS then
    -- "Too many EBR guards"
    { s.assert (!k.state.inactive) with refused := s.refused + 1 }
  else
    ((s.assert (!k.state.inactive)).modify c fun k =>
      { k with numReaders := k.numReaders + 1 }).enter c

/-- The first two assertions of `end_guard` and of `epoch_updated`. -/
def published (k : Collector) : Bool :=
  !k.state.inactive && k.state == ⟨k.announcement, false, false⟩

/-- `Collector::epoch_updated`, up to its loop. `callers` is the stack below `new_guard`. -/
def epochUpdated (s : State) (c : CollectorId) (callers : List Frame) : State :=
  let k := s.collectors c
  let s := s.assert (published k)
  if k.hasGarbage then
    (s.modify c .rotate).goto (.epochUpdated c k.nextInstanceLink :: callers)
  else
    ((s.modify c fun k => { k with nextEpochUpdate := Collector.CADENCE }).goto callers).enter c

/-- `Collector::new_guard` from the publication of the epoch on. -/
def publish (s : State) (c : CollectorId) (newEpoch : Epoch) (callers : List Frame) : State :=
  let s := s.modify c fun k => { k with state := ⟨newEpoch, false, false⟩ }
  if (s.collectors c).announcement = newEpoch then
    (s.goto callers).enter c
  else
    (s.modify c fun k => { k with announcement := newEpoch }).epochUpdated c callers

/-- `Collector::end_guard`, up to the scan or to the last store. -/
def endGuard (s : State) (c : CollectorId) (marked : Bool) : State :=
  let k := s.collectors c
  let s := s.assert (published k)
  if k.numReaders = 1 then
    let s := s.modify c fun k => { k with numReaders := 0 }
    if k.nextEpochUpdate = 0 then
      (s.assert (!k.state.invalid)).goto (.scan c :: s.stack)
    else if k.hasGarbage || marked then
      ((s.assert (k.nextEpochUpdate != 0)).modify c fun k =>
        { k with nextEpochUpdate := k.nextEpochUpdate - 1 }).goto (.setInactive c :: s.stack)
    else
      s.goto (.setInactive c :: s.stack)
  else
    (s.assert (k.numReaders != 0)).modify c fun k => { k with numReaders := k.numReaders - 1 }

/-- The drop of a box begins: a destructor, or `clear_for_drop` for a collector. -/
def dropBox : Garbage → Frame
  | .inst i => .destructor i
  | .collector d => .clearForDrop d []

/-- The next turn of a loop of the collector, or the return from a destructor. -/
def proceed (s : State) : Option State :=
  match s.stack with
  | [] => none
  | .newGuard c newEpoch :: callers => some (s.publish c newEpoch callers)
  | .epochUpdated c [] :: callers =>
    some (((s.modify c fun k => { k with nextEpochUpdate := Collector.CADENCE }).goto
      callers).enter c)
  | .epochUpdated c (x :: link) :: callers =>
    some (s.goto (dropBox x :: .epochUpdated c link :: callers))
  | .clearForDrop d [] :: callers =>
    if (s.collectors d).garbage = [] then
      some (s.goto callers)
    else
      some ((s.modify d .cleared).goto (.clearForDrop d (s.collectors d).garbage :: callers))
  | .clearForDrop d (x :: link) :: callers =>
    some (s.goto (dropBox x :: .clearForDrop d link :: callers))
  | .destructor _ :: callers => some (s.goto callers)
  | .scan c :: callers =>
    some ((s.modify c fun k => { k with nextEpochUpdate := Collector.CADENCE }).goto
      (.setInactive c :: callers))
  | .setInactive c :: callers =>
    some ((s.modify c fun k => { k with state := ⟨k.announcement, true, false⟩ }).goto callers)

/-- `Collector::pass_garbage`, and what it returns. -/
def passGarbage (s : State) : State × Bool :=
  match s.localCollector with
  | none => (s, true)
  | some c =>
    if (s.collectors c).numReaders ≠ 0 then
      (s, false)
    else if (s.collectors c).hasGarbage then
      ({ s.modify c fun k => { k with state := { k.state with invalid := true } } with
          localCollector := none }, true)
    else
      (s, true)

/-- The frames that a panic takes from the stack, up to `epoch_updated`: its collector, what is
left in `garbage_link`, and the stack below `new_guard`. -/
def unwind : List Frame → Option (CollectorId × List Garbage × List Frame)
  | .destructor _ :: callers | .clearForDrop _ _ :: callers => unwind callers
  | .epochUpdated c link :: callers => some (c, link, callers)
  | _ => none

/-- A destructor panics: `epoch_updated` collects again what it has not dropped, and `new_guard`
ends the guard. -/
def panic (s : State) (marked : Bool) : Option State :=
  match s.stack with
  | .destructor _ :: callers => (unwind callers).map fun (c, link, below) =>
    ((s.modify c fun k => link.foldl Collector.collect k).goto below).endGuard c marked
  | _ => none

/-- The collector of a live guard. -/
def guard (s : State) (g : GuardId) : Option CollectorId := s.guards.lookup g

/-- One action; `none` when it is not possible. -/
def step (s : State) : Act → Option State
  | .newGuard epoch => if s.user then some (s.current.1.newGuard s.current.2 epoch) else none
  | .endGuard g marked =>
    if s.user then
      (s.guard g).map fun c =>
        { s with guards := s.guards.erase (g, c) }.endGuard c marked
    else
      none
  | .collect =>
    if s.user then
      some { s.current.1.modify s.current.2 (·.collect (.inst s.nextInst)) with
        nextInst := s.nextInst + 1 }
    else
      none
  | .deferExecute g =>
    if s.user then
      (s.guard g).map fun c =>
        { s.modify c (·.collect (.inst s.nextInst)) with nextInst := s.nextInst + 1 }
    else
      none
  | .accelerate g =>
    if s.user then
      (s.guard g).map fun c => s.modify c fun k => { k with nextEpochUpdate := 0 }
    else
      none
  | .setHasGarbage g =>
    if s.user then
      (s.guard g).map fun c => s.modify c fun k => { k with hasGarbage := true }
    else
      none
  | .passGarbage => if s.user then some s.passGarbage.1 else none
  | .proceed => s.proceed
  | .panic marked => s.panic marked
  | .unlink d =>
    match s.stack with
    | .scan c :: _ =>
      if d ≠ c ∧ (s.collectors d).state.invalid = true then
        some (s.modify c (·.collect (.collector d)))
      else
        none
    | _ => none
  | .other d k => if d < s.foreign then some (s.modify d fun _ => k) else none

end State

end Sdd.Nesting
