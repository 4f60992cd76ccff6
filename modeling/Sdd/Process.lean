import Sdd.Collector

/-!
# `Sdd.Process`: threads that exit

The model of `CollectorAnchor::drop`, with `clear_chain` and `clear_for_drop`, on top of the
collector of `Sdd.Collector`. A `Process` holds the world of the collector, for each
thread the `Stage` of its life, and the collectors that were dropped.

A thread that exits marks its collector obsolete and puts a temporary collector in its
place. It frees the whole chain if every collector in it is obsolete, and asks for a scan
otherwise. What was retired in the meantime is on the lists of the temporary collector,
which `clear_for_drop` empties. The temporary collector is a `Collector` with an identity
of its own; it is never in the chain, and it is dropped at the end.

A destructor that runs in `CollectorAnchor::drop` is user code of a thread whose
`LOCAL_COLLECTOR` is the temporary collector. There the thread takes the steps of
`Sdd.Collector`: it retires instances, creates and drops guards, and so on; it only cannot
allocate a collector, as its `CollectorAnchor` is gone. Thus a thread can stand at a place of
the exit path and at a place of the collector at the same time, and it continues the exit
path when the latter is `idle`.

A guard that is leaked is a guard that its thread never drops. A thread can exit with it.
-/

set_option autoImplicit false

namespace Sdd

open Sdd.Collector

namespace Process

/-- The stage of the life of a thread. In `CollectorAnchor::drop` it says what the next
access is, with the local variables of the source; `temp` is the temporary collector. -/
inductive Stage where
  /-- The thread has not used its `CollectorAnchor` yet. -/
  | unused
  | live
  /-- `clear_chain`, before `lock_chain`. -/
  | lockChain (temp : CollectorId)
  /-- `clear_chain`, before the load of the state of `current`, or at the end of the walk. -/
  | walk (temp : CollectorId) (head current : Option CollectorId)
  /-- `clear_chain`, between the load of a collector's state and the load of its
  `next_link`. -/
  | walkNext (temp : CollectorId) (head : Option CollectorId) (current : CollectorId)
  /-- `clear_chain`, before the next collector is freed. -/
  | free (temp : CollectorId) (current : Option CollectorId)
  /-- `clear_chain`, before the next instance of a collector that is freed is dropped. -/
  | drop (temp : CollectorId) (garbage : List Garbage) (next : Option CollectorId)
  /-- `clear_chain`, inside the destructor of an instance. -/
  | dropping (temp : CollectorId) (garbage : List Garbage) (next : Option CollectorId)
  /-- `clear_chain`, before `unlock_chain`. -/
  | unlockChain (temp : CollectorId) (cleared : Bool)
  /-- Before `mark_scan_enforced`. -/
  | markScanEnforced (temp : CollectorId)
  /-- `clear_for_drop` on the temporary collector, before it takes the three lists. -/
  | clear (temp : CollectorId)
  /-- `clear_for_drop`, before the next instance is dropped. -/
  | clearDrop (temp : CollectorId) (garbage : List Garbage)
  /-- `clear_for_drop`, inside the destructor of an instance. -/
  | clearDropping (temp : CollectorId) (garbage : List Garbage)
  | done
  deriving DecidableEq

namespace Stage

/-- The temporary collector of a thread that exits. -/
def temp : Stage → Option CollectorId
  | .unused | .live | .done => none
  | .lockChain c | .walk c _ _ | .walkNext c _ _ | .free c _ | .drop c _ _ | .dropping c _ _
  | .unlockChain c _ | .markScanEnforced c | .clear c | .clearDrop c _ | .clearDropping c _ =>
    some c

/-- The thread runs user code: it has not begun to exit, or it is in a destructor. -/
def user : Stage → Bool
  | .unused | .live | .dropping _ _ _ | .clearDropping _ _ => true
  | _ => false

end Stage

end Process

/-- The collector with the exit of threads: `base` is the collector, and `stage` says how far each
thread has come in its life. -/
structure Process where
  base : World
  stage : Tid → Process.Stage
  /-- The collectors that were dropped, the latest first. -/
  freed : List CollectorId

namespace Process

/-- What a thread does next. -/
inductive Act where
  /-- A step of the collector. -/
  | base (act : Collector.Act)
  /-- `CollectorAnchor::drop` begins. -/
  | exit
  /-- The next access of `CollectorAnchor::drop`. -/
  | proceed
  deriving DecidableEq, Repr

/-- A thread acts. -/
structure Action where
  tid : Tid
  act : Act
  deriving DecidableEq, Repr

/-- `Collector::default()` with the state `INACTIVE`. -/
def tempCollector : Collector := { Collector.new with nextEpochUpdate := 0 }

/-- No thread has used the collector. -/
def init : Process := ⟨.init, fun _ => .unused, []⟩

/-- The thread goes to another stage. -/
def goto (w : Process) (t : Tid) (stage : Stage) : Process :=
  { w with stage := Function.update w.stage t stage }

/-- The collector has taken a step. -/
def withBase (w : Process) (base : World) : Process := { w with base := base }

section
variable (w : Process) (t : Tid) (s : Stage) (b : World)

/-- The collector does not see the stages of the threads. -/
@[simp] theorem goto_base : (w.goto t s).base = w.base := rfl

/-- One thread is at another stage. -/
@[simp] theorem goto_stage : (w.goto t s).stage = Function.update w.stage t s := rfl

/-- A thread that goes to another stage drops no collector. -/
@[simp] theorem goto_freed : (w.goto t s).freed = w.freed := rfl

/-- The state of the collector after its step. -/
@[simp] theorem withBase_base : (w.withBase b).base = b := rfl

/-- A step of the collector leaves the stages alone. -/
@[simp] theorem withBase_stage : (w.withBase b).stage = w.stage := rfl

/-- A step of the collector drops no collector; `clear_chain` does. -/
@[simp] theorem withBase_freed : (w.withBase b).freed = w.freed := rfl

end

/-- The collector that a step of `epoch_updated` drops. -/
def dropped (b : World) (t : Tid) : Collector.Act → List CollectorId
  | .proceed =>
    match b.pc t with
    | .drain _ (.collector d :: _) => [d]
    | _ => []
  | _ => []

/-- The stage after a step of the collector: `alloc` uses the `CollectorAnchor`. -/
def used : Stage → Collector.Act → Stage
  | .unused, .alloc => .live
  | s, _ => s

/-- A thread takes a step of the collector. -/
def stepBase (w : Process) (t : Tid) (act : Collector.Act) : Option Process :=
  if (w.stage t).user ∧ ((w.stage t).temp ≠ none → act ≠ .alloc) then
    (w.base.step ⟨t, act⟩).map fun b =>
      { base := b
        stage := Function.update w.stage t (used (w.stage t) act)
        freed := dropped w.base t act ++ w.freed }
  else
    none

/-- `CollectorAnchor::drop`, up to the call of `clear_chain`: the own collector becomes
obsolete, and a temporary one takes its place. -/
def exit (w : Process) (t : Tid) : Process :=
  let b :=
    match w.base.localCollector t with
    | none => w.base
    | some c => w.base.modify c fun k => { k with state := { k.state with invalid := true } }
  (w.withBase { b with
    collectors := Function.update b.collectors b.nextCollector tempCollector
    nextCollector := b.nextCollector + 1
    localCollector := Function.update b.localCollector t (some b.nextCollector) }).goto t
      (.lockChain w.base.nextCollector)

/-- A collector is dropped: its lists are taken. -/
def drop (w : Process) (d : CollectorId) : Process :=
  { w with base := w.base.modify d .cleared, freed := d :: w.freed }

section
variable (w : Process) (d : CollectorId)

/-- A dropped collector has no garbage any more. -/
@[simp] theorem drop_base : (w.drop d).base = w.base.modify d .cleared := rfl

/-- A dropped collector leaves the stages alone. -/
@[simp] theorem drop_stage : (w.drop d).stage = w.stage := rfl

/-- The dropped collector comes first. -/
@[simp] theorem drop_freed : (w.drop d).freed = d :: w.freed := rfl

end

/-- `Collector::lock_chain` in `clear_chain`. -/
def lockChain (w : Process) (t : Tid) (temp : CollectorId) : Process :=
  if w.base.chainHead.tag = .first ∨ w.base.chainHead.tag = .both then
    w.goto t (.markScanEnforced temp)
  else
    (w.withBase { w.base with chainHead := w.base.chainHead.withTag .first }).goto t
      (.walk temp w.base.chainHead.addr w.base.chainHead.addr)

/-- One turn of the walk in `clear_chain`. At its end the whole chain is taken, unless
another collector was pushed in front. -/
def walk (w : Process) (t : Tid) (temp : CollectorId) (head : Option CollectorId) :
    Option CollectorId → Process
  | some d =>
    if (w.base.collectors d).state.invalid then
      w.goto t (.walkNext temp head d)
    else
      w.goto t (.unlockChain temp false)
  | none =>
    if w.base.chainHead.addr = head then
      (w.withBase { w.base with chainHead := ⟨none, w.base.chainHead.tag⟩ }).goto t
        (.free temp head)
    else
      w.goto t (.unlockChain temp false)

/-- One turn of the loop in `clear_chain` that frees the collectors. -/
def free (w : Process) (t : Tid) (temp : CollectorId) : Option CollectorId → Process
  | some d =>
    (w.drop d).goto t (.drop temp (w.base.collectors d).garbage (w.base.collectors d).nextLink)
  | none => w.goto t (.unlockChain temp true)

/-- The next piece of garbage is dropped: an instance runs its destructor, and a collector
has its own lists dropped first. `stage` is the place with the rest of the list. -/
def dropNext (w : Process) (t : Tid) (running destructor : List Garbage → Stage) (finished : Stage) :
    List Garbage → Process
  | [] => w.goto t finished
  | .inst i :: rest =>
    (w.withBase { w.base with dropped := i :: w.base.dropped }).goto t (destructor rest)
  | .collector d :: rest =>
    (w.drop d).goto t (running ((w.base.collectors d).garbage ++ rest))

/-- One turn of the loop in `clear_for_drop` on the temporary collector. When its lists are
empty, `CollectorAnchor::drop` ends. -/
def clear (w : Process) (t : Tid) (temp : CollectorId) : Process :=
  if (w.base.collectors temp).garbage = [] then
    { w.withBase { w.base with localCollector := Function.update w.base.localCollector t none } with
      freed := temp :: w.freed }.goto t .done
  else
    (w.withBase (w.base.modify temp .cleared)).goto t
      (.clearDrop temp (w.base.collectors temp).garbage)

/-- The next access of `CollectorAnchor::drop`. -/
def proceed (w : Process) (t : Tid) : Option Process :=
  match w.stage t with
  | .unused | .live | .done => none
  | .lockChain temp => some (w.lockChain t temp)
  | .walk temp head current => some (w.walk t temp head current)
  | .walkNext temp head d => some (w.goto t (.walk temp head (w.base.collectors d).nextLink))
  | .free temp current => some (w.free t temp current)
  | .drop temp garbage next =>
    some (w.dropNext t (.drop temp · next) (.dropping temp · next) (.free temp next) garbage)
  | .dropping temp garbage next => some (w.goto t (.drop temp garbage next))
  | .unlockChain temp cleared =>
    some ((w.withBase w.base.unlockChain).goto t
      (if cleared then .clear temp else .markScanEnforced temp))
  | .markScanEnforced temp => some ((w.withBase w.base.markScanEnforced).goto t (.clear temp))
  | .clear temp => some (w.clear t temp)
  | .clearDrop temp garbage =>
    some (w.dropNext t (.clearDrop temp) (.clearDropping temp) (.clear temp) garbage)
  | .clearDropping temp garbage => some (w.goto t (.clearDrop temp garbage))

/-- One action of one thread; `none` when the thread cannot take it. -/
def step (w : Process) (a : Action) : Option Process :=
  match a.act with
  | .base act => w.stepBase a.tid act
  | .exit => if w.stage a.tid = .live ∧ w.base.pc a.tid = .idle then some (w.exit a.tid) else none
  | .proceed => if w.base.pc a.tid = .idle then w.proceed a.tid else none

end Process

end Sdd
