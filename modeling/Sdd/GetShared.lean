import Sdd.RefCounted

/-!
# `Sdd.GetShared`: `AtomicShared::get_shared` and `AtomicShared::clone`

The two functions of `atomic_shared.rs` that make a new handle out of an `AtomicShared`, on
top of `Sdd.RefCounted`. There the retry loop of `get_shared` is the places `getShared`,
`tryAddRefLoad` and `tryAddRef` of a thread. A `State` adds the calls in progress and the
answers of the calls that have returned.

A `Call` has, next to its arguments, the word it has loaded last, and the history that its
answer is compared with: every word that `self` has held since the invocation, the latest
first. `clone` is `get_shared` and then, without a further access to a shared word,
`AtomicShared::from` or `AtomicShared::null`.
-/

set_option autoImplicit false

namespace Sdd.GetShared

open Sdd.RefCounted (Tid InstId CellId World Pc)

/-- A call of `get_shared` in progress. -/
structure Call where
  /-- `self`: the cell that the handle is taken from. -/
  self : CellId
  /-- The call was made by `AtomicShared::clone`. -/
  clone : Bool
  /-- The word that was loaded last. -/
  loaded : Option (Ptr InstId)
  /-- The words that `self` has held since the invocation. -/
  held : List (Ptr InstId)
  deriving DecidableEq, Repr

/-- A call that has returned. -/
structure Answer where
  tid : Tid
  call : Call
  /-- What `get_shared` returned: the instance of the `Shared`. -/
  got : Option InstId
  /-- The word of the `AtomicShared` that `clone` returned. -/
  word : Option (Ptr InstId)
  deriving DecidableEq, Repr

/-- The world, what each call of `get_shared` or `clone` has seen, and the answers. -/
structure State where
  world : World
  calls : Tid → Option Call
  /-- The answers, the latest first. -/
  answers : List Answer

/-- An action of the world, or a call of one of the two methods. -/
inductive Act where
  /-- An action of `RefCounted`; `getShared` is the call of `get_shared`. -/
  | world (act : RefCounted.Act)
  /-- `AtomicShared::clone`. -/
  | clone (cell : CellId)

/-- A thread acts. -/
structure Action where
  tid : Tid
  act : Act

/-- A load that is a part of the call, or none. -/
def Call.load (c : Call) (p : Option (Ptr InstId)) : Call := { c with loaded := p.or c.loaded }

/-- The call has seen the word that `self` holds. -/
def Call.see (c : Call) (w : World) : Call :=
  { c with held := (w.word c.self).toList ++ c.held }

/-- What `get_shared` returns when its last access was made at this place: the reference
that `try_add_ref` took, or `None` after the load of a null pointer. -/
def got : Pc → Option InstId
  | .tryAddRef i _ _ => some i
  | _ => none

namespace State

/-- No call is in progress. -/
def init : State := ⟨.init, fun _ => none, []⟩

/-- The word that the next access of the thread loads from `self`. -/
def loads (s : State) (t : Tid) : Option (Ptr InstId) :=
  match s.world.pc t with
  | .getShared cell => s.world.word cell
  | _ => none

/-- The thread has another call in progress, or none. -/
def setCall (s : State) (t : Tid) (c : Option Call) : State :=
  { s with calls := Function.update s.calls t c }

/-- The world has changed: every call in progress sees what `self` holds now. -/
def look (s : State) (w : World) : State :=
  { s with world := w, calls := fun t => (s.calls t).map fun c => c.see w }

section
variable (s : State) (w : World) (t : Tid) (c : Option Call)

/-- The calls are not a part of the world. -/
@[simp] theorem setCall_world : (s.setCall t c).world = s.world := rfl

/-- One thread has another call in progress. -/
@[simp] theorem setCall_calls : (s.setCall t c).calls = Function.update s.calls t c := rfl

/-- The state has the new world. -/
@[simp] theorem look_world : (s.look w).world = w := rfl

/-- Each call in progress has seen the new world. -/
@[simp] theorem look_calls : (s.look w).calls t = (s.calls t).map fun c => c.see w := rfl

end

/-- The state after the next access of a thread. -/
def advance (s : State) (w : World) (t : Tid) : State :=
  (s.setCall t ((s.calls t).map fun c => c.load (s.loads t))).look w

/-- The invocation of `get_shared`, by the user or by `clone`. -/
def invoke (s : State) (w : World) (t : Tid) (cell : CellId) (clone : Bool) : State :=
  (s.setCall t (some ⟨cell, clone, none, []⟩)).look w

/-- The return from `get_shared`, and from `clone` when that made the call. -/
def answer (s : State) (t : Tid) (c : Call) (got : Option InstId) : Option State :=
  if c.clone then
    -- `map_or_else(Self::null, |s| Self::from(s))`
    (s.world.call t (got.elim .null .from)).map fun w =>
      { (s.setCall t none).look w with
          answers := ⟨t, c, got, w.word s.world.cells.length⟩ :: s.answers }
  else
    some { s.setCall t none with answers := ⟨t, c, got, none⟩ :: s.answers }

/-- The call returns when the thread has left the places of `get_shared`. -/
def finish (s : State) (t : Tid) (got : Option InstId) : Option State :=
  match s.calls t, s.world.pc t with
  | some c, .idle => s.answer t c got
  | _, _ => some s

/-- One action of one thread; `none` when the thread cannot take it. -/
def step (bits : Nat) (s : State) (a : Action) : Option State :=
  match a.act with
  | .clone cell =>
    (s.world.step bits ⟨a.tid, .getShared cell⟩).map fun w => s.invoke w a.tid cell true
  | .world (.getShared cell) =>
    (s.world.step bits ⟨a.tid, .getShared cell⟩).map fun w => s.invoke w a.tid cell false
  | .world act =>
    (s.world.step bits ⟨a.tid, act⟩).bind fun w =>
      (s.advance w a.tid).finish a.tid (got (s.world.pc a.tid))

end State

end Sdd.GetShared
