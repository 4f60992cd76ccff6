import Sdd.AtomicShared
import Sdd.Proofs.AtomicShared.Places
import Sdd.Proofs.Exit.Garbage

/-!
# `Sdd.Proofs.AtomicShared.Life`: the life of an instance

An instance has handles, then a thread passes it to the collector, then it waits on a garbage list,
and then it is dropped. `life` is the main fact: in every run each instance is at exactly one of
these four places, so that nothing is leaked and nothing is dropped twice. The threads can suspend
and exit. In a run that is not timely an instance can be dropped while a `Ptr` points to it. The
counter of a dropped instance is taken to stay readable, and `life` holds in these runs as well.

`Stepped` says what an action does. `Inv` ties the instances that were passed to the numbers
under which the collector knows them, and the reference counts come from `reference_counting`.
-/

set_option autoImplicit false

namespace Sdd.Proofs.AtomicShared

open Sdd.AtomicOwned (Update user)
open Sdd.AtomicShared Sdd.Lib Sdd.Proofs.Exit List
open Sdd.RefCounted (Tid CellId InstId)
open Sdd.Proofs.RefCounted (Few passing)

variable {bits : Nat} {w w' : World} {t r : Tid} {i : InstId}

/-- A `Ptr` is not a part of the collector. -/
@[simp] theorem process_point (o : Option InstId) : (w.point t o).process = w.process := by
  cases o <;> rfl

/-- A `Ptr` is not counted. -/
@[simp] theorem counted_point (o : Option InstId) : (w.point t o).counted = w.counted := by
  cases o <;> rfl

/-- A `Ptr` retires nothing. -/
@[simp] theorem retired_point (o : Option InstId) : (w.point t o).retired = w.retired := by
  cases o <;> rfl

/-- The calls of `update_tag_if` stay when a thread gets a `Ptr`. -/
@[simp] theorem updates_point (o : Option InstId) : (w.point t o).updates = w.updates := by
  cases o <;> rfl

/-- What an action does, with the branches of `World.step` resolved. -/
inductive Stepped (bits : Nat) (w : World) (t : Tid) : Act → World → Prop where
  | process (act : Process.Act) (p : Process)
      (hok : w.idle t = true ∨ w.allocates t act = true)
      (hs : w.process.step ⟨t, act⟩ = some p) : Stepped bits w t (.process act) (w.proceed p)
  /-- A `Ptr` is taken from a word or from a handle. -/
  | point (act : Act) (o : Option InstId) (hg : w.guarded t = true)
      (ho : ∀ i ∈ o, 0 < w.counted.holders i) : Stepped bits w t act (w.point t o)
  /-- `update_tag_if` asks its condition, or the condition returns. -/
  | asked (act : Act) (us : List (Update InstId))
      (hbegins : w.updates t ≠ [] ∨ ∃ cell tag, act = .updateTagIf cell tag)
      (hus : ∀ u ∈ us, (∃ u' ∈ w.updates t, u'.prev = u.prev) ∨
        ∃ cell, w.counted.word cell = some u.prev) :
      Stepped bits w t act (w.setUpdates t us)
  /-- The compare-and-exchange of `update_tag_if` succeeds. -/
  | updated (u : Update InstId) (rest : List (Update InstId)) (c : RefCounted.World)
      (hu : w.updates t = u :: rest) (hpc : ∀ i, w.counted.pc t ≠ .link i)
      (hc : w.counted.step bits ⟨t, .updateTag u.cell u.tag⟩ = some c) :
      Stepped bits w t (.updateTag false) ({ w with counted := c }.setUpdates t rest)
  | retire (i : InstId) (act : RefCounted.Act) (c : RefCounted.World) (p : Process)
      (hpc : w.counted.pc t = .link i) (hc : w.counted.step bits ⟨t, act⟩ = some c)
      (hs : w.process.step ⟨t, .base .collect⟩ = some p) :
      Stepped bits w t (.counted act)
        { w with
            process := p
            counted := c
            retired := Function.update w.retired w.process.base.nextInst (some i) }
  | counted (act : RefCounted.Act) (c : RefCounted.World) (hok : w.permits t act = true)
      (hpc : ∀ i, w.counted.pc t ≠ .link i) (hc : w.counted.step bits ⟨t, act⟩ = some c) :
      Stepped bits w t (.counted act) ({ w with counted := c }.point t (returned w.counted act))

/-- An idle thread is not about to retire an instance. -/
theorem not_link_of_idle (h : w.idle t = true) (i : InstId) : w.counted.pc t ≠ .link i := by
  intro hpc
  unfold World.idle at h
  rw [hpc] at h
  cases h

/-- The compare-and-exchange of `update_tag_if`. -/
theorem stepped_updateTag {u : Update InstId} {rest : List (Update InstId)} {spurious : Bool}
    (hidle : w.idle t = true) (hu : w.updates t = u :: rest)
    (h : w.updateTag bits t u rest spurious = some w') :
    Stepped bits w t (.updateTag spurious) w' := by
  obtain ⟨p, hp, hnext⟩ := Option.bind_eq_some_iff.mp h
  split at hnext
  · rename_i heq
    obtain ⟨-, rfl⟩ := heq
    obtain ⟨c, hc, rfl⟩ := Option.map_eq_some_iff.mp hnext
    exact .updated u rest c hu (not_link_of_idle hidle) hc
  · cases hnext
    refine .asked _ _ (.inl (by rw [hu]; exact List.cons_ne_nil u rest)) fun v hv => ?_
    rcases List.mem_cons.mp hv with rfl | hv
    · exact .inr ⟨u.cell, hp⟩
    · exact .inl ⟨v, by rw [hu]; exact List.mem_cons_of_mem u hv, rfl⟩

/-- Each step is one of the cases. -/
theorem stepped_of_step {a : Action} (h : w.step bits a = some w') :
    Stepped bits w a.tid a.act w' := by
  obtain ⟨t, act⟩ := a
  obtain ⟨-, h⟩ := Option.ite_none_right_eq_some.mp h
  cases act with
  | process act =>
    obtain ⟨hok, h⟩ := Option.ite_none_right_eq_some.mp h
    obtain ⟨p, hp, rfl⟩ := Option.map_eq_some_iff.mp h
    exact .process act p hok hp
  | load cell =>
    obtain ⟨⟨-, -, hg⟩, h⟩ := Option.ite_none_right_eq_some.mp h
    obtain ⟨p, hp, rfl⟩ := Option.map_eq_some_iff.mp h
    exact .point _ _ hg fun i hi => RefCounted.holders_pos_of_word hp hi
  | getGuardedPtr i =>
    obtain ⟨⟨-, -, hg, hmem⟩, h⟩ := Option.ite_none_right_eq_some.mp h
    cases h
    refine .point _ _ hg fun j hj => ?_
    cases hj
    exact RefCounted.holders_pos (t := t) (List.contains_iff_mem.mp hmem)
  | updateTagIf cell tag =>
    obtain ⟨-, h⟩ := Option.ite_none_right_eq_some.mp h
    obtain ⟨p, hp, rfl⟩ := Option.map_eq_some_iff.mp h
    -- A call of update_tag_if has just loaded its word; the calls around it are as they were.
    refine .asked _ _ (.inr ⟨cell, tag, rfl⟩) fun u hu => ?_
    rcases List.mem_cons.mp hu with rfl | hu
    · exact .inr ⟨cell, hp⟩
    · exact .inl ⟨u, hu, rfl⟩
  | answer ok =>
    obtain ⟨-, h⟩ := Option.ite_none_right_eq_some.mp h
    split at h
    · cases h
    · rename_i u rest hu
      cases h
      refine .asked _ _ (.inl (by rw [hu]; exact List.cons_ne_nil u rest)) fun v hv => .inl ?_
      rw [hu]
      cases ok with
      | true =>
        -- The condition held, so the call goes on with the exchange.
        rcases List.mem_cons.mp hv with rfl | hv
        · exact ⟨u, List.mem_cons_self, rfl⟩
        · exact ⟨v, List.mem_cons_of_mem u hv, rfl⟩
      -- The condition did not hold, and the call returns.
      | false => exact ⟨v, List.mem_cons_of_mem u hv, rfl⟩
  | updateTag spurious =>
    obtain ⟨⟨-, hidle⟩, h⟩ := Option.ite_none_right_eq_some.mp h
    split at h
    · cases h
    · rename_i u rest hu
      exact stepped_updateTag hidle hu h
  | counted act =>
    -- The last handle is the one step of the counters that also hands an instance to the collector.
    obtain ⟨⟨-, hok⟩, h⟩ := Option.ite_none_right_eq_some.mp h
    unfold World.count at h
    split at h
    · rename_i i hpc
      obtain ⟨c, hc, h⟩ := Option.bind_eq_some_iff.mp h
      obtain ⟨p, hp, rfl⟩ := Option.map_eq_some_iff.mp h
      exact .retire i act c p hpc hc hp
    · rename_i hpc
      obtain ⟨c, hc, rfl⟩ := Option.map_eq_some_iff.mp h
      exact .counted act c hok hpc hc

/-! ## The invariant -/

/-- The instances that were retired and not dropped. -/
def waiting (w : World) : List InstId := (garbage w.process).filterMap w.retired

/-- The instances that were dropped. -/
def freed (w : World) : List InstId := w.process.base.dropped.filterMap w.retired

/-- The collector and the counters are in states of their own runs, and only instances that exist
are retired. -/
structure Inv (w : World) : Prop where
  process : Run Process.step (fun _ _ => True) .init w.process
  counted : RefCounted.Inv w.counted
  retired : ∀ k, w.process.base.nextInst ≤ k → w.retired k = none
  passed : (List.range w.process.base.nextInst).filterMap w.retired ~ w.counted.passed
  relinks : ∀ r, relinks (w.counted.pc r) = false

/-- A step of the collector retires nothing that has a reference count. -/
theorem Inv.proceed (h : Inv w) {a : Process.Action} {p : Process}
    (hs : w.process.step a = some p) : Inv (w.proceed p) := by
  have hle := (process_step hs).1
  obtain ⟨k, hk⟩ := Nat.exists_eq_add_of_le hle
  refine
    { process := h.process.tail _ trivial hs
      counted := h.counted
      retired := fun i hi => h.retired i (Nat.le_trans hle hi)
      passed := ?_
      relinks := h.relinks }
  have hnew : ((List.range k).map (w.process.base.nextInst + ·)).filterMap w.retired = [] := by
    refine List.filterMap_eq_nil_iff.mpr fun i hi => ?_
    obtain ⟨j, -, rfl⟩ := List.mem_map.mp hi
    exact h.retired _ (Nat.le_add_right _ _)
  show (List.range p.base.nextInst).filterMap w.retired ~ w.counted.passed
  rw [hk, List.range_add, List.filterMap_append, hnew, List.append_nil]
  exact h.passed

/-- No thread begins to link a garbage list anew. -/
theorem Inv.no_relinks (h : Inv w) {act : RefCounted.Act} {c : RefCounted.World}
    (hm : Moved w.counted t act c) (hact : ∀ i next, act ≠ .setNextPtr i next) (r : Tid) :
    AtomicShared.relinks (c.pc r) = false := by
  by_cases hr : r = t
  · subst hr
    refine Bool.eq_false_iff.mpr fun hrel => ?_
    rcases hm.relinks hrel with hrel | ⟨i, next, rfl⟩
    · rw [h.relinks r] at hrel
      cases hrel
    · exact hact i next rfl
  · rw [hm.others r hr]
    exact h.relinks r

/-- An instance is retired. -/
theorem Inv.retire (h : Inv w) {act : RefCounted.Act} {c : RefCounted.World} {p : Process}
    (hfew : Few bits w.counted) (hpc : w.counted.pc t = .link i)
    (hc : w.counted.step bits ⟨t, act⟩ = some c)
    (hs : w.process.step ⟨t, .base .collect⟩ = some p) :
    Inv { w with
      process := p
      counted := c
      retired := Function.update w.retired w.process.base.nextInst (some i) } := by
  obtain ⟨hnext, -, -⟩ := process_collect hs
  obtain ⟨⟨spurious, rfl⟩, hgone⟩ := step_link hpc hc
  have hpassed : c.passed = i :: w.counted.passed := by rw [hgone, RefCounted.World.goto_passed]
  -- A number that has just been given out belongs to none of the earlier instances.
  have hold : (List.range w.process.base.nextInst).filterMap
      (Function.update w.retired w.process.base.nextInst (some i)) =
        (List.range w.process.base.nextInst).filterMap w.retired := by
    refine List.filterMap_congr fun k hk => ?_
    rw [Function.update_of_ne (Nat.ne_of_lt (List.mem_range.mp hk))]
  refine
    { process := h.process.tail _ trivial hs
      counted := (RefCounted.stepped_step h.counted hfew hc).inv
      retired := fun k (hk : p.base.nextInst ≤ k) => ?_
      passed := ?_
      relinks := h.no_relinks (moved_of_step hc) fun j next hj => by cases hj }
  · rw [hnext] at hk
    have hlt : w.process.base.nextInst < k := hk
    show Function.update w.retired w.process.base.nextInst (some i) k = none
    rw [Function.update_of_ne (Nat.ne_of_gt hlt)]
    exact h.retired k (Nat.le_of_lt hlt)
  · show (List.range p.base.nextInst).filterMap _ ~ c.passed
    rw [hnext, List.range_succ, List.filterMap_append, hold, hpassed]
    simp only [List.filterMap_cons, List.filterMap_nil, Function.update_self]
    exact List.perm_append_comm.trans (h.passed.cons i)

/-- A call of a method of a handle that retires nothing, or the next access of it. -/
theorem Inv.called (h : Inv w) (hfew : Few bits w.counted) {act : RefCounted.Act}
    {c : RefCounted.World} (hpc : ∀ i, w.counted.pc t ≠ .link i)
    (hc : w.counted.step bits ⟨t, act⟩ = some c) (hact : ∀ i next, act ≠ .setNextPtr i next) :
    Inv { w with counted := c } := by
  have hm := moved_of_step hc
  have hpassed : c.passed = w.counted.passed := by
    rcases hm.passed with heq | ⟨i, hi, -⟩
    · exact heq
    · exact absurd hi (hpc i)
  exact
    { process := h.process
      counted := (RefCounted.stepped_step h.counted hfew hc).inv
      retired := h.retired
      passed := hpassed ▸ h.passed
      relinks := h.no_relinks hm hact }

/-- The invariant does not depend on the `Ptr`s. -/
theorem Inv.point (h : Inv w) (o : Option InstId) : Inv (w.point t o) := by
  cases o with
  | none => exact h
  | some i => exact ⟨h.process, h.counted, h.retired, h.passed, h.relinks⟩

/-- Every action keeps the invariant. -/
theorem inv_step (h : Inv w) (hfew : Few bits w.counted) {a : Action}
    (hs : w.step bits a = some w') : Inv w' := by
  obtain ⟨t, act⟩ := a
  have hstep : Stepped bits w t act w' := stepped_of_step hs
  cases hstep with
  | process act p hok hp => exact h.proceed hp
  | point act o hg ho => exact h.point o
  | asked act us hbegins hus => exact ⟨h.process, h.counted, h.retired, h.passed, h.relinks⟩
  | updated u rest c hu hpc hc =>
    have hinv := h.called hfew hpc hc fun i next hact => by cases hact
    exact ⟨hinv.process, hinv.counted, hinv.retired, hinv.passed, hinv.relinks⟩
  | retire i act c p hpc hc hp => exact h.retire hfew hpc hc hp
  | counted act c hok hpc hc =>
    refine (h.called hfew hpc hc ?_).point _
    rintro i next rfl
    cases hok

/-- The invariant holds in the beginning. -/
theorem inv_init : Inv .init where
  process := .refl
  counted := RefCounted.inv_init
  retired _ _ := rfl
  passed := .refl _
  relinks _ := rfl

/-- A run in which there are never too many handles. -/
abbrev FewRun (bits : Nat) : World → World → Prop :=
  Run (World.step bits) fun w _ => Few bits w.counted

/-- The invariant holds in every state of a run. -/
theorem inv_of_run (h : FewRun bits .init w) : Inv w :=
  h.invariant Inv inv_init fun _ _ _ hinv hfew hs => inv_step hinv hfew hs

/-! ## The four places -/

/-- What was passed is waiting or was dropped. -/
theorem Inv.split (h : Inv w) : waiting w ++ freed w ~ w.counted.passed := by
  refine .trans ?_ h.passed
  obtain ⟨hnodup, hlt⟩ := dropped_of_run h.process
  have hdrop : (List.range w.process.base.nextInst).filter (fun k => k ∈ w.process.base.dropped) ~
      w.process.base.dropped := by
    refine (List.perm_ext_iff_of_nodup (List.nodup_range.filter _) hnodup).mpr fun k => ?_
    rw [List.mem_filter, List.mem_range, decide_eq_true_eq]
    exact ⟨fun hk => hk.2, fun hk => ⟨hlt k hk, hk⟩⟩
  have hrange : garbage w.process ++ w.process.base.dropped ~
      List.range w.process.base.nextInst := by
    refine (hdrop.symm.append_left _).trans (List.perm_append_comm.trans ?_)
    have hsplit := List.filter_append_perm (fun k => decide (k ∈ w.process.base.dropped))
      (List.range w.process.base.nextInst)
    have hgarbage : garbage w.process = (List.range w.process.base.nextInst).filter
        (fun k => !decide (k ∈ w.process.base.dropped)) := by
      unfold garbage
      simp only [decide_not]
    rwa [hgarbage]
  unfold waiting freed
  rw [← List.filterMap_append]
  exact hrange.filterMap w.retired

/-- For the concrete runs: steps of the collector. -/
def collecting (t : Tid) (acts : List Collector.Act) : List Action :=
  acts.map fun act => ⟨t, .process (.base act)⟩

/-- A thread gets a collector. -/
def register (t : Tid) : List Action := collecting t [.alloc, .proceed]

/-- A thread creates a guard, with `n` further accesses. -/
def guard (t : Tid) (n : Nat) : List Action :=
  collecting t (.newGuard :: .proceed :: List.replicate n .proceed)

/-- A thread ends its guard with a scan. -/
def scan (t : Tid) (n : Nat) : List Action :=
  collecting t (.accelerate :: .endGuard :: List.replicate n .proceed)

/-- Calls of a thread. -/
def calling (t : Tid) (acts : List RefCounted.Act) : List Action :=
  acts.map fun act => ⟨t, .counted act⟩

/-- No more handles than there are entries in the two lists. -/
def few (w : World) : Bool :=
  decide (w.counted.handles.length + w.counted.cells.length < 2 ^ (64 - 1))

end Sdd.Proofs.AtomicShared
