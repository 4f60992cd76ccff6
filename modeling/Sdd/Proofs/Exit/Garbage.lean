import Sdd.Proofs.Exit.Ownership

/-!
# `Sdd.Proofs.Exit.Garbage`: what is retired and what is dropped

`garbage` lists the instances that were retired and not dropped. A step drops some of them, and
retires one at most (`process_step`, `garbage_step`, `process_collect`). No instance is dropped
twice (`dropped_of_run`). What lies on top of the collector needs no more than that.
-/

set_option autoImplicit false

namespace Sdd.Proofs.Exit

open Sdd.Collector Sdd.Lib List

variable {p p' : Process} {a : Process.Action}

/-- The instances that were retired and not dropped. -/
def garbage (p : Process) : List InstId :=
  (List.range p.base.nextInst).filter fun i => i ∉ p.base.dropped

/-- A step of the collector drops instances, and retires some. -/
theorem base_step {b b' : World} {a : Action} (h : b.step a = some b') :
    b.nextInst ≤ b'.nextInst ∧ b.dropped <:+ b'.dropped := by
  cases Proofs.move_of_step h with
  | drainInst c i rest hpc => exact ⟨Nat.le_refl _, List.suffix_cons _ _⟩
  | collect c hu => exact ⟨Nat.le_succ _, List.suffix_refl _⟩
  | _ => exact ⟨Nat.le_refl _, List.suffix_refl _⟩

/-- A step of the collector that a thread takes. -/
theorem base_of_process {t : Tid} {act : Collector.Act} (h : p.step ⟨t, .base act⟩ = some p') :
    p.base.step ⟨t, act⟩ = some p'.base := by
  obtain ⟨-, h⟩ := Option.ite_none_right_eq_some.mp h
  obtain ⟨b, hb, rfl⟩ := Option.map_eq_some_iff.mp h
  exact hb

/-- A step of a thread drops instances, and retires some. -/
theorem process_step (h : p.step a = some p') :
    p.base.nextInst ≤ p'.base.nextInst ∧ p.base.dropped <:+ p'.base.dropped := by
  cases move_of_step h with
  | base act b hu ha hs => exact base_step hs
  | loopInst running destructor finished hl i rest hs hpc =>
    exact ⟨Nat.le_refl _, List.suffix_cons _ _⟩
  | exit ha hs hpc =>
    unfold Process.exit
    split <;> exact ⟨Nat.le_refl _, List.suffix_refl _⟩
  | mark temp hs hpc =>
    show p.base.nextInst ≤ p.base.markScanEnforced.nextInst ∧
      p.base.dropped <:+ p.base.markScanEnforced.dropped
    unfold World.markScanEnforced
    split <;> exact ⟨Nat.le_refl _, List.suffix_refl _⟩
  | _ => exact ⟨Nat.le_refl _, List.suffix_refl _⟩

/-- No instance is dropped twice, and only retired ones are. -/
theorem dropped_of_run {P : Process → Process.Action → Prop} (h : Run Process.step P .init p) :
    p.base.dropped.Nodup ∧ ∀ i ∈ p.base.dropped, i < p.base.nextInst := by
  obtain ⟨g, hg, ho⟩ := owned_of_run h
  have hgone := List.nodup_append.mp (ho.forest.nodup .gone)
  refine ⟨hgone.1.of_map _, fun i hi => ?_⟩
  have hslot : Garbage.inst i ∈ slots p g .gone := dropped_iff.mpr hi
  exact (ho.listed (.inst i)).mp ⟨.gone, hslot⟩

/-- What a step drops leaves the garbage. -/
theorem garbage_step (hnodup : p'.base.dropped.Nodup)
    (hlt : ∀ i ∈ p'.base.dropped, i < p'.base.nextInst) (hle : p.base.nextInst ≤ p'.base.nextInst)
    {l : List InstId} (hl : p'.base.dropped = l ++ p.base.dropped) {B : Type} {f : InstId → Option B}
    (hf : ∀ i, p.base.nextInst ≤ i → f i = none) :
    l.filterMap f ++ (garbage p').filterMap f ~ (garbage p).filterMap f := by
  obtain ⟨k, hk⟩ := Nat.exists_eq_add_of_le hle
  -- The instances that exist now, less those that were dropped before the step.
  have hold : ((List.range p'.base.nextInst).filter fun i => i ∉ p.base.dropped).filterMap f =
      (garbage p).filterMap f := by
    rw [hk, List.range_add, List.filter_append, List.filterMap_append]
    have hnil : (((List.range k).map (p.base.nextInst + ·)).filter
        fun i => i ∉ p.base.dropped).filterMap f = [] := by
      refine List.filterMap_eq_nil_iff.mpr fun i hi => ?_
      obtain ⟨j, -, rfl⟩ := List.mem_map.mp (List.mem_of_mem_filter hi)
      exact hf _ (Nat.le_add_right _ _)
    rw [hnil, List.append_nil]
    rfl
  rw [← hold, ← List.filterMap_append]
  refine List.Perm.filterMap f ?_
  rw [hl] at hnodup hlt
  obtain ⟨hnl, -, hdisj⟩ := List.nodup_append.mp hnodup
  refine (List.perm_ext_iff_of_nodup ?_ (List.nodup_range.filter _)).mpr fun i => ?_
  · refine List.nodup_append.mpr ⟨hnl, List.nodup_range.filter _, fun i hi j hj hij => ?_⟩
    subst hij
    have hnot := of_decide_eq_true (List.mem_filter.mp hj).2
    rw [hl] at hnot
    exact hnot (List.mem_append_left _ hi)
  · unfold garbage
    simp only [List.mem_append, List.mem_filter, List.mem_range, hl, decide_eq_true_eq, not_or]
    constructor
    · rintro (hi | ⟨hi, -, hnot⟩)
      · exact ⟨hlt i (List.mem_append_left _ hi), fun hd => hdisj i hi i hd rfl⟩
      · exact ⟨hi, hnot⟩
    · rintro ⟨hi, hnot⟩
      by_cases hil : i ∈ l
      · exact .inl hil
      · exact .inr ⟨hi, hil, hnot⟩

/-- Garbage does not end a guard. -/
theorem guardAlive_collect {b : World} (c : CollectorId) (x : Garbage) (r : Tid) :
    (b.modify c (·.collect x)).guardAlive r = b.guardAlive r := by
  have hk : ∀ d, ((b.modify c (·.collect x)).collectors d).numReaders =
      (b.collectors d).numReaders ∧
      ((b.modify c (·.collect x)).collectors d).state = (b.collectors d).state := by
    intro d
    rw [World.modify_collectors]
    by_cases hd : d = c
    · subst hd
      rw [Function.update_self]
      exact ⟨rfl, rfl⟩
    · rw [Function.update_of_ne hd]
      exact ⟨rfl, rfl⟩
  unfold World.guardAlive
  rw [World.modify_localCollector]
  cases b.localCollector r with
  | none => rfl
  | some d => simp only [hk]

/-- An instance is retired. -/
theorem process_collect {t : Tid} (h : p.step ⟨t, .base .collect⟩ = some p') :
    p'.base.nextInst = p.base.nextInst + 1 ∧ p'.base.dropped = p.base.dropped ∧
      ∀ r, p'.base.guardAlive r = p.base.guardAlive r := by
  obtain ⟨c, -, hb⟩ := Option.map_eq_some_iff.mp (base_of_process h)
  rw [← hb]
  exact ⟨rfl, rfl, fun r => guardAlive_collect (b := p.base) c (.inst p.base.nextInst) r⟩

end Sdd.Proofs.Exit
