import Sdd.Proofs.Exit.Flags
import Sdd.Proofs.Exit.Inside
import Sdd.Proofs.Exit.Ownership
import Mathlib.Data.List.Perm.Subperm

/-!
# `Sdd.Proofs.Exit.Solo`: a thread that drops its garbage alone

`drain_ends` is about the loop of `epoch_updated`, when the other threads stand still and the
destructors do nothing to the collector: it ends, and everything inside of the list was dropped.
-/

set_option autoImplicit false

namespace Sdd.Proofs.Exit

open Sdd.Collector Sdd.Lib
open Process (Stage)

variable {lists : CollectorId → List Garbage} {l l' : List Garbage} {x : Garbage}
  {i : InstId} {c d : CollectorId} {t : Tid}

/-! ## The lists of the other collectors -/

/-- The lists of the collectors other than `c`. -/
def others (b : World) (c : CollectorId) : CollectorId → List Garbage :=
  Function.update (fun d => (b.collectors d).garbage) c []

theorem others_of_ne {b : World} (h : d ≠ c) : others b c d = (b.collectors d).garbage :=
  Function.update_of_ne h _ _

/-- A write to the own collector. -/
theorem others_own {b : World} {f : Collector → Collector} :
    others (b.modify c f) c = others b c := by
  funext e
  by_cases hec : e = c
  · subst hec
    unfold others
    rw [Function.update_self, Function.update_self]
  · rw [others_of_ne hec, others_of_ne hec, World.modify_collectors, Function.update_of_ne hec]

/-- The lists of another collector are taken. -/
theorem others_cleared {b : World} (h : d ≠ c) :
    others (b.modify d .cleared) c = Function.update (others b c) d [] := by
  funext e
  by_cases hec : e = c
  · subst hec
    rw [Function.update_of_ne (Ne.symm h)]
    unfold others
    rw [Function.update_self, Function.update_self]
  · rw [others_of_ne hec, World.modify_collectors]
    by_cases hed : e = d
    · subst hed
      rw [Function.update_self, Function.update_self]
      rfl
    · rw [Function.update_of_ne hed, Function.update_of_ne hed, others_of_ne hec]

/-! ## Steps of one thread -/

variable {w w' : Process}

/-- The thread takes steps of the collector, and the other threads stand still. -/
abbrev Solo (t : Tid) : Process → Process → Prop :=
  Run Process.step fun _ a => a = ⟨t, .base .proceed⟩

/-- A step of the collector of a thread that has not begun to exit. -/
theorem step_live {act : Act} {b : World} (hst : w.stage t = .live)
    (hs : w.base.step ⟨t, act⟩ = some b) : w.step ⟨t, .base act⟩ =
      some ⟨b, w.stage, Process.dropped w.base t act ++ w.freed⟩ := by
  have hok : (w.stage t).user = true ∧ ((w.stage t).temp ≠ none → act ≠ .alloc) := by
    rw [hst]
    exact ⟨rfl, fun h => absurd rfl h⟩
  have hused : Function.update w.stage t (Process.used (w.stage t) act) = w.stage := by
    rw [hst]
    refine (congrArg (Function.update w.stage t) ?_).trans (Function.update_eq_self t w.stage)
    rw [hst]
    rfl
  refine (if_pos hok).trans ?_
  rw [hs, Option.map_some, hused]

/-- What a thread has that has not begun to exit, in a state of a run. -/
structure Live (t : Tid) (c : CollectorId) (w : Process) : Prop where
  run : Run Process.step (fun _ _ => True) .init w
  stage : w.stage t = .live
  own : w.base.localCollector t = some c

/-- The thread takes one step, and stays alive. -/
theorem Live.next (h : Live t c w) {act : Act} {b : World} (hs : w.base.step ⟨t, act⟩ = some b)
    (hl : b.localCollector = w.base.localCollector) :
    Live t c ⟨b, w.stage, Process.dropped w.base t act ++ w.freed⟩ where
  run := h.run.tail _ trivial (step_live h.stage hs)
  stage := h.stage
  own := by
    show b.localCollector t = some c
    rw [hl, h.own]

/-- The own collector is in the chain. -/
theorem Live.mem_chain (h : Live t c w) {g : Ghost} (hg : Inv w g) : c ∈ g.chain := by
  rcases hg.chain.mem t c h.own with hc | hc
  · exact hc
  · rw [h.stage] at hc
    cases hc

/-- The own collector is on no list of garbage. -/
theorem Live.not_garbage (h : Live t c w) :
    (∀ d, .collector c ∉ (w.base.collectors d).garbage) ∧
      ∀ r, .collector c ∉ pendingGarbage (w.base.pc r) := by
  obtain ⟨g, hg, ho⟩ := owned_of_run h.run
  have hc : Garbage.collector c ∈ slots w g .chain := List.mem_map_of_mem (h.mem_chain hg)
  refine ⟨fun d hd => ?_, fun r hr => ?_⟩
  · cases ho.forest.disjoint .chain (.lists d) _ hc hd
  · cases ho.forest.disjoint .chain (.drain r) _ hc hr

/-- How much was not dropped yet. -/
def undropped (w : Process) : Nat :=
  (w.base.nextInst - w.base.dropped.length) + (w.base.nextCollector - w.freed.length)

/-- No more was dropped than was created. -/
theorem dropped_le {P : Process → Process.Action → Prop} (h : Run Process.step P .init w) :
    w.base.dropped.length ≤ w.base.nextInst ∧ w.freed.length ≤ w.base.nextCollector := by
  obtain ⟨g, hg, ho⟩ := owned_of_run h
  have hgone := List.nodup_append.mp (ho.forest.nodup .gone)
  have hle : ∀ (l : List Nat) (n : Nat), l.Nodup → (∀ k ∈ l, k < n) → l.length ≤ n := by
    intro l n hl hlt
    have hsub : l.Subperm (List.range n) :=
      hl.subperm fun k hk => List.mem_range.mpr (hlt k hk)
    rw [← List.length_range (n := n)]
    exact hsub.length_le
  refine ⟨hle _ _ (hgone.1.of_map _) fun i hi => ?_, hle _ _ (hgone.2.1.of_map _) fun d hd => ?_⟩
  · exact (ho.listed (.inst i)).mp ⟨.gone, dropped_iff.mpr hi⟩
  · exact (ho.listed (.collector d)).mp ⟨.gone, dropped_iff.mpr hd⟩

/-! ## The loop of `epoch_updated` -/

/-- What the loop does that drops the garbage `l`. -/
structure Drained (t : Tid) (c : CollectorId) (l : List Garbage) (w w' : Process) : Prop where
  live : Live t c w'
  pc : w'.base.pc t = .idle
  own : w'.base.collectors c =
    { w.base.collectors c with nextEpochUpdate := Collector.CADENCE }
  state : ∀ d, (w'.base.collectors d).state = (w.base.collectors d).state
  links : ∀ d, nextLinks w'.base d = nextLinks w.base d
  epoch : w'.base.epoch = w.base.epoch
  chainHead : w'.base.chainHead = w.base.chainHead
  dropped : ∀ i ∈ w.base.dropped, i ∈ w'.base.dropped
  inside : ∀ r i, Inside (others w.base c) (l ++ r) (.inst i) →
    i ∈ w'.base.dropped ∨ Inside (others w'.base c) r (.inst i)

/-- An instance is dropped, and its destructor returns. -/
theorem drain_inst (h : Live t c w) {j : InstId} {rest : List Garbage}
    (hpc : w.base.pc t = .drain c (.inst j :: rest)) :
    ∃ w₁, Solo t w w₁ ∧ Live t c w₁ ∧ w₁.base.pc t = .drain c rest ∧
      w₁.base.dropped = j :: w.base.dropped ∧ w₁.freed = w.freed ∧
      w₁.base.collectors = w.base.collectors ∧ w₁.base.epoch = w.base.epoch ∧
      w₁.base.chainHead = w.base.chainHead ∧ w₁.base.nextInst = w.base.nextInst ∧
      w₁.base.nextCollector = w.base.nextCollector := by
  have hs : w.base.step ⟨t, .proceed⟩ =
      some ({ w.base with dropped := j :: w.base.dropped }.goto t (.destructor c rest)) := by
    simp only [World.step, World.proceed, hpc, World.drain]
  have h₁ := h.next hs rfl
  have hpc₁ : ({ w.base with dropped := j :: w.base.dropped }.goto t (.destructor c rest)).pc t =
      .destructor c rest := Function.update_self _ _ _
  have hs₁ : ({ w.base with dropped := j :: w.base.dropped }.goto t (.destructor c rest)).step
      ⟨t, .proceed⟩ = some (({ w.base with dropped := j :: w.base.dropped }.goto t
        (.destructor c rest)).goto t (.drain c rest)) := by
    simp only [World.step, World.proceed, hpc₁]
  have hfreed : Process.dropped w.base t .proceed = [] := by
    simp only [Process.dropped, hpc]
  have hfreed₁ : Process.dropped ({ w.base with dropped := j :: w.base.dropped }.goto t
      (.destructor c rest)) t .proceed = [] := by
    simp only [Process.dropped, hpc₁]
  refine ⟨_, .head _ rfl (step_live h.stage hs) (.tail _ .refl rfl (step_live h₁.stage hs₁)),
    h₁.next hs₁ rfl, Function.update_self _ _ _, rfl, ?_, rfl, rfl, rfl, rfl, rfl⟩
  show _ ++ (_ ++ w.freed) = w.freed
  rw [hfreed, hfreed₁]
  rfl

/-- The loop ends, and everything inside of the list is dropped. -/
theorem drain_ends (h : Live t c w) (hpc : w.base.pc t = .drain c l) :
    ∃ w', Solo t w w' ∧ Drained t c l w w' := by
  generalize hn : undropped w = n
  induction n using Nat.strongRecOn generalizing w l with
  | _ n ih =>
  match l, hpc with
  | [], hpc =>
    have hs : w.base.step ⟨t, .proceed⟩ = some ((w.base.modify c fun k =>
        { k with nextEpochUpdate := Collector.CADENCE }).goto t .idle) := by
      simp only [World.step, World.proceed, hpc, World.drain]
    refine ⟨_, .tail _ .refl rfl (step_live h.stage hs), ?_⟩
    refine
      { live := h.next hs rfl
        pc := Function.update_self _ _ _
        own := Function.update_self _ _ _
        state := fun d => ?_
        links := nextLinks_modify (w := w.base)
          (f := fun k => { k with nextEpochUpdate := Collector.CADENCE }) rfl
        epoch := rfl
        chainHead := rfl
        dropped := fun i hi => hi
        inside := fun r i hi => .inr ?_ }
    · show (Function.update w.base.collectors c _ d).state = _
      by_cases hd : d = c
      · subst hd
        rw [Function.update_self]
      · rw [Function.update_of_ne hd]
    · have hothers : others (w.base.modify c fun k => { k with
          nextEpochUpdate := Collector.CADENCE }) c = others w.base c := others_own
      exact hothers.symm ▸ hi
  | .inst j :: rest, hpc =>
    obtain ⟨w₁, hrun₁, h₁, hpc₁, hdropped, hfreed, hcoll, hepoch, hhead, hinst, hnext⟩ :=
      drain_inst h hpc
    have hlt : undropped w₁ < n := by
      have hle := (dropped_le h₁.run).1
      unfold undropped at hn ⊢
      rw [hdropped, List.length_cons] at hle ⊢
      rw [hinst] at hle ⊢
      rw [hfreed, hnext]
      omega
    obtain ⟨w', hrun, hd⟩ := ih _ hlt h₁ hpc₁ rfl
    have hothers : others w₁.base c = others w.base c := by
      unfold others
      rw [hcoll]
    refine ⟨w', hrun₁.trans hrun, ?_⟩
    refine
      { live := hd.live
        pc := hd.pc
        own := by rw [hd.own, hcoll]
        state := fun e => by rw [hd.state, hcoll]
        links := fun e => by rw [hd.links, nextLinks, nextLinks, hcoll]
        epoch := hd.epoch.trans hepoch
        chainHead := hd.chainHead.trans hhead
        dropped := fun i hi => hd.dropped i ?_
        inside := fun r i hi => ?_ }
    · rw [hdropped]
      exact List.mem_cons_of_mem j hi
    · rcases Inside.cons_inst hi with rfl | hi
      · refine .inl (hd.dropped i ?_)
        rw [hdropped]
        exact List.mem_cons_self
      · exact hd.inside r i (by rwa [hothers])
  | .collector d :: rest, hpc =>
    have hdc : d ≠ c := by
      rintro rfl
      refine h.not_garbage.2 t ?_
      rw [hpc]
      exact List.mem_cons_self
    have hs : w.base.step ⟨t, .proceed⟩ = some ((w.base.modify d .cleared).goto t
        (.drain c ((w.base.collectors d).garbage ++ rest))) := by
      simp only [World.step, World.proceed, hpc, World.drain]
    have h₁ := h.next hs rfl
    have hfreed : Process.dropped w.base t .proceed = [d] := by
      simp only [Process.dropped, hpc]
    have hlt : undropped ⟨(w.base.modify d .cleared).goto t
        (.drain c ((w.base.collectors d).garbage ++ rest)), w.stage,
          Process.dropped w.base t .proceed ++ w.freed⟩ < n := by
      have hle := (dropped_le h₁.run).2
      unfold undropped at hn ⊢
      rw [hfreed] at hle ⊢
      change w.freed.length + 1 ≤ w.base.nextCollector at hle
      have hless : w.base.nextCollector - (w.freed.length + 1) <
          w.base.nextCollector - w.freed.length := Nat.sub_lt_sub_left hle (Nat.lt_succ_self _)
      exact Nat.lt_of_lt_of_eq (Nat.add_lt_add_left hless _) hn
    obtain ⟨w', hrun, hd⟩ := ih _ hlt h₁ (Function.update_self _ _ _) rfl
    refine ⟨w', .head _ rfl (step_live h.stage hs) hrun, ?_⟩
    refine
      { live := hd.live
        pc := hd.pc
        own := ?_
        state := fun e => (hd.state e).trans ?_
        links := fun e => (hd.links e).trans (nextLinks_modify rfl e)
        epoch := hd.epoch
        chainHead := hd.chainHead
        dropped := hd.dropped
        inside := fun r i hi => ?_ }
    · have hsame : (w.base.modify d .cleared).collectors c = w.base.collectors c :=
        Function.update_of_ne (Ne.symm hdc) _ _
      rw [hd.own]
      exact congrArg (fun k : Collector => { k with nextEpochUpdate := Collector.CADENCE }) hsame
    · show (Function.update w.base.collectors d _ e).state = _
      by_cases he : e = d
      · subst he
        rw [Function.update_self]
        rfl
      · rw [Function.update_of_ne he]
    · refine hd.inside r i ?_
      show Inside (others (w.base.modify d .cleared) c) _ _
      rw [others_cleared hdc, List.append_assoc, ← others_of_ne hdc]
      exact hi.expand

end Sdd.Proofs.Exit
