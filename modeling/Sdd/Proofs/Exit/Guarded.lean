import Sdd.Proofs.Collector.Reclaim
import Sdd.Proofs.Exit.Garbage
import Sdd.Proofs.Exit.Inside
import Sdd.Proofs.Exit.Windows

/-!
# `Sdd.Proofs.Exit.Guarded`: what a guard protects when threads suspend and exit

The garbage of a thread that suspends or exits stays on the lists of its obsolete collector, until
a scan takes the collector out of the chain and retires it as a whole. `Young x k e` says that the
collector `k` has retired the garbage `x`, an instance or a whole collector, while the global epoch
was `e` or the next one, so that `x` is not dropped as long as the epoch stays there. An instance
is protected if it is inside of something young (`Protected`). `guarded_not_dropped` is the result,
for orderly runs.
-/

set_option autoImplicit false

namespace Sdd.Proofs.Exit

open Sdd.Collector Sdd.Lib
open Process (Stage)

variable {t r : Tid} {w w' : Process} {g g' : Ghost} {c k : CollectorId} {e : Epoch}
  {x : Garbage} {i : InstId}

/-! ## What a step does to the lists -/

/-- What an orderly step does to the lists and the announcements of the collectors. -/
inductive Flow (w : Process) (t : Tid) (w' : Process) : Prop where
  /-- Only collectors that are dropped lose something. -/
  | keep (hgen : ∀ d, d < w.base.nextCollector → ¬Taken w t d →
        generations (w'.base.collectors d) = generations (w.base.collectors d))
      (hload : ∀ d e, w'.base.pc t = .newGuard d e → e = w.base.epoch)
  /-- An epoch is announced, and no list moves on. -/
  | announce (c : CollectorId) (e : Epoch) (hpc : w.base.pc t = .newGuard c e)
      (hgen : generations (w'.base.collectors c) = (e, (generations (w.base.collectors c)).2))
      (hother : ∀ d, d ≠ c → generations (w'.base.collectors d) = generations (w.base.collectors d))
      (hpc' : ∀ d e, w'.base.pc t ≠ .newGuard d e)
  /-- Another epoch is announced, and each list moves on. -/
  | rotate (c : CollectorId) (e : Epoch) (hpc : w.base.pc t = .newGuard c e)
      (hne : (w.base.collectors c).announcement ≠ e)
      (hgen : generations (w'.base.collectors c) = (e, (w.base.collectors c).currentInstanceLink,
        [], (w.base.collectors c).previousInstanceLink))
      (hother : ∀ d, d ≠ c → generations (w'.base.collectors d) = generations (w.base.collectors d))
      (hpc' : ∀ d e, w'.base.pc t ≠ .newGuard d e)
  /-- An instance is retired, or an obsolete collector. -/
  | collect (c : CollectorId) (x : Garbage) (hl : w.base.localCollector t = some c)
      (hgen : generations (w'.base.collectors c) = generations ((w.base.collectors c).collect x))
      (hother : ∀ d, d ≠ c → generations (w'.base.collectors d) = generations (w.base.collectors d))
      (hpc' : ∀ d e, w'.base.pc t ≠ .newGuard d e)

section flow

variable {b : World} {act : Act}

/-- A write to one collector that keeps its lists and its announcement. -/
theorem generations_modify {f : Collector → Collector}
    (h : generations (f (b.collectors c)) = generations (b.collectors c)) (d : CollectorId) :
    generations ((b.modify c f).collectors d) = generations (b.collectors d) := by
  rw [World.modify_collectors]
  by_cases hd : d = c
  · subst hd
    rw [Function.update_self, h]
  · rw [Function.update_of_ne hd]

/-- A step that writes no list and no announcement, and goes to another place. -/
theorem Flow.of_goto {pc : Pc} (hgen : ∀ d, generations (w'.base.collectors d) =
      generations (w.base.collectors d)) (hpc : w'.base.pc t = pc)
    (hload : ∀ d e, pc ≠ .newGuard d e) : Flow w t w' :=
  .keep (fun d _ _ => hgen d) fun d e h => absurd (hpc.symm.trans h) (hload d e)

/-- What a step of the collector does to the lists. -/
theorem flow_of_move (hg : Inv w g) (hm : Proofs.Move w.base t act w'.base) : Flow w t w' := by
  obtain ⟨b', stage', freed'⟩ := w'
  change Proofs.Move w.base t act b' at hm
  have hself : ∀ (x : World) (pc : Pc), (x.goto t pc).pc t = pc := fun x pc =>
    Function.update_self _ _ _
  have hne : ∀ (x : World) (pc : Pc), (∀ d e, pc ≠ .newGuard d e) →
      ∀ d e, (x.goto t pc).pc t ≠ .newGuard d e := by
    intro x pc h d e hp
    exact h d e ((hself x pc).symm.trans hp)
  have hupdate : ∀ (d : CollectorId) (k : Collector),
      generations (Function.update w.base.collectors d k d) = generations k := by
    intro d k
    rw [Function.update_self]
  cases hm with
  | allocBegin hpc hl =>
    refine .keep (fun d hd _ => ?_) fun d e hp => ?_
    · exact congrArg generations (Function.update_of_ne (Nat.ne_of_lt hd) _ _)
    · cases (hself _ _).symm.trans hp
  | allocRetry o p hpc =>
    exact .of_goto (generations_modify (f := fun k => { k with nextLink := p.addr }) rfl)
      (hself _ _) fun _ _ h => by cases h
  | allocDone o p hpc hp =>
    exact .of_goto (generations_modify (f := fun k => { k with nextLink := p.addr }) rfl)
      (hself _ _) fun _ _ h => by cases h
  | load o hu hn =>
    refine .keep (fun d _ _ => generations_modify (f := fun k => { k with numReaders := 1 }) rfl d)
      fun d e hp => ?_
    cases (hself _ _).symm.trans hp
    rfl
  | publishSame o e hpc ha =>
    refine .announce o e hpc ?_ (fun d hd => ?_) (hne _ _ fun _ _ h => by cases h)
    · show generations (Function.update w.base.collectors o _ o) = _
      rw [Function.update_self, ← ha]
      rfl
    · exact congrArg generations (Function.update_of_ne hd _ _)
  | publishQuiet o e hpc ha hgb =>
    refine .announce o e hpc ?_ (fun d hd => ?_) (hne _ _ fun _ _ h => by cases h)
    · exact (hupdate o _).trans rfl
    · exact congrArg generations (Function.update_of_ne hd _ _)
  | publishRotate o e hpc ha hgb =>
    refine .rotate o e hpc ha ?_ (fun d hd => ?_) (hne _ _ fun _ _ h => by cases h)
    · exact (hupdate o _).trans rfl
    · exact congrArg generations (Function.update_of_ne hd _ _)
  | drainDone o hpc =>
    exact .of_goto (generations_modify (f := fun k => { k with
      nextEpochUpdate := Collector.CADENCE }) rfl) (hself _ _) fun _ _ h => by cases h
  | drainInst o j rest hpc =>
    exact .of_goto (fun d => rfl) (hself _ _) fun _ _ h => by cases h
  | drainCollector o x rest hpc =>
    refine .keep (fun d _ hd => ?_) fun d e hp => ?_
    · refine congrArg generations (Function.update_of_ne ?_ _ _)
      rintro rfl
      refine hd (.inl ?_)
      rw [hpc]
      exact List.mem_cons_self
    · cases (hself _ _).symm.trans hp
  | destructor o rest hpc =>
    exact .of_goto (fun d => rfl) (hself _ _) fun _ _ h => by cases h
  | user o f hu hn hf hk =>
    refine .keep (fun d _ _ => generations_modify (by rw [hk]; rfl) d) fun d e hp => ?_
    rcases Owning.user_cases hu with ⟨hpc, -⟩ | ⟨rest, hpc⟩ <;> cases hpc.symm.trans hp
  | endScan o hpc hl hn =>
    exact .of_goto (generations_modify (f := fun k => { k with numReaders := 0 }) rfl) (hself _ _)
      fun _ _ h => by cases h
  | endQuiet o u hpc hl hn =>
    exact .of_goto (generations_modify (f := fun k => { k with
      numReaders := 0, nextEpochUpdate := u }) rfl) (hself _ _) fun _ _ h => by cases h
  | lockFail o hpc =>
    exact .of_goto (generations_modify (f := fun k => { k with
      nextEpochUpdate := Collector.CADENCE }) rfl) (hself _ _) fun _ _ h => by cases h
  | unlock o hpc =>
    exact .of_goto (generations_modify (f := fun k => { k with
      nextEpochUpdate := Collector.CADENCE }) rfl) (hself _ _) fun _ _ h => by cases h
  | lock | knownEpoch | store | scanOwn | scanLoad | nextInvalid | nextBreak | nextPass | unlinkFail
    | markScanEnforced =>
      exact .of_goto (fun d => rfl) (hself _ _) fun _ _ h => by cases h
  | unlinkHead o known x next hpc hd =>
    have hl : w.base.localCollector t = some o := hg.owning.local_of_own (by rw [hpc]; rfl)
    refine .collect o (.collector x) hl ?_ (fun d hd => ?_) (hne _ _ fun _ _ h => by cases h)
    · exact congrArg generations (Function.update_self _ _ _)
    · exact congrArg generations (Function.update_of_ne hd _ _)
  | unlinkMid o known p x next hpc =>
    have hl : w.base.localCollector t = some o := hg.owning.local_of_own (by rw [hpc]; rfl)
    have hgen : ∀ d,
        generations ((w.base.modify p fun k => { k with nextLink := next }).collectors d) =
          generations (w.base.collectors d) :=
      generations_modify (f := fun k => { k with nextLink := next }) rfl
    refine .collect o (.collector x) hl ?_ (fun d hd => ?_) (hne _ _ fun _ _ h => by cases h)
    · refine (congrArg generations (Function.update_self _ _ _)).trans ?_
      have h := hgen o
      unfold generations at h ⊢
      simp only [Prod.mk.injEq] at h
      obtain ⟨ha, hp, hc, hn⟩ := h
      simp only [Collector.collect, ha, hp, hc, hn]
    · exact (congrArg generations (Function.update_of_ne hd _ _)).trans (hgen d)
  | setInactive o hpc =>
    exact .of_goto (generations_modify (f := fun k => { k with
      state := ⟨k.announcement, true, false⟩ }) rfl) (hself _ _) fun _ _ h => by cases h
  | collect o hu =>
    refine .collect o (.inst w.base.nextInst) (hg.owning.local_of_user hu) ?_ (fun d hd => ?_)
      fun d e hp => ?_
    · exact congrArg generations (Function.update_self _ _ _)
    · exact congrArg generations (Function.update_of_ne hd _ _)
    · rcases Owning.user_cases hu with ⟨hpc, -⟩ | ⟨rest, hpc⟩ <;> cases hpc.symm.trans hp
  | suspendNone ha o hu =>
    refine .keep (fun d _ _ => rfl) fun d e hp => ?_
    rcases Owning.user_cases hu with ⟨hpc, -⟩ | ⟨rest, hpc⟩ <;> cases hpc.symm.trans hp
  | suspend o hu hn ha =>
    exact .of_goto (generations_modify (f := fun k => { k with
      state := { k.state with invalid := true } }) rfl) (hself _ _) fun _ _ h => by cases h

/-- What an orderly step does to the lists. -/
theorem flow_of_step (hg : Inv w g) {a : Process.Action} (ho : orderly w a = true)
    (hs : w.step a = some w') : Flow w a.tid w' := by
  rcases orderly_cases ho hs with ⟨act, hm, -⟩ | ⟨hpc, hl⟩
  · exact flow_of_move hg hm
  · refine .keep hl.generations fun d e hp => ?_
    rw [hl.pc, hpc] at hp
    cases hp

end flow

/-! ## Young garbage -/

/-- The collector `k` has retired the garbage `x` while the global epoch was `e` or the next
epoch. It is on one of the lists of `k`, and has not moved on too far. -/
structure Young (x : Garbage) (k : CollectorId) (e : Epoch) (b : World) : Prop where
  listed : x ∈ (b.collectors k).garbage
  previous : x ∈ (b.collectors k).previousInstanceLink →
    (b.collectors k).announcement = e ∨ Late e b (b.collectors k).announcement
  next : x ∈ (b.collectors k).nextInstanceLink → Late e b (b.collectors k).announcement
  loaded : ∀ t e', b.pc t = .newGuard k e' → e' = e ∨ Late e b e'
  /-- What is loaded is not older than what was announced since the retirement. -/
  advanced : ∀ t e', b.pc t = .newGuard k e' →
    x ∈ (b.collectors k).previousInstanceLink ∨ x ∈ (b.collectors k).nextInstanceLink →
    (b.collectors k).announcement = e.next → e' = e.next

/-- The parts of the generations of a collector. -/
theorem generations_eq {k k' : Collector} (h : generations k' = generations k) :
    k'.announcement = k.announcement ∧ k'.previousInstanceLink = k.previousInstanceLink ∧
      k'.currentInstanceLink = k.currentInstanceLink ∧
      k'.nextInstanceLink = k.nextInstanceLink := by
  simpa only [generations, Prod.mk.injEq] using h

theorem garbage_of_generations {k k' : Collector} (h : generations k' = generations k) :
    k'.garbage = k.garbage := by
  obtain ⟨-, hp, hc, hn⟩ := generations_eq h
  unfold Collector.garbage
  rw [hp, hc, hn]

section young

variable {b b' : World}

/-- A step that does not write the older lists of `k`, and loads the current epoch only. -/
theorem Young.same (h : Young x k e b) (he : b'.epoch = b.epoch ∨ b.epoch = e ∧ b'.epoch = e.next)
    (hepoch : b.epoch = e ∨ b.epoch = e.next) (hlisted : x ∈ (b'.collectors k).garbage)
    (ha : (b'.collectors k).announcement = (b.collectors k).announcement)
    (hp : (b'.collectors k).previousInstanceLink = (b.collectors k).previousInstanceLink)
    (hn : (b'.collectors k).nextInstanceLink = (b.collectors k).nextInstanceLink)
    (hpc : ∀ t e', b'.pc t = .newGuard k e' → b.pc t = .newGuard k e' ∨ e' = b.epoch) :
    Young x k e b' where
  listed := hlisted
  previous hx := by
    rw [hp] at hx
    rw [ha]
    exact (h.previous hx).imp_right fun hl => hl.mono he
  next hx := by
    rw [hn] at hx
    rw [ha]
    exact (h.next hx).mono he
  loaded t e' hload := by
    rcases hpc t e' hload with hload | rfl
    · exact (h.loaded t e' hload).imp_right fun hl => hl.mono he
    · exact hepoch.imp_right fun hw => Late.mono ⟨hw, hw⟩ he
  advanced t e' hload hx hann := by
    rw [hp, hn] at hx
    rw [ha] at hann
    rcases hpc t e' hload with hload | rfl
    · exact h.advanced t e' hload hx hann
    · -- The global epoch had reached the announced one.
      have hlate : Late e b (b.collectors k).announcement := by
        rcases hx with hx | hx
        · rcases h.previous hx with hae | hl
          · exact absurd (hann.symm.trans hae) (Epoch.next_ne e)
          · exact hl
        · exact h.next hx
      exact hlate.2

end young

/-- A step keeps young garbage, as long as the epoch stays in the window and the collector is not
dropped. -/
theorem Young.step (h : Young x k e w.base) (hg : Inv w g) {a : Process.Action}
    (hm : Move w a.tid a.act w') (hf : Flow w a.tid w') (hk : k < w.base.nextCollector)
    (htaken : ¬Taken w a.tid k) (hepoch : w.base.epoch = e ∨ w.base.epoch = e.next)
    (he : w'.base.epoch = w.base.epoch ∨ w.base.epoch = e ∧ w'.base.epoch = e.next) :
    Young x k e w'.base := by
  -- Only the owner of `k` stands at the creation of a guard with it.
  have hnone : ∀ {e₁}, w.base.pc a.tid = .newGuard k e₁ →
      (∀ d e', w'.base.pc a.tid ≠ .newGuard d e') → ∀ t e₂, w'.base.pc t ≠ .newGuard k e₂ := by
    intro e₁ hpc hpc' t e₂ hp
    by_cases ht : t = a.tid
    · subst ht
      exact hpc' k e₂ hp
    · rw [hm.pc_of_ne ht] at hp
      have hl := hg.owning.local_of_own (t := a.tid) (c := k) (by rw [hpc]; rfl)
      have hl' := hg.owning.local_of_own (t := t) (c := k) (by rw [hp]; rfl)
      exact ht (hg.owning.inj t a.tid k (hg.owning.holds_of_local hl')
        (hg.owning.holds_of_local hl))
  have hpcs : (∀ d e', w'.base.pc a.tid = .newGuard d e' → e' = w.base.epoch) →
      ∀ t e', w'.base.pc t = .newGuard k e' → w.base.pc t = .newGuard k e' ∨ e' = w.base.epoch := by
    intro hload t e' hpc
    by_cases ht : t = a.tid
    · subst ht
      exact .inr (hload k e' hpc)
    · rw [hm.pc_of_ne ht] at hpc
      exact .inl hpc
  -- Another collector is written.
  have hframe : generations (w'.base.collectors k) = generations (w.base.collectors k) →
      (∀ d e', w'.base.pc a.tid = .newGuard d e' → e' = w.base.epoch) → Young x k e w'.base := by
    intro hgen hload
    obtain ⟨ha, hp, -, hn⟩ := generations_eq hgen
    refine h.same he hepoch ?_ ha hp hn (hpcs hload)
    rw [garbage_of_generations hgen]
    exact h.listed
  cases hf with
  | keep hgen hload => exact hframe (hgen k hk htaken) hload
  | announce o e' hpc hgen hother hpc' =>
    by_cases hko : k = o
    · subst hko
      simp only [generations, Prod.mk.injEq] at hgen
      obtain ⟨ha, hp, hc, hn⟩ := hgen
      refine
        { listed := ?_
          previous := fun _ => ?_
          next := fun hx => ?_
          loaded := fun t e₂ hp' => absurd hp' (hnone hpc hpc' t e₂)
          advanced := fun t e₂ hp' => absurd hp' (hnone hpc hpc' t e₂) }
      · rw [mem_garbage, hp, hc, hn, ← mem_garbage]
        exact h.listed
      · rw [ha]
        exact (h.loaded a.tid e' hpc).imp_right fun hl => hl.mono he
      · rw [hn] at hx
        rw [ha]
        have hlate := h.next hx
        have he' : e' = e.next := h.advanced a.tid e' hpc (.inr hx) hlate.1
        exact Late.mono ⟨he', hlate.2⟩ he
    · exact hframe (hother k hko) fun d e' hp => absurd hp (hpc' d e')
  | rotate o e' hpc hne hgen hother hpc' =>
    by_cases hko : k = o
    · subst hko
      simp only [generations, Prod.mk.injEq] at hgen
      obtain ⟨ha, hp, hc, hn⟩ := hgen
      -- An announcement that is late already is not followed by another one.
      have hlate : x ∈ (w.base.collectors k).previousInstanceLink ∨
          x ∈ (w.base.collectors k).nextInstanceLink →
          ¬Late e w.base (w.base.collectors k).announcement := by
        intro hx hl
        exact hne (hl.1.trans (h.advanced a.tid e' hpc hx hl.1).symm)
      refine
        { listed := ?_
          previous := fun _ => ?_
          next := fun hx => ?_
          loaded := fun t e₂ hp' => absurd hp' (hnone hpc hpc' t e₂)
          advanced := fun t e₂ hp' => absurd hp' (hnone hpc hpc' t e₂) }
      · rw [mem_garbage, hp, hc, hn]
        rcases mem_garbage.mp h.listed with hx | hx | hx
        · exact .inr (.inr hx)
        · exact .inl hx
        · exact absurd (h.next hx) (hlate (.inr hx))
      · rw [ha]
        exact (h.loaded a.tid e' hpc).imp_right fun hl => hl.mono he
      · rw [hn] at hx
        rw [ha]
        rcases h.previous hx with hae | hl
        · rcases h.loaded a.tid e' hpc with he' | hl
          · exact absurd (hae.trans he'.symm) hne
          · exact hl.mono he
        · exact absurd hl (hlate (.inl hx))
    · exact hframe (hother k hko) fun d e' hp => absurd hp (hpc' d e')
  | collect o y hl hgen hother hpc' =>
    by_cases hko : k = o
    · subst hko
      obtain ⟨ha, hp, hc, hn⟩ := generations_eq hgen
      refine h.same he hepoch ?_ ha hp hn (hpcs fun d e' hp => absurd hp (hpc' d e'))
      have hx := mem_garbage.mp h.listed
      rw [mem_garbage, hp, hc, hn]
      exact hx.imp_right fun hx => hx.imp_left (List.mem_cons_of_mem y)
    · exact hframe (hother k hko) fun d e' hp => absurd hp (hpc' d e')

/-! ## What is inside of young garbage -/

/-- A collector that is dropped next is neither in the chain nor on a list of a collector. -/
theorem Taken.slot (h : Taken w t c) (hg : Inv w g) :
    ∃ p, .collector c ∈ slots w g p ∧ p ≠ .chain ∧ ∀ d, p ≠ .lists d := by
  rcases h with hc | hc | ⟨temp, hs⟩ | hs
  · exact ⟨.drain t, hc, nofun, nofun⟩
  · exact ⟨.exit t, hc, nofun, nofun⟩
  · have hstands := hg.stands t
    rw [hs] at hstands
    change Linked _ (some c) g.freeing at hstands
    refine ⟨.freeing, List.mem_map_of_mem ?_, nofun, nofun⟩
    exact List.mem_of_mem_head? hstands.head_eq.symm
  · refine ⟨.held t, List.mem_map_of_mem ?_, nofun, nofun⟩
    unfold heldBy
    rw [hs]
    exact List.mem_append_right _ List.mem_cons_self

theorem not_taken_of_chain (hg : Inv w g) (ho : Owned w g) (hc : c ∈ g.chain) : ¬Taken w t c := by
  intro h
  obtain ⟨p, hp, hne, -⟩ := h.slot hg
  exact hne (ho.forest.disjoint p .chain _ hp (List.mem_map_of_mem hc))

/-- A step leaves alone the lists of a collector that is garbage itself and not dropped next. -/
theorem Flow.garbage_eq (hf : Flow w t w') (hg : Inv w g) (ho : Owned w g) {d : CollectorId}
    (hd : .collector d ∈ garbageOf w.base c) : garbageOf w'.base d = garbageOf w.base d := by
  have hlist : Garbage.collector d ∈ slots w g (.lists c) := hd
  have hroot : ∀ o, w.base.localCollector t = some o → d ≠ o := by
    rintro o hl rfl
    obtain ⟨p, hplace, hp⟩ := root_of_local hg hl
    rw [ho.forest.disjoint p (.lists c) _ hp hlist] at hplace
    cases hplace
  refine garbage_of_generations ?_
  cases hf with
  | keep hgen hload =>
    refine hgen d ((ho.listed (.collector d)).mp ⟨_, hlist⟩) fun ht => ?_
    obtain ⟨p, hp, -, hne⟩ := ht.slot hg
    exact hne c (ho.forest.disjoint p (.lists c) _ hp hlist)
  | announce o e' hpc hgen hother | rotate o e' hpc hne hgen hother =>
    exact hother d (hroot o (hg.owning.local_of_own (by rw [hpc]; rfl)))
  | collect o y hl hgen hother => exact hother d (hroot o hl)

/-- The instance is inside of young garbage of a collector in the chain. -/
def Shielded (i : InstId) (e : Epoch) (w : Process) (g : Ghost) : Prop :=
  ∃ k x, k ∈ g.chain ∧ Young x k e w.base ∧ Inside (garbageOf w.base) [x] (.inst i)

/-- Something that is inside of a list of a collector was not dropped. -/
theorem not_dropped_of_inside (ho : Owned w g) {l : List Garbage}
    (hl : ∀ x ∈ l, ∃ c, x ∈ garbageOf w.base c) (h : Inside (garbageOf w.base) l (.inst i)) :
    i ∉ w.base.dropped := by
  intro hi
  have hgone : Garbage.inst i ∈ slots w g .gone := dropped_iff.mpr hi
  generalize hx : Garbage.inst i = x at h
  induction h with
  | @here l x hxl =>
    subst hx
    obtain ⟨c, hc⟩ := hl _ hxl
    cases ho.forest.disjoint (.lists c) .gone _ hc hgone
  | within d hd hin ih => exact ih (fun y hy => ⟨d, hy⟩) hx

theorem Shielded.not_dropped (h : Shielded i e w g) (ho : Owned w g) : i ∉ w.base.dropped := by
  obtain ⟨k, x, -, hy, hin⟩ := h
  refine not_dropped_of_inside ho (fun y hy' => ⟨k, ?_⟩) hin
  rw [List.mem_singleton.mp hy']
  exact hy.listed

/-- The scan that takes a collector out of the chain retires it. -/
theorem collect_of_cutting {b b' : World} {act : Act} {d : CollectorId}
    (hm : Proofs.Move b t act b') (hcut : Cutting b t d) :
    ∃ o, (∃ known prev next, b.pc t = .unlink o known prev d next) ∧
      .collector d ∈ (b'.collectors o).currentInstanceLink ∧ ∀ k e, b'.pc t ≠ .newGuard k e := by
  obtain ⟨o, known, prev, next, hpc, hhead⟩ := hcut
  refine ⟨o, ⟨known, prev, next, hpc⟩, ?_⟩
  have hmem : ∀ (f : CollectorId → Collector) (k : Collector), .collector d ∈
      (Function.update f o (k.collect (.collector d)) o).currentInstanceLink := by
    intro f k
    rw [Function.update_self]
    exact List.mem_cons_self
  have hne : ∀ (x : World) (c known prev current), ∀ k e,
      (x.goto t (.scan c known prev current)).pc t ≠ .newGuard k e := by
    intro x c known prev current k e hp
    cases (Function.update_self _ _ _).symm.trans hp
  cases hm with
  | unlinkHead o' known' d' next' hpc' =>
    cases hpc.symm.trans hpc'
    exact ⟨hmem _ _, hne _ _ _ _ _⟩
  | unlinkFail o' known' d' next' hpc' hd' =>
    cases hpc.symm.trans hpc'
    exact absurd (hhead rfl) hd'
  | unlinkMid o' known' p' d' next' hpc' =>
    cases hpc.symm.trans hpc'
    exact ⟨hmem _ _, hne _ _ _ _ _⟩
  | load _ hu | user _ _ hu | collect _ hu | suspendNone _ _ hu | suspend _ hu =>
    rcases Owning.user_cases hu with ⟨hpc', -⟩ | ⟨rest, hpc'⟩ <;> cases hpc.symm.trans hpc'
  | allocBegin hpc' | allocRetry _ _ hpc' | allocDone _ _ hpc' | publishSame _ _ hpc'
    | publishQuiet _ _ hpc' | publishRotate _ _ hpc' | drainDone _ hpc' | drainInst _ _ _ hpc'
    | drainCollector _ _ _ hpc' | destructor _ _ hpc' | endScan _ hpc' | endQuiet _ _ hpc'
    | lockFail _ hpc' | lock _ hpc' | knownEpoch _ _ hpc' | store _ _ _ hpc' | scanOwn _ _ _ hpc'
    | scanLoad _ _ _ _ hpc' | nextInvalid _ _ _ _ _ hpc' | nextBreak _ _ _ _ _ hpc'
    | nextPass _ _ _ _ _ hpc' | unlock _ hpc' | setInactive _ hpc' | markScanEnforced _ hpc' =>
    cases hpc.symm.trans hpc'

/-- What is retired now is young. -/
theorem young_of_collect (hg : Inv w g) (ho' : Owned w' g') {a : Process.Action}
    (hm : Move w a.tid a.act w') (hl : w.base.localCollector a.tid = some c)
    (hx : x ∈ (w'.base.collectors c).currentInstanceLink)
    (hpc : ∀ k e, w'.base.pc a.tid ≠ .newGuard k e) : Young x c e w'.base := by
  obtain ⟨hprev, -, hnext⟩ := list_unique (ho'.forest.nodup (.lists c))
  have hload : ∀ t e', w'.base.pc t ≠ .newGuard c e' := by
    intro t e' hp
    by_cases ht : t = a.tid
    · subst ht
      exact hpc c e' hp
    · rw [hm.pc_of_ne ht] at hp
      have hl' := hg.owning.local_of_own (t := t) (c := c) (by rw [hp]; rfl)
      exact ht (hg.owning.inj t a.tid c (hg.owning.holds_of_local hl')
        (hg.owning.holds_of_local hl))
  exact
    { listed := mem_garbage.mpr (.inr (.inl hx))
      previous := fun hp => (hprev x hp hx).elim
      next := fun hn => (hnext x hx hn).elim
      loaded := fun t e' hp => absurd hp (hload t e')
      advanced := fun t e' hp => absurd hp (hload t e') }

/-- A step keeps what is inside of young garbage, as long as the epoch stays in the window and the
chain has a collector that is not obsolete. -/
theorem Shielded.step (h : Shielded i e w g) (hg : Inv w g) (ho : Owned w g) {a : Process.Action}
    (horderly : orderly w a = true) (hs : w.step a = some w') (hghost : GhostStep w a.tid g g')
    (hg' : Inv w' g') (ho' : Owned w' g')
    (hepoch : w.base.epoch = e ∨ w.base.epoch = e.next)
    (he : w'.base.epoch = w.base.epoch ∨ w.base.epoch = e ∧ w'.base.epoch = e.next)
    (hc : c ∈ g.chain) (hvalid : ¬Invalid w.base c) : Shielded i e w' g' := by
  obtain ⟨k, x, hk, hyoung, hin⟩ := h
  have hf := flow_of_step hg horderly hs
  have hlt : k < w.base.nextCollector := hg.chain.fresh k (List.mem_append_left _ hk)
  have hyoung' : Young x k e w'.base := hyoung.step hg (move_of_step hs) hf hlt
    (not_taken_of_chain hg ho hk) hepoch he
  have hin' : Inside (garbageOf w'.base) [x] (.inst i) := by
    refine hin.keep (fun d hd => ⟨k, ?_⟩) fun d c hd => hf.garbage_eq hg ho hd
    rw [List.mem_singleton.mp hd]
    exact hyoung.listed
  by_cases hk' : k ∈ g'.chain
  · exact ⟨k, x, hk', hyoung', hin'⟩
  · -- The collector was taken out of the chain, and is garbage of the thread now.
    cases hghost with
    | keep => exact absurd hk hk'
    | push d => exact absurd (List.mem_cons_of_mem d hk) hk'
    | free => exact absurd hk hk'
    | take hi => exact absurd (hi c hc) hvalid
    | cut front rest d hchain hi hcut =>
      obtain rfl : k = d := by
        by_contra hne
        rw [hchain] at hk
        exact hk' (by simpa [hne] using hk)
      rcases orderly_cases horderly hs with ⟨act, hm, -, htemp, -⟩ | ⟨hidle, -⟩
      · obtain ⟨o, ⟨known, prev, next, hpc⟩, hmem, hno⟩ := collect_of_cutting hm hcut
        have hwalks := hg.walks a.tid
        rw [hpc] at hwalks
        obtain ⟨-, -, -, -, -, -, hne⟩ := hwalks
        have hl : w.base.localCollector a.tid = some o :=
          hg.owning.local_of_own (by rw [hpc]; rfl)
        have hmemo : o ∈ front ++ rest := by
          have hoc : o ∈ g.chain := (hg.chain.mem a.tid o hl).resolve_right (by rw [htemp]; nofun)
          rw [hchain] at hoc
          simpa [Ne.symm hne] using hoc
        exact ⟨o, .collector k, hmemo, young_of_collect hg ho' (move_of_step hs) hl hmem hno,
          .within k List.mem_cons_self (hin'.mono fun y hy =>
            List.mem_singleton.mp hy ▸ hyoung'.listed)⟩
      · obtain ⟨o, known, prev, next, hpc, -⟩ := hcut
        cases hidle.symm.trans hpc

/-! ## Guards -/

theorem guardAlive_iff {b : World} : b.guardAlive r = true ↔ ∃ c, b.localCollector r = some c ∧
    (b.collectors c).numReaders ≠ 0 ∧ (b.collectors c).state.inactive = false := by
  unfold World.guardAlive
  cases b.localCollector r with
  | none => simp
  | some c => simp [Nat.pos_iff_ne_zero]

/-- A step of another thread leaves a thread its collector. -/
theorem Move.localCollector_of_ne {act : Process.Act} (hm : Move w t act w') (hr : r ≠ t) :
    w'.base.localCollector r = w.base.localCollector r := by
  cases hm with
  | base a b hu ha hs => exact (Proofs.move_of_step hs).localCollector_of_ne hr
  | exit ha hs hpc =>
    rw [exit_localCollector]
    exact Function.update_of_ne hr _ _
  | done temp hs hpc hg => exact Function.update_of_ne hr _ _
  | mark temp hs hpc =>
    show w.base.markScanEnforced.localCollector r = _
    unfold World.markScanEnforced
    cases w.base.chainHead.tag <;> rfl
  | lockFail | lock | walkStop | walkPass | walkNext | take | takeFail | free | freeDone | loopDone
    | loopInst | loopCollector | loopReturn | unlock | clear => rfl

/-- A step of another thread leaves alone the readers and the state of a collector. -/
theorem Move.core_of_ne {act : Process.Act} (hm : Move w t act w') (hg : Inv w g) (hr : r ≠ t)
    (hl : w.base.localCollector r = some c) :
    core (w'.base.collectors c) = core (w.base.collectors c) := by
  have hholds := hg.owning.holds_of_local hl
  rcases hm.cases_aside with ⟨act, b', hb, rfl⟩ | ⟨-, -, rfl⟩ | ⟨-, has⟩
  · exact hg.owning.core_of_other hb hr hholds
  · rw [exit_collectors, if_neg (Nat.ne_of_lt (hg.owning.fresh r c hholds)), if_neg]
    intro hl'
    exact hr (hg.owning.inj r t c hholds (hg.owning.holds_of_local hl'))
  · exact has.core c

/-- A step of another thread neither begins nor ends a guard. -/
theorem Move.guardAlive_of_ne {act : Process.Act} (hm : Move w t act w') (hg : Inv w g)
    (hr : r ≠ t) : w'.base.guardAlive r = w.base.guardAlive r := by
  unfold World.guardAlive
  rw [hm.localCollector_of_ne hr]
  cases hl : w.base.localCollector r with
  | none => rfl
  | some c =>
    have hcore := hm.core_of_ne hg hr hl
    have hreaders : (w'.base.collectors c).numReaders = (w.base.collectors c).numReaders :=
      congrArg (·.2.2) hcore
    have hstate : (w'.base.collectors c).state = (w.base.collectors c).state :=
      congrArg (·.1) hcore
    simp only [hreaders, hstate]

/-- A thread that exits has no guard. -/
def Unguarded (w : Process) : Prop := ∀ t, (w.stage t).temp ≠ none → w.base.guardAlive t = false

theorem Unguarded.step (h : Unguarded w) (hg : Inv w g) {a : Process.Action}
    (ho : orderly w a = true) (hs : w.step a = some w') : Unguarded w' := by
  intro r hr
  have hm := move_of_step hs
  by_cases hra : r = a.tid
  · subst hra
    by_contra halive
    rw [Bool.not_eq_false] at halive
    rcases orderly_cases ho hs with ⟨act, -, -, -, htemp⟩ | ⟨-, hl⟩
    · exact hr htemp
    · obtain ⟨htemp, hold⟩ := hl.guard halive
      rw [h _ htemp] at hold
      cases hold
  · rw [hm.stage_of_ne hra] at hr
    rw [hm.guardAlive_of_ne hg hra]
    exact h r hr

/-- The guard of the thread `r` keeps the instance `i` from being dropped. -/
def Protected (r : Tid) (i : InstId) (w : Process) : Prop :=
  Unguarded w ∧ ∃ g c v e, Inv w g ∧ Owned w g ∧ w.base.localCollector r = some c ∧
    Window c v e w g ∧ Shielded i e w g

theorem Protected.not_dropped (h : Protected r i w) : i ∉ w.base.dropped := by
  obtain ⟨-, g, c, v, e, -, ho, -, -, hi⟩ := h
  exact hi.not_dropped ho

/-- A thread keeps the collector of its guard, as long as the guard is alive. -/
theorem local_of_alive (hun : Unguarded w) (hg : Inv w g) {a : Process.Action}
    (ho : orderly w a = true) (hs : w.step a = some w') (hr : w.base.guardAlive r = true)
    (hr' : w'.base.guardAlive r = true) (hl : w.base.localCollector r = some c) :
    w'.base.localCollector r = some c := by
  by_cases hra : r = a.tid
  · subst hra
    rcases orderly_cases ho hs with ⟨act, hm, -⟩ | ⟨-, hleaves⟩
    · obtain ⟨d, hd, hn, hi⟩ := guardAlive_iff.mp hr
      cases hl.symm.trans hd
      exact (hg.owning.alive_stays hm hl hn hi).1
    · have hold := hun _ (hleaves.guard hr').1
      rw [hr] at hold
      cases hold
  · rw [(move_of_step hs).localCollector_of_ne hra, hl]

/-- An instance stays protected as long as the guard is alive. -/
theorem Protected.step (h : Protected r i w) {a : Process.Action} (ho : orderly w a = true)
    (hs : w.step a = some w') (hr : w.base.guardAlive r = true)
    (hr' : w'.base.guardAlive r = true) : Protected r i w' := by
  obtain ⟨hun, g, c, v, e, hg, howned, hl, hw, hi⟩ := h
  obtain ⟨g', hg', hghost⟩ := hg.step (move_of_step hs)
  have howned' := howned.step hg hg' hghost (move_of_step hs)
  have hl' := local_of_alive hun hg ho hs hr hr' hl
  have ha : Active c w' := by
    obtain ⟨d, hd, -, hact⟩ := guardAlive_iff.mp hr'
    cases hl'.symm.trans hd
    exact ⟨hact, (hg'.owning.registered r c hl').1⟩
  refine ⟨hun.step hg ho hs, g', c, v, e, hg', howned', hl', hw.step hg ho hs hghost ha hg', ?_⟩
  refine hi.step hg howned ho hs hghost hg' howned' hw.epoch (hw.epoch_step ho hs) hw.chain ?_
  intro hinv
  cases hw.active.2.symm.trans hinv

theorem unguarded_of_run (h : OrderlyRun .init w) : Unguarded w := by
  have hinv : Unguarded w ∧ ∃ g, Inv w g := by
    refine h.invariant (fun w => Unguarded w ∧ ∃ g, Inv w g)
      ⟨fun t ht => absurd rfl ht, _, inv_init⟩ ?_
    rintro x a x' ⟨hun, g, hg⟩ ho hs
    obtain ⟨g', hg', -⟩ := hg.step (move_of_step hs)
    exact ⟨hun.step hg ho hs, g', hg'⟩
  exact hinv.1

/-- A thread that does not exit can retire an instance. -/
theorem orderly_collect (htemp : (w.stage t).temp = none)
    (hs : w.step ⟨t, .base .collect⟩ = some w') : orderly w ⟨t, .base .collect⟩ = true := by
  obtain ⟨c, hu, -⟩ := Option.map_eq_some_iff.mp (base_of_step hs).1
  have htimely : timely w.base t = true := by
    unfold timely
    rcases Owning.user_cases hu with ⟨hpc, -⟩ | ⟨rest, hpc⟩ <;> rw [hpc]
  unfold orderly
  simp only [htimely, htemp, Option.isNone_none, Bool.and_self]

/-- A guard that is alive protects the instances that are retired from then on. -/
theorem protected_of_collect (h : OrderlyRun .init w) (hr : w.base.guardAlive r = true)
    (hs : w.step ⟨t, .base .collect⟩ = some w') (ho : orderly w ⟨t, .base .collect⟩ = true) :
    Protected r w.base.nextInst w' := by
  have hun := unguarded_of_run h
  obtain ⟨g, hg, howned, hwin⟩ := windows_of_run h
  have hm := move_of_step hs
  obtain ⟨g', hg', hghost⟩ := hg.step hm
  have howned' := howned.step hg hg' hghost hm
  obtain ⟨-, -, halive⟩ := process_collect hs
  have hr' : w'.base.guardAlive r = true := by rw [halive r, hr]
  obtain ⟨c, hl, -, hi⟩ := guardAlive_iff.mp hr
  have hl' := local_of_alive hun hg ho hs hr hr' hl
  have ha : Active c w' := by
    obtain ⟨d, hd, -, hact⟩ := guardAlive_iff.mp hr'
    cases hl'.symm.trans hd
    exact ⟨hact, (hg'.owning.registered r c hl').1⟩
  have hc : c ∈ g.chain := by
    refine (hg.chain.mem r c hl).resolve_right fun htemp => ?_
    have hno := hun r (by rw [htemp]; nofun)
    rw [hr] at hno
    cases hno
  obtain ⟨e, hw⟩ := hwin c (w.base.collectors c).state.epoch hc (by
    have hv := (hg.owning.registered r c hl).1
    revert hi hv
    cases (w.base.collectors c).state
    rintro rfl rfl
    rfl)
  have hw' := hw.step hg ho hs hghost ha hg'
  refine ⟨hun.step hg ho hs, g', c, _, e, hg', howned', hl', hw', ?_⟩
  -- The instance is at the front of the current list of the thread.
  obtain ⟨k, hu, hb⟩ := Option.map_eq_some_iff.mp (base_of_step hs).1
  have hlk : w'.base.localCollector t = some k := by
    rw [← hb]
    exact hg.owning.local_of_user hu
  have hk : k ∈ g'.chain := by
    refine (hg'.chain.mem t k hlk).resolve_right fun htemp => ?_
    unfold orderly at ho
    simp only [Bool.and_eq_true, Option.isNone_iff_eq_none] at ho
    have hstage := (temp_used (w.stage t) .collect).trans ho.2
    rw [(base_of_step hs).2, Function.update_self, hstage] at htemp
    cases htemp
  have hx : .inst w.base.nextInst ∈ (w'.base.collectors k).currentInstanceLink := by
    rw [← hb]
    show _ ∈ (Function.update w.base.collectors k _ k).currentInstanceLink
    rw [Function.update_self]
    exact List.mem_cons_self
  have hno : ∀ k e, w'.base.pc t ≠ .newGuard k e := by
    intro k e hp
    rw [← hb] at hp
    change w.base.pc t = _ at hp
    rcases Owning.user_cases hu with ⟨hpc, -⟩ | ⟨rest, hpc⟩ <;> cases hpc.symm.trans hp
  exact ⟨k, .inst w.base.nextInst, hk,
    young_of_collect (a := ⟨t, .base .collect⟩) hg howned' hm (hg.owning.local_of_user hu) hx hno,
    .here List.mem_cons_self⟩

/-- A destructor that runs while its thread exits must not retire anything. The thread 0 is in such
a destructor when the thread 1 creates its guard. What the destructor retires is dropped while the
guard is alive. -/
theorem exit_drops_guarded : ∃ w₁ w₂ w₃ : Process, Run Process.step (fun _ _ => True) .init w₁ ∧
    w₁.base.guardAlive 1 = true ∧ w₁.step ⟨0, .base .collect⟩ = some w₂ ∧
    Run Process.step (fun w _ => w.base.guardAlive 1 = true) w₂ w₃ ∧
    w₃.base.guardAlive 1 = true ∧ w₁.base.nextInst ∈ w₃.base.dropped := by
  have h : (exec Process.step (fun _ _ => true) .init (steps (register 0 ++ [⟨0, .newGuard⟩,
      ⟨0, .proceed⟩, ⟨0, .collect⟩, ⟨0, .endGuard⟩, ⟨0, .proceed⟩]) ++
      ⟨0, .exit⟩ :: List.replicate 6 ⟨0, .proceed⟩ ++
      steps (register 1 ++ [⟨1, .newGuard⟩, ⟨1, .proceed⟩]))).any (fun w₁ =>
      w₁.base.guardAlive 1 && (w₁.step ⟨0, .base .collect⟩).any fun w₂ =>
      (exec Process.step (fun w _ => w.base.guardAlive 1) w₂
        (List.replicate 6 ⟨0, .proceed⟩)).any fun w₃ =>
      w₃.base.guardAlive 1 && w₃.base.dropped.contains w₁.base.nextInst) = true := by
    decide +kernel
  obtain ⟨w₁, h₁, h⟩ := Run.of_exec_any h
  rw [Bool.and_eq_true, Option.any_eq_true] at h
  obtain ⟨hr, w₂, hs, h⟩ := h
  obtain ⟨w₃, h₂, h⟩ := Run.of_exec_any h
  rw [Bool.and_eq_true, List.contains_iff_mem] at h
  exact ⟨w₁, w₂, w₃, h₁.mono fun _ _ _ => trivial, hr, hs, h₂, h⟩

end Sdd.Proofs.Exit
