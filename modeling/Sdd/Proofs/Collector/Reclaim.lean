import Sdd.Proofs.Collector.Epochs

/-!
# `Sdd.Proofs.Collector.Reclaim`: what a live guard keeps from being dropped

An instance that a thread retires goes to the current list of its collector, and moves on
by one list each time the thread announces another epoch; the third change drops it. While
a guard `r` is alive that was alive when the instance was retired, the global epoch is `e`
or `e.next` (`Sdd.Proofs.Collector.Epochs`), so that the thread cannot announce three
different epochs after the retirement: `Held` says which announcements are possible for
each list. `retired_not_dropped` is the result, for timely runs without `suspend()`.

`retired_dropped` is a run of four threads in which the instance is dropped under the guard:
an announcement that is two epochs old makes a scan move the global epoch backwards.
-/

set_option autoImplicit false

namespace Sdd.Proofs

open Sdd.Collector Sdd.Lib

/-- The instances that `epoch_updated` still has to drop. -/
def pendingGarbage : Pc → List Garbage
  | .drain _ garbageLink | .destructor _ garbageLink => garbageLink
  | _ => []

/-- Nothing but retired instances is garbage, and no collector is obsolete. -/
structure InstancesOnly (w : World) : Prop where
  valid : ∀ c, (w.collectors c).state.invalid = false
  listed : ∀ c x, x ∈ (w.collectors c).garbage → ∃ i, x = .inst i ∧ i < w.nextInst
  pending : ∀ t x, x ∈ pendingGarbage (w.pc t) → ∃ i, x = .inst i ∧ i < w.nextInst
  dropped : ∀ i ∈ w.dropped, i < w.nextInst

/-- The fields of a collector that the retirement of instances depends on. -/
def bag (k : Collector) : Bool × Epoch × List Garbage × List Garbage × List Garbage :=
  (k.state.invalid, k.announcement, k.previousInstanceLink, k.currentInstanceLink,
    k.nextInstanceLink)

/-- What a move of a long-lived thread does to the garbage. -/
inductive Flow (w : World) (t : Tid) (w' : World) : Prop where
  /-- Nothing, or a new collector starts empty. -/
  | keep (hbag : ∀ d, bag (w'.collectors d) = bag (w.collectors d) ∨
        d = w.nextCollector ∧ bag (w'.collectors d) = bag .new)
      (hpend : ∀ x ∈ pendingGarbage (w'.pc t), x ∈ pendingGarbage (w.pc t))
      (hload : ∀ c e, w'.pc t = .newGuard c e → w.localCollector t = some c ∧ e = w.epoch)
      (hdrop : w'.dropped = w.dropped) (hnext : w'.nextInst = w.nextInst)
  /-- An epoch is announced, and no list moves on. -/
  | announce (c : CollectorId) (e : Epoch) (hpc : w.pc t = .newGuard c e)
      (hbag : bag (w'.collectors c) = (false, e, (bag (w.collectors c)).2.2))
      (hother : ∀ d, d ≠ c → bag (w'.collectors d) = bag (w.collectors d))
      (hpc' : w'.pc t = .idle) (hdrop : w'.dropped = w.dropped) (hnext : w'.nextInst = w.nextInst)
  /-- Another epoch is announced, and each list moves on. -/
  | rotate (c : CollectorId) (e : Epoch) (hpc : w.pc t = .newGuard c e)
      (hne : (w.collectors c).announcement ≠ e)
      (hbag : bag (w'.collectors c) = (false, e, (w.collectors c).currentInstanceLink, [],
        (w.collectors c).previousInstanceLink))
      (hother : ∀ d, d ≠ c → bag (w'.collectors d) = bag (w.collectors d))
      (hpc' : w'.pc t = .drain c (w.collectors c).nextInstanceLink)
      (hdrop : w'.dropped = w.dropped) (hnext : w'.nextInst = w.nextInst)
  /-- An instance is dropped. -/
  | drop (c : CollectorId) (i : InstId) (rest : List Garbage)
      (hpc : w.pc t = .drain c (.inst i :: rest)) (hcol : w'.collectors = w.collectors)
      (hpc' : w'.pc t = .destructor c rest) (hdrop : w'.dropped = i :: w.dropped)
      (hnext : w'.nextInst = w.nextInst)
  /-- An instance is retired. -/
  | collect (c : CollectorId) (hu : w.user t = some c)
      (hbag : bag (w'.collectors c) = bag ((w.collectors c).collect (.inst w.nextInst)))
      (hother : ∀ d, d ≠ c → bag (w'.collectors d) = bag (w.collectors d))
      (hpc' : w'.pc t = w.pc t) (hdrop : w'.dropped = w.dropped)
      (hnext : w'.nextInst = w.nextInst + 1)

/-- A write to one collector that keeps the bag. -/
theorem bag_modify {w : World} {c : CollectorId} {f : Collector → Collector}
    (h : bag (f (w.collectors c)) = bag (w.collectors c)) (d : CollectorId) :
    bag ((w.modify c f).collectors d) = bag (w.collectors d) := by
  rw [World.modify_collectors]
  by_cases hd : d = c
  · subst hd
    rw [Function.update_self, h]
  · rw [Function.update_of_ne hd]

/-- A move that writes no bag and goes to a place without garbage to drop. -/
theorem Flow.of_goto {w w' : World} {t : Tid} {pc : Pc}
    (hbag : ∀ d, bag (w'.collectors d) = bag (w.collectors d))
    (hpc : w'.pc t = pc) (hpend : pendingGarbage pc = []) (hload : ∀ c e, pc ≠ .newGuard c e)
    (hdrop : w'.dropped = w.dropped) (hnext : w'.nextInst = w.nextInst) : Flow w t w' := by
  refine .keep (fun d => .inl (hbag d)) ?_ ?_ hdrop hnext
  · rw [hpc, hpend]
    intro x hx
    cases hx
  · intro c e hp
    exact absurd (hpc.symm.trans hp) (hload c e)

/-- What a move of a long-lived thread does to the garbage: no collector is obsolete, so
that `scan` takes none out of the chain. -/
theorem flow_of_move {w w' : World} {g : Ghost} {t : Tid} {act : Act} (h : InstancesOnly w)
    (hg : Inv w g) (hm : Move w t act w') (ha : act ≠ .passGarbage) : Flow w t w' := by
  have hwalks := hg.walks t
  have hvalid : ∀ d, (w.collectors d).state.invalid ≠ true := by
    intro d hd
    rw [h.valid d] at hd
    cases hd
  have hself : ∀ pc, (w.goto t pc).pc t = pc := fun pc => Function.update_self _ _ _
  cases hm with
  | allocBegin hpc hl =>
    refine .keep (fun d => ?_) ?_ ?_ rfl rfl
    · by_cases hd : d = w.nextCollector
      · subst hd
        exact .inr ⟨rfl, congrArg bag (Function.update_self _ _ _)⟩
      · exact .inl (congrArg bag (Function.update_of_ne hd _ _))
    · rw [World.goto_pc, Function.update_self]
      intro x hx
      cases hx
    · intro c e hp
      rw [World.goto_pc, Function.update_self] at hp
      cases hp
  | allocRetry c p hpc =>
    exact .of_goto (bag_modify (f := fun k => { k with nextLink := p.addr }) rfl) (hself _) rfl
      (by simp) rfl rfl
  | allocDone c p hpc hp =>
    exact .of_goto (bag_modify (f := fun k => { k with nextLink := p.addr }) rfl) (hself _) rfl
      (by simp) rfl rfl
  | load c hu hn =>
    refine .keep (fun d => .inl (bag_modify (f := fun k => { k with numReaders := 1 }) rfl d)) ?_
      ?_ rfl rfl
    · rw [World.goto_pc, Function.update_self]
      intro x hx
      cases hx
    · intro d e hp
      rw [World.goto_pc, Function.update_self] at hp
      cases hp
      exact ⟨hg.threads.local_of_user hu, rfl⟩
  | publishSame c e hpc ha =>
    refine .announce c e hpc ?_ (fun d hd => ?_) (hself _) rfl rfl
    · rw [World.goto_collectors, World.modify_collectors, Function.update_self, ← ha]
      rfl
    · rw [World.goto_collectors, World.modify_collectors, Function.update_of_ne hd]
  | publishQuiet c e hpc ha hgb =>
    refine .announce c e hpc ?_ (fun d hd => ?_) (hself _) rfl rfl
    · rw [World.goto_collectors, World.modify_collectors, Function.update_self]
      rfl
    · rw [World.goto_collectors, World.modify_collectors, Function.update_of_ne hd]
  | publishRotate c e hpc ha hgb =>
    refine .rotate c e hpc ha ?_ (fun d hd => ?_) (hself _) rfl rfl
    · rw [World.goto_collectors, World.modify_collectors, Function.update_self]
      rfl
    · rw [World.goto_collectors, World.modify_collectors, Function.update_of_ne hd]
  | drainDone c hpc =>
    exact .of_goto (bag_modify (f := fun k => { k with nextEpochUpdate := Collector.CADENCE }) rfl)
      (hself _) rfl (by simp) rfl rfl
  | drainInst c i rest hpc => exact .drop c i rest hpc rfl (hself _) rfl rfl
  | drainCollector c d rest hpc =>
    have hx : Garbage.collector d ∈ pendingGarbage (w.pc t) := by
      rw [hpc]
      exact List.mem_cons_self
    obtain ⟨i, hi, -⟩ := h.pending t _ hx
    cases hi
  | destructor c rest hpc =>
    refine .keep (fun d => .inl rfl) ?_ ?_ rfl rfl
    · rw [hself, hpc]
      exact fun x hx => hx
    · intro d e hp
      rw [hself] at hp
      cases hp
  | user c f hu hn hf hk =>
    refine .keep (fun d => .inl (bag_modify ?_ d)) (fun x hx => hx) ?_ rfl rfl
    · rw [hk]
      rfl
    · intro d e hp
      rcases Owning.user_cases hu with ⟨hpc, -⟩ | ⟨rest, hpc⟩ <;> cases hpc.symm.trans hp
  | endScan c hpc hl hn =>
    exact .of_goto (bag_modify (f := fun k => { k with numReaders := 0 }) rfl) (hself _) rfl
      (by simp) rfl rfl
  | endQuiet c u hpc hl hn =>
    exact .of_goto (bag_modify (f := fun k => { k with numReaders := 0, nextEpochUpdate := u }) rfl)
      (hself _) rfl (by simp) rfl rfl
  | lockFail c hpc =>
    exact .of_goto (bag_modify (f := fun k => { k with nextEpochUpdate := Collector.CADENCE }) rfl)
      (hself _) rfl (by simp) rfl rfl
  | unlock c hpc =>
    exact .of_goto (bag_modify (f := fun k => { k with nextEpochUpdate := Collector.CADENCE }) rfl)
      (hself _) rfl (by simp) rfl rfl
  | lock | knownEpoch | store | scanOwn | scanLoad | nextBreak | nextPass | unlinkFail
    | markScanEnforced => exact .of_goto (fun _ => rfl) (hself _) rfl (by simp) rfl rfl
  | nextInvalid c known prev d state hpc hi =>
    rw [hpc] at hwalks
    obtain ⟨sc, rest, -, -, hinv, -⟩ := hwalks
    exact absurd (hinv hi) (hvalid d)
  | unlinkHead c known d next hpc hd =>
    rw [hpc] at hwalks
    obtain ⟨sc, rest, -, -, -, hinv, -⟩ := hwalks
    exact absurd hinv (hvalid d)
  | unlinkMid c known p d next hpc =>
    rw [hpc] at hwalks
    obtain ⟨sc, rest, -, -, -, hinv, -⟩ := hwalks
    exact absurd hinv (hvalid d)
  | setInactive c hpc =>
    refine .of_goto (bag_modify (f := fun k => { k with state := ⟨k.announcement, true, false⟩ }) ?_)
      (hself _) rfl (by simp) rfl rfl
    unfold bag
    rw [h.valid c]
  | collect c hu =>
    refine .collect c hu ?_ (fun d hd => ?_) rfl rfl rfl
    · show bag (Function.update w.collectors c ((w.collectors c).collect (.inst w.nextInst)) c) = _
      rw [Function.update_self]
    · show bag (Function.update w.collectors c ((w.collectors c).collect (.inst w.nextInst)) d) = _
      rw [Function.update_of_ne hd]
  | suspendNone hs => exact absurd hs ha
  | suspend c hu hn hs => exact absurd hs ha

/-- The garbage of a collector is part of its bag. -/
theorem mem_garbage {k : Collector} {x : Garbage} : x ∈ k.garbage ↔
    x ∈ k.previousInstanceLink ∨ x ∈ k.currentInstanceLink ∨ x ∈ k.nextInstanceLink := by
  simp [Collector.garbage]

theorem garbage_of_bag {k k' : Collector} (h : bag k' = bag k) : k'.garbage = k.garbage := by
  simp only [bag, Prod.mk.injEq] at h
  obtain ⟨-, -, hp, hc, hn⟩ := h
  unfold Collector.garbage
  rw [hp, hc, hn]

/-- Long-lived threads leave no obsolete collectors behind. -/
theorem InstancesOnly.step {w w' : World} {t : Tid} {act : Act} (h : InstancesOnly w) (hm : Move w t act w')
    (hf : Flow w t w') : InstancesOnly w' := by
  have hle : ∀ x, w.nextInst ≤ w'.nextInst → (∃ i, x = Garbage.inst i ∧ i < w.nextInst) →
      ∃ i, x = Garbage.inst i ∧ i < w'.nextInst := by
    rintro x hn ⟨i, hx, hi⟩
    exact ⟨i, hx, Nat.lt_of_lt_of_le hi hn⟩
  -- The pending garbage of the other threads stays.
  have hpending : w.nextInst ≤ w'.nextInst →
      (∀ x ∈ pendingGarbage (w'.pc t), ∃ i, x = .inst i ∧ i < w.nextInst) →
      ∀ t' x, x ∈ pendingGarbage (w'.pc t') → ∃ i, x = .inst i ∧ i < w'.nextInst := by
    intro hn hx t' x hx'
    by_cases ht : t' = t
    · subst ht
      exact hle x hn (hx x hx')
    · rw [hm.pc_of_ne ht] at hx'
      exact hle x hn (h.pending t' x hx')
  have hsame : ∀ d, bag (w'.collectors d) = bag (w.collectors d) →
      (w'.collectors d).state.invalid = false ∧
        ∀ x ∈ (w'.collectors d).garbage, ∃ i, x = .inst i ∧ i < w.nextInst := by
    intro d hd
    refine ⟨(congrArg Prod.fst hd).trans (h.valid d), fun x hx => ?_⟩
    rw [garbage_of_bag hd] at hx
    exact h.listed d x hx
  have hlists : ∀ c, w.nextInst ≤ w'.nextInst →
      (∀ d, d ≠ c → bag (w'.collectors d) = bag (w.collectors d)) →
      (w'.collectors c).state.invalid = false →
      (∀ x ∈ (w'.collectors c).garbage, ∃ i, x = .inst i ∧ i < w'.nextInst) →
      (∀ d, (w'.collectors d).state.invalid = false) ∧
        ∀ d x, x ∈ (w'.collectors d).garbage → ∃ i, x = .inst i ∧ i < w'.nextInst := by
    intro c hn hother hv hx
    refine ⟨fun d => ?_, fun d x hx' => ?_⟩ <;> by_cases hd : d = c
    · rw [hd, hv]
    · exact (hsame d (hother d hd)).1
    · subst hd
      exact hx x hx'
    · exact hle x hn ((hsame d (hother d hd)).2 x hx')
  have hdropped : w.nextInst ≤ w'.nextInst → (∀ i ∈ w'.dropped, i ∈ w.dropped ∨ i < w.nextInst) →
      ∀ i ∈ w'.dropped, i < w'.nextInst := by
    intro hn hd i hi
    rcases hd i hi with hi | hi
    · exact Nat.lt_of_lt_of_le (h.dropped i hi) hn
    · exact Nat.lt_of_lt_of_le hi hn
  cases hf with
  | keep hbag hpend hload hdrop hnext =>
    have hn := Nat.le_of_eq hnext.symm
    refine ⟨fun d => ?_, fun d x hx => ?_, hpending hn fun x hx => h.pending t x (hpend x hx),
      hdropped hn fun i hi => .inl (hdrop ▸ hi)⟩
    · rcases hbag d with hd | ⟨-, hd⟩
      · exact (hsame d hd).1
      · exact congrArg Prod.fst hd
    · rcases hbag d with hd | ⟨-, hd⟩
      · exact hle x hn ((hsame d hd).2 x hx)
      · rw [garbage_of_bag hd] at hx
        cases hx
  | announce c e hpc hbag hother hpc' hdrop hnext =>
    have hn := Nat.le_of_eq hnext.symm
    simp only [bag, Prod.mk.injEq] at hbag
    obtain ⟨hv, -, hp, hc, hx⟩ := hbag
    obtain ⟨h₁, h₂⟩ := hlists c hn hother hv (by
      intro x hx'
      rw [mem_garbage, hp, hc, hx, ← mem_garbage] at hx'
      exact hle x hn (h.listed c x hx'))
    refine ⟨h₁, h₂, hpending hn ?_, hdropped hn fun i hi => .inl (hdrop ▸ hi)⟩
    rw [hpc']
    intro x hx
    cases hx
  | rotate c e hpc hne hbag hother hpc' hdrop hnext =>
    have hn := Nat.le_of_eq hnext.symm
    simp only [bag, Prod.mk.injEq] at hbag
    obtain ⟨hv, -, hp, hc, hx⟩ := hbag
    obtain ⟨h₁, h₂⟩ := hlists c hn hother hv (by
      intro x hx'
      rw [mem_garbage, hp, hc, hx] at hx'
      refine hle x hn (h.listed c x (mem_garbage.mpr ?_))
      rcases hx' with hx' | hx' | hx'
      · exact .inr (.inl hx')
      · cases hx'
      · exact .inl hx')
    refine ⟨h₁, h₂, hpending hn ?_, hdropped hn fun i hi => .inl (hdrop ▸ hi)⟩
    rw [hpc']
    exact fun x hx => h.listed c x (mem_garbage.mpr (.inr (.inr hx)))
  | drop c i rest hpc hcol hpc' hdrop hnext =>
    have hn := Nat.le_of_eq hnext.symm
    have hpend : ∀ x ∈ Garbage.inst i :: rest, ∃ j, x = .inst j ∧ j < w.nextInst := by
      intro x hx
      refine h.pending t x ?_
      rw [hpc]
      exact hx
    refine ⟨fun d => ?_, fun d x hx => ?_, hpending hn ?_, hdropped hn fun j hj => ?_⟩
    · rw [hcol]
      exact h.valid d
    · rw [hcol] at hx
      exact hle x hn (h.listed d x hx)
    · rw [hpc']
      exact fun x hx => hpend x (List.mem_cons_of_mem _ hx)
    · rw [hdrop] at hj
      rcases List.mem_cons.mp hj with rfl | hj
      · obtain ⟨k, hk, hlt⟩ := hpend _ List.mem_cons_self
        cases hk
        exact .inr hlt
      · exact .inl hj
  | collect c hu hbag hother hpc' hdrop hnext =>
    have hn : w.nextInst ≤ w'.nextInst := hnext ▸ Nat.le_succ w.nextInst
    have hv : (w'.collectors c).state.invalid = false := (congrArg Prod.fst hbag).trans (h.valid c)
    obtain ⟨h₁, h₂⟩ := hlists c hn hother hv (by
      intro x hx
      rw [garbage_of_bag hbag, mem_garbage] at hx
      have hx' : x = .inst w.nextInst ∨ x ∈ (w.collectors c).garbage := by
        rw [mem_garbage]
        rcases hx with hx | hx | hx
        · exact .inr (.inl hx)
        · rcases List.mem_cons.mp hx with hx | hx
          · exact .inl hx
          · exact .inr (.inr (.inl hx))
        · exact .inr (.inr (.inr hx))
      rcases hx' with rfl | hx'
      · exact ⟨w.nextInst, rfl, hnext ▸ Nat.lt_succ_self w.nextInst⟩
      · exact hle x hn (h.listed c x hx'))
    refine ⟨h₁, h₂, hpending hn ?_, hdropped hn fun i hi => .inl (hdrop ▸ hi)⟩
    rw [hpc']
    exact h.pending t

/-- The first world is clean. -/
theorem instancesOnly_init : InstancesOnly World.init where
  valid := fun _ => rfl
  listed := by
    intro c x hx
    cases hx
  pending := by
    intro t x hx
    cases hx
  dropped := by
    intro i hi
    cases hi

/-- The epoch after `e`, which the global epoch has reached. -/
def Late (e : Epoch) (w : World) (x : Epoch) : Prop := x = e.next ∧ w.epoch = e.next

/-- The instance `i` was retired by the collector `k` while the global epoch was `e` or the
next epoch, and it is on one of the lists of `k`. -/
structure Held (i : InstId) (k : CollectorId) (e : Epoch) (w : World) : Prop where
  alive : i ∉ w.dropped
  retired : i < w.nextInst
  known : k < w.nextCollector
  pending : ∀ t, .inst i ∉ pendingGarbage (w.pc t)
  elsewhere : ∀ c, c ≠ k → .inst i ∉ (w.collectors c).garbage
  previous : .inst i ∈ (w.collectors k).previousInstanceLink →
    (w.collectors k).announcement = e ∨ Late e w (w.collectors k).announcement
  next : .inst i ∈ (w.collectors k).nextInstanceLink → Late e w (w.collectors k).announcement
  loaded : ∀ t e', w.pc t = .newGuard k e' → e' = e ∨ Late e w e'
  /-- What is loaded is not older than what was announced since the retirement. -/
  advanced : ∀ t e', w.pc t = .newGuard k e' →
    .inst i ∈ (w.collectors k).previousInstanceLink ∨ .inst i ∈ (w.collectors k).nextInstanceLink →
    (w.collectors k).announcement = e.next → e' = e.next

/-- The announcement and the older lists of a collector are part of its bag. -/
theorem announced_of_bag {k k' : Collector} (h : (bag k').2 = (bag k).2) :
    k'.announcement = k.announcement ∧ k'.previousInstanceLink = k.previousInstanceLink ∧
      k'.nextInstanceLink = k.nextInstanceLink := by
  simp only [bag, Prod.mk.injEq] at h
  exact ⟨h.1, h.2.1, h.2.2.2⟩

section Held

variable {w w' : World} {g : Ghost} {t : Tid} {act : Act} {i : InstId} {k : CollectorId}
  {e : Epoch}

/-- The epoch moves from `e` to `e.next` at most, so that what is late stays late. -/
theorem Late.mono {x : Epoch} (h : Late e w x)
    (he : w'.epoch = w.epoch ∨ w.epoch = e ∧ w'.epoch = e.next) : Late e w' x := by
  rcases he with he | ⟨-, he⟩
  · exact ⟨h.1, he.trans h.2⟩
  · exact ⟨h.1, he⟩

/-- The parts of `Held` that do not depend on the collector `k`. -/
private theorem Held.frame (h : Held i k e w) (hm : Move w t act w')
    (he : w'.epoch = w.epoch ∨ w.epoch = e ∧ w'.epoch = e.next)
    (hdrop : i ∉ w'.dropped) (hnext : w.nextInst ≤ w'.nextInst)
    (hpend : .inst i ∉ pendingGarbage (w'.pc t))
    (helse : ∀ c, c ≠ k → .inst i ∉ (w'.collectors c).garbage)
    (hprev : .inst i ∈ (w'.collectors k).previousInstanceLink →
      (w'.collectors k).announcement = e ∨ Late e w' (w'.collectors k).announcement)
    (hnextLink : .inst i ∈ (w'.collectors k).nextInstanceLink →
      Late e w' (w'.collectors k).announcement)
    (hload : ∀ e', w'.pc t = .newGuard k e' → e' = e ∨ Late e w' e')
    (hadv : ∀ t' e', w'.pc t' = .newGuard k e' →
      .inst i ∈ (w'.collectors k).previousInstanceLink ∨
        .inst i ∈ (w'.collectors k).nextInstanceLink →
      (w'.collectors k).announcement = e.next → e' = e.next) : Held i k e w' where
  alive := hdrop
  retired := Nat.lt_of_lt_of_le h.retired hnext
  known := Nat.lt_of_lt_of_le h.known hm.nextCollector_le
  pending := by
    intro t'
    by_cases ht : t' = t
    · subst ht
      exact hpend
    · rw [hm.pc_of_ne ht]
      exact h.pending t'
  elsewhere := helse
  previous := hprev
  next := hnextLink
  loaded := by
    intro t' e' hp
    by_cases ht : t' = t
    · subst ht
      exact hload e' hp
    · rw [hm.pc_of_ne ht] at hp
      exact (h.loaded t' e' hp).imp_right fun hl => hl.mono he
  advanced := hadv

/-- A move that keeps the bag of `k`, or adds another instance to its current list. -/
private theorem Held.same (h : Held i k e w) (hm : Move w t act w')
    (he : w'.epoch = w.epoch ∨ w.epoch = e ∧ w'.epoch = e.next)
    (hdrop : i ∉ w'.dropped) (hnext : w.nextInst ≤ w'.nextInst)
    (hpend : .inst i ∉ pendingGarbage (w'.pc t))
    (helse : ∀ c, c ≠ k → .inst i ∉ (w'.collectors c).garbage)
    (hsame : (w'.collectors k).announcement = (w.collectors k).announcement ∧
      (w'.collectors k).previousInstanceLink = (w.collectors k).previousInstanceLink ∧
      (w'.collectors k).nextInstanceLink = (w.collectors k).nextInstanceLink)
    (hload : ∀ e', w'.pc t = .newGuard k e' → e' = w.epoch)
    (hepoch : w.epoch = e ∨ w.epoch = e.next) : Held i k e w' := by
  obtain ⟨ha, hp, hn⟩ := hsame
  refine h.frame hm he hdrop hnext hpend helse ?_ ?_ ?_ ?_
  · rw [ha, hp]
    exact fun hi => (h.previous hi).imp_right fun hl => hl.mono he
  · rw [ha, hn]
    exact fun hi => (h.next hi).mono he
  · intro e' hpc
    rw [hload e' hpc]
    refine hepoch.imp_right fun hw => Late.mono ⟨hw, hw⟩ he
  · intro t' e' hpc hi hann
    rw [hp, hn] at hi
    rw [ha] at hann
    by_cases ht : t' = t
    · subst ht
      -- The global epoch had reached the announced one.
      have hlate : Late e w (w.collectors k).announcement := by
        rcases hi with hi | hi
        · rcases h.previous hi with hae | hl
          · exact absurd (hann.symm.trans hae) (Epoch.next_ne e)
          · exact hl
        · exact h.next hi
      rw [hload e' hpc]
      exact hlate.2
    · rw [hm.pc_of_ne ht] at hpc
      exact h.advanced t' e' hpc hi hann

/-- Every move keeps `Held`, as long as the epoch stays in the window. -/
theorem Held.step (h : Held i k e w) (hg : Inv w g)
    (hm : Move w t act w') (hf : Flow w t w') (hepoch : w.epoch = e ∨ w.epoch = e.next)
    (he : w'.epoch = w.epoch ∨ w.epoch = e ∧ w'.epoch = e.next) : Held i k e w' := by
  have helse : ∀ c, c ≠ k → bag (w'.collectors c) = bag (w.collectors c) →
      .inst i ∉ (w'.collectors c).garbage := by
    intro c hck hbag
    rw [garbage_of_bag hbag]
    exact h.elsewhere c hck
  -- Only the owner of `k` stands at the creation of a guard with it.
  have howner : ∀ c e', w.pc t = .newGuard c e' → ∀ t' e₂, t' ≠ t → w'.pc t' ≠ .newGuard c e₂ := by
    intro c e' hpc t' e₂ ht hpc'
    rw [hm.pc_of_ne ht] at hpc'
    have hl := hg.threads.local_of_own (t := t) (c := c) (by rw [hpc]; rfl)
    have hl' := hg.threads.local_of_own (t := t') (c := c) (by rw [hpc']; rfl)
    exact ht (hg.threads.inj t' t c (hg.threads.holds_of_local hl') (hg.threads.holds_of_local hl))
  cases hf with
  | keep hbag hpend hload hdrop hnext =>
    refine h.same hm he (hdrop ▸ h.alive) (Nat.le_of_eq hnext.symm)
      (fun hi => h.pending t (hpend _ hi)) (fun c hck => ?_) ?_
      (fun e' hpc => (hload k e' hpc).2) hepoch
    · rcases hbag c with hb | ⟨-, hb⟩
      · exact helse c hck hb
      · rw [garbage_of_bag hb]
        intro hi
        cases hi
    · rcases hbag k with hb | ⟨hk, -⟩
      · exact announced_of_bag (congrArg Prod.snd hb)
      · exact absurd h.known (hk ▸ Nat.lt_irrefl _)
  | announce c e' hpc hbag hother hpc' hdrop hnext =>
    have hpend : .inst i ∉ pendingGarbage (w'.pc t) := by
      rw [hpc']
      exact List.not_mem_nil
    have hidle : ∀ e₂, w'.pc t ≠ .newGuard k e₂ := by
      intro e₂ hp
      cases hpc'.symm.trans hp
    simp only [bag, Prod.mk.injEq] at hbag
    obtain ⟨-, ha, hp, hcur, hn⟩ := hbag
    have hle := Nat.le_of_eq hnext.symm
    by_cases hck : c = k
    · subst hck
      refine h.frame hm he (hdrop ▸ h.alive) hle hpend (fun d hd => helse d hd (hother d hd)) ?_ ?_
        (fun e₂ hp => absurd hp (hidle e₂)) ?_
      · rw [ha]
        exact fun _ => (h.loaded t e' hpc).imp_right fun hl => hl.mono he
      · rw [ha, hn]
        intro hi
        have hlate := h.next hi
        have he' : e' = e.next := h.advanced t e' hpc (.inr hi) hlate.1
        exact Late.mono ⟨he', hlate.2⟩ he
      · intro t' e₂ hp'
        by_cases ht : t' = t
        · subst ht
          exact absurd hp' (hidle e₂)
        · exact absurd hp' (howner c e' hpc t' e₂ ht)
    · refine h.same hm he (hdrop ▸ h.alive) hle hpend (fun d hd => ?_)
        (announced_of_bag (congrArg Prod.snd (hother k (Ne.symm hck))))
        (fun e₂ hp => absurd hp (hidle e₂)) hepoch
      by_cases hdc : d = c
      · subst hdc
        rw [mem_garbage, hp, hcur, hn, ← mem_garbage]
        exact h.elsewhere d hd
      · exact helse d hd (hother d hdc)
  | rotate c e' hpc hne hbag hother hpc' hdrop hnext =>
    have hdrain : ∀ e₂, w'.pc t ≠ .newGuard k e₂ := by
      intro e₂ hp
      cases hpc'.symm.trans hp
    simp only [bag, Prod.mk.injEq] at hbag
    obtain ⟨-, ha, hp, hcur, hn⟩ := hbag
    have hle := Nat.le_of_eq hnext.symm
    by_cases hck : c = k
    · subst hck
      -- An announcement that is late already is not followed by another one.
      have hlate : .inst i ∈ (w.collectors c).previousInstanceLink ∨
          .inst i ∈ (w.collectors c).nextInstanceLink → ¬ Late e w (w.collectors c).announcement := by
        intro hi hl
        exact hne (hl.1.trans (h.advanced t e' hpc hi hl.1).symm)
      refine h.frame hm he (hdrop ▸ h.alive) hle ?_ (fun d hd => helse d hd (hother d hd)) ?_ ?_
        (fun e₂ hp => absurd hp (hdrain e₂)) ?_
      · rw [hpc']
        exact fun hi => hlate (.inr hi) (h.next hi)
      · rw [ha]
        exact fun _ => (h.loaded t e' hpc).imp_right fun hl => hl.mono he
      · rw [ha, hn]
        intro hi
        rcases h.previous hi with hae | hl
        · rcases h.loaded t e' hpc with he' | hl
          · exact absurd (hae.trans he'.symm) hne
          · exact hl.mono he
        · exact absurd hl (hlate (.inl hi))
      · intro t' e₂ hp'
        by_cases ht : t' = t
        · subst ht
          exact absurd hp' (hdrain e₂)
        · exact absurd hp' (howner c e' hpc t' e₂ ht)
    · refine h.same hm he (hdrop ▸ h.alive) hle ?_ (fun d hd => ?_)
        (announced_of_bag (congrArg Prod.snd (hother k (Ne.symm hck))))
        (fun e₂ hp => absurd hp (hdrain e₂)) hepoch
      · rw [hpc']
        exact fun hi => h.elsewhere c hck (mem_garbage.mpr (.inr (.inr hi)))
      · by_cases hdc : d = c
        · subst hdc
          rw [mem_garbage, hp, hcur, hn]
          rintro (hi | hi | hi)
          · exact h.elsewhere d hd (mem_garbage.mpr (.inr (.inl hi)))
          · cases hi
          · exact h.elsewhere d hd (mem_garbage.mpr (.inl hi))
        · exact helse d hd (hother d hdc)
  | drop c j rest hpc hcol hpc' hdrop hnext =>
    have hpend : .inst i ∉ Garbage.inst j :: rest := by
      have hp := h.pending t
      rw [hpc] at hp
      exact hp
    refine h.same hm he ?_ (Nat.le_of_eq hnext.symm) ?_ (fun c hck => helse c hck (by rw [hcol]))
      (by rw [hcol]; exact ⟨rfl, rfl, rfl⟩) ?_ hepoch
    · rw [hdrop]
      intro hi
      rcases List.mem_cons.mp hi with rfl | hi
      · exact hpend List.mem_cons_self
      · exact h.alive hi
    · rw [hpc']
      exact fun hi => hpend (List.mem_cons_of_mem _ hi)
    · intro e' hp
      cases hpc'.symm.trans hp
  | collect c hu hbag hother hpc' hdrop hnext =>
    have hpend : .inst i ∉ pendingGarbage (w'.pc t) := by
      rw [hpc']
      exact h.pending t
    have hle : w.nextInst ≤ w'.nextInst := hnext ▸ Nat.le_succ w.nextInst
    have huser : ∀ e₂, w'.pc t ≠ .newGuard k e₂ := by
      intro e₂ hp
      rw [hpc'] at hp
      rcases Owning.user_cases hu with ⟨hpc, -⟩ | ⟨rest, hpc⟩ <;> cases hpc.symm.trans hp
    have hmem : .inst i ∈ (w'.collectors c).garbage → .inst i ∈ (w.collectors c).garbage := by
      rw [garbage_of_bag hbag, mem_garbage, mem_garbage]
      rintro (hi | hi | hi)
      · exact .inl hi
      · rcases List.mem_cons.mp hi with hi | hi
        · cases hi
          exact absurd h.retired (Nat.lt_irrefl _)
        · exact .inr (.inl hi)
      · exact .inr (.inr hi)
    refine h.same hm he (hdrop ▸ h.alive) hle hpend (fun d hd => ?_) ?_
      (fun e₂ hp => absurd hp (huser e₂)) hepoch
    · by_cases hdc : d = c
      · subst hdc
        exact fun hi => h.elsewhere d hd (hmem hi)
      · exact helse d hd (hother d hdc)
    · by_cases hck : k = c
      · subst hck
        simp only [bag, Prod.mk.injEq] at hbag
        exact ⟨hbag.2.1, hbag.2.2.1, hbag.2.2.2.2⟩
      · exact announced_of_bag (congrArg Prod.snd (hother k hck))

/-- An instance that is retired while the epoch is in the window is held. -/
theorem held_of_collect (hg : Inv w g) (hc : InstancesOnly w) (hu : w.user t = some k)
    (hs : w.step ⟨t, .collect⟩ = some w') : Held w.nextInst k e w' := by
  have hw' : w' = { w.modify k (·.collect (.inst w.nextInst)) with nextInst := w.nextInst + 1 } := by
    obtain ⟨c, hu', hw⟩ := Option.map_eq_some_iff.mp hs
    cases hu.symm.trans hu'
    exact hw.symm
  have hl := hg.threads.local_of_user hu
  have hpc : w'.pc = w.pc := by
    rw [hw']
    rfl
  have hfresh : ∀ x, (∃ j, x = Garbage.inst j ∧ j < w.nextInst) → x ≠ .inst w.nextInst := by
    rintro x ⟨j, rfl, hj⟩ hx
    cases hx
    exact Nat.lt_irrefl _ hj
  have hlists : ∀ c, w'.collectors c
      = if c = k then (w.collectors k).collect (.inst w.nextInst) else w.collectors c := by
    intro c
    rw [hw']
    show Function.update w.collectors k _ c = _
    rw [Function.update_apply]
  have hnew : ∀ t' e', w'.pc t' ≠ .newGuard k e' := by
    intro t' e' hp
    rw [hpc] at hp
    have hl' := hg.threads.local_of_own (t := t') (c := k) (by rw [hp]; rfl)
    have ht : t' = t :=
      hg.threads.inj t' t k (hg.threads.holds_of_local hl') (hg.threads.holds_of_local hl)
    subst ht
    rcases Owning.user_cases hu with ⟨hq, -⟩ | ⟨rest, hq⟩ <;> cases hq.symm.trans hp
  have hlisted := fun x hx => hfresh x (hc.listed k x hx)
  refine ⟨?_, ?_, ?_, ?_, ?_, ?_, ?_, fun t' e' hp => absurd hp (hnew t' e'),
    fun t' e' hp => absurd hp (hnew t' e')⟩
  · rw [hw']
    exact fun hi => Nat.lt_irrefl _ (hc.dropped _ hi)
  · rw [hw']
    exact Nat.lt_succ_self w.nextInst
  · rw [hw']
    exact hg.threads.fresh t k (hg.threads.holds_of_local hl)
  · intro t' hi
    rw [hpc] at hi
    exact hfresh _ (hc.pending t' _ hi) rfl
  · intro c hck hi
    rw [hlists, if_neg hck] at hi
    exact hfresh _ (hc.listed c _ hi) rfl
  · intro hi
    rw [hlists, if_pos rfl] at hi
    exact absurd rfl (hlisted _ (mem_garbage.mpr (.inl hi)))
  · intro hi
    rw [hlists, if_pos rfl] at hi
    exact absurd rfl (hlisted _ (mem_garbage.mpr (.inr (.inr hi))))

end Held

/-- A run of long-lived threads: every action is timely, and no thread suspends. -/
def LongLived (w : World) (a : Action) : Prop := timely w a.tid = true ∧ a.act ≠ .passGarbage

/-- In runs of long-lived threads no collector becomes obsolete. -/
theorem clean_of_run {w : World} (h : Run World.step LongLived .init w) :
    ∃ g, Inv w g ∧ InstancesOnly w := by
  refine h.invariant (fun w => ∃ g, Inv w g ∧ InstancesOnly w) ⟨_, inv_init, instancesOnly_init⟩ ?_
  rintro x a x' ⟨g, hg, hc⟩ ⟨hp, ha⟩ hs
  obtain ⟨g', hg', -⟩ := timely_step hg hp hs
  exact ⟨g', hg', hc.step (move_of_step hs) (flow_of_move hc hg (move_of_step hs) ha)⟩

/-- Reclamation safety in timely runs of long-lived threads: an instance that is retired
while the guard of the thread `r` is alive is not dropped as long as that guard is alive. -/
theorem retired_not_dropped {w₁ w₂ w₃ : World} {r t : Tid}
    (h₁ : Run World.step LongLived .init w₁) (hr : w₁.guardAlive r = true)
    (hs : w₁.step ⟨t, .collect⟩ = some w₂)
    (h₂ : Run World.step (fun w a => LongLived w a ∧ w.guardAlive r = true) w₂ w₃) :
    w₁.nextInst ∉ w₃.dropped := by
  obtain ⟨g, hg, hc⟩ := clean_of_run h₁
  have ht : timely w₁ t = true := by
    obtain ⟨c, hu, -⟩ := Option.map_eq_some_iff.mp hs
    unfold timely
    rcases Owning.user_cases hu with ⟨hpc, -⟩ | ⟨rest, hpc⟩ <;> rw [hpc]
  obtain ⟨k, hu, -⟩ := Option.map_eq_some_iff.mp hs
  obtain ⟨c, v, e, hw⟩ := watched_of_alive (h₁.mono fun _ _ hp => hp.1) hr
  have hw₂ : Watched r c v e w₂ := (hw.step (a := ⟨t, .collect⟩) ht hr hs).1
  have hheld₂ : Held w₁.nextInst k e w₂ := held_of_collect hg hc hu hs
  have hc₂ : InstancesOnly w₂ := by
    have hm := move_of_step hs
    exact hc.step hm (flow_of_move hc hg hm (by simp))
  have hinv : Watched r c v e w₃ ∧ InstancesOnly w₃ ∧ Held w₁.nextInst k e w₃ := by
    refine h₂.invariant (fun w => Watched r c v e w ∧ InstancesOnly w ∧ Held w₁.nextInst k e w)
      ⟨hw₂, hc₂, hheld₂⟩ ?_
    rintro x a x' ⟨hx, hcx, hh⟩ ⟨⟨hp, ha⟩, hrx⟩ hsx
    obtain ⟨hx', he⟩ := hx.step hp hrx hsx
    obtain ⟨-, gx, hgx, hwin⟩ := hx
    have hm := move_of_step hsx
    have hf := flow_of_move hcx hgx hm ha
    exact ⟨hx', hcx.step hm hf, hh.step hgx hm hf hwin.epoch he⟩
  exact hinv.2.2.alive

/-- The guard of the thread 0 keeps an instance of the thread 1 from being dropped: the
thread 1 scans, and its next guard rotates the lists. -/
theorem retired_not_dropped_once : ∃ w₁ w₂ w₃ : World, w₁.guardAlive 0 = true ∧
    w₁.step ⟨1, .collect⟩ = some w₂ ∧ w₃.epoch = w₁.epoch.next ∧ w₁.nextInst ∉ w₃.dropped := by
  have h : (exec World.step (fun w a => timely w a.tid && a.act != .passGarbage) .init
      (register 0 ++ register 1 ++ [⟨0, .newGuard⟩, ⟨0, .proceed⟩, ⟨1, .newGuard⟩,
        ⟨1, .proceed⟩])).any (fun w₁ => w₁.guardAlive 0 && (w₁.step ⟨1, .collect⟩).any fun w₂ =>
      (exec World.step (fun w a => timely w a.tid && a.act != .passGarbage && w.guardAlive 0) w₂
        ([⟨1, .accelerate⟩, ⟨1, .endGuard⟩] ++ proceed 1 8 ++ [⟨1, .newGuard⟩, ⟨1, .proceed⟩])).any
      fun w₃ => w₃.epoch == w₁.epoch.next) = true := by
    decide
  obtain ⟨w₁, hw₁, h⟩ := Run.of_exec_any h
  rw [Bool.and_eq_true, Option.any_eq_true] at h
  obtain ⟨hr, w₂, hs, h⟩ := h
  obtain ⟨w₃, hw₃, he⟩ := Run.of_exec_any h
  refine ⟨w₁, w₂, w₃, hr, hs, by simpa using he, ?_⟩
  refine retired_not_dropped (hw₁.mono fun w a hp => ?_) hr hs (hw₃.mono fun w a hp => ?_)
  · simpa [LongLived] using hp
  · simpa [LongLived] using hp

/-- Four threads, and no `suspend()`. The threads 0 and 1 load the first epoch; the thread 2
advances the global epoch to the third one, and starts a scan that passes the thread 0 before
this one publishes the old epoch. From then on the guard of the thread 0 is alive. The thread
3 retires an instance and announces the third epoch. The scan ends, and the thread 3 announces
the fourth one. The thread 1 publishes the old epoch, and its scan passes the thread 0,
which announces the same one, and moves the global epoch backwards. With the next
announcement the thread 3 drops the instance. -/
theorem retired_dropped : ∃ w₁ w₂ w₃,
    Run World.step (fun _ a => a.act ≠ .passGarbage) .init w₁ ∧ w₁.guardAlive 0 = true ∧
    w₁.step ⟨3, .collect⟩ = some w₂ ∧
    Run World.step (fun w a => a.act ≠ .passGarbage ∧ w.guardAlive 0 = true) w₂ w₃ ∧
    w₃.guardAlive 0 = true ∧ w₁.nextInst ∈ w₃.dropped := by
  have h : (exec World.step (fun _ a => a.act != .passGarbage) .init
      (register 0 ++ register 1 ++ register 2 ++ register 3 ++ [⟨0, .newGuard⟩, ⟨1, .newGuard⟩] ++
        scanning 2 ++ proceed 2 12 ++ scanning 2 ++ proceed 2 9 ++ proceed 0 1)).any
      (fun w₁ => w₁.guardAlive 0 && (w₁.step ⟨3, .collect⟩).any fun w₂ =>
      (exec World.step (fun w a => a.act != .passGarbage && w.guardAlive 0) w₂
        ([⟨3, .newGuard⟩] ++ proceed 3 2 ++ [⟨3, .endGuard⟩] ++ proceed 3 1 ++ proceed 2 3 ++
          [⟨3, .newGuard⟩] ++ proceed 3 2 ++ [⟨3, .endGuard⟩] ++ proceed 3 1 ++
          [⟨1, .proceed⟩, ⟨1, .accelerate⟩, ⟨1, .endGuard⟩] ++ proceed 1 12 ++
          [⟨3, .newGuard⟩] ++ proceed 3 2)).any fun w₃ =>
      w₃.guardAlive 0 && w₃.dropped.contains w₁.nextInst) = true := by
    decide
  obtain ⟨w₁, hw₁, h⟩ := Run.of_exec_any h
  rw [Bool.and_eq_true, Option.any_eq_true] at h
  obtain ⟨hr, w₂, hs, h⟩ := h
  obtain ⟨w₃, hw₃, h⟩ := Run.of_exec_any h
  rw [Bool.and_eq_true, List.contains_iff_mem] at h
  refine ⟨w₁, w₂, w₃, hw₁.mono fun w a hp => ?_, hr, hs, hw₃.mono fun w a hp => ?_, h⟩
  · simpa using hp
  · simpa using hp

end Sdd.Proofs
