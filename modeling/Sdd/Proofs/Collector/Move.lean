import Sdd.Collector

/-!
# `Sdd.Proofs.Collector.Move`: what one action can do

`World.step` with its branches resolved: `Move w t w'` has one constructor for each way in
which one action of the thread `t` leads from `w` to `w'`, with the guards of the branch as
hypotheses and the resulting world written out. The kind of the action is recorded for
`suspend()`, which the runs of long-lived threads leave out. `move_of_step` says that every
action is one of these. The invariants of the following modules are proved by cases on `Move`.
-/

set_option autoImplicit false

namespace Sdd.Proofs

open Sdd.Collector
/-- One action of the thread `t`, with the branches of `World.step` resolved. -/
inductive Move (w : World) (t : Tid) (act : Act) : World → Prop where
  | allocBegin (hpc : w.pc t = .idle) (hl : w.localCollector t = none) (ha : act = .alloc) :
      Move w t act ({ w with
        collectors := Function.update w.collectors w.nextCollector .new
        nextCollector := w.nextCollector + 1 }.goto t (.alloc w.nextCollector w.chainHead))
  | allocRetry (c : CollectorId) (p : Ptr CollectorId) (hpc : w.pc t = .alloc c p)
      (hp : w.chainHead ≠ p) :
      Move w t act ((w.modify c fun k => { k with nextLink := p.addr }).goto t (.alloc c w.chainHead))
  | allocDone (c : CollectorId) (p : Ptr CollectorId) (hpc : w.pc t = .alloc c p)
      (hp : w.chainHead = p) :
      Move w t act ({ w.modify c fun k => { k with nextLink := p.addr } with
        chainHead := ⟨some c, p.tag⟩
        localCollector := Function.update w.localCollector t (some c) }.goto t .idle)
  /-- A guard is created: the global epoch is loaded. -/
  | load (c : CollectorId) (hu : w.user t = some c) (hn : (w.collectors c).numReaders = 0) :
      Move w t act ((w.modify c fun k => { k with numReaders := 1 }).goto t (.newGuard c w.epoch))
  /-- The loaded epoch is published, and it is the announced one. -/
  | publishSame (c : CollectorId) (e : Epoch) (hpc : w.pc t = .newGuard c e)
      (ha : (w.collectors c).announcement = e) :
      Move w t act ((w.modify c fun k => { k with state := ⟨e, false, false⟩ }).goto t .idle)
  /-- A new epoch is announced, and there is no garbage. -/
  | publishQuiet (c : CollectorId) (e : Epoch) (hpc : w.pc t = .newGuard c e)
      (ha : (w.collectors c).announcement ≠ e) (hg : (w.collectors c).hasGarbage = false) :
      Move w t act ((w.modify c fun k => { k with
        state := ⟨e, false, false⟩, announcement := e
        nextEpochUpdate := Collector.CADENCE }).goto t .idle)
  /-- A new epoch is announced, and the garbage lists rotate. -/
  | publishRotate (c : CollectorId) (e : Epoch) (hpc : w.pc t = .newGuard c e)
      (ha : (w.collectors c).announcement ≠ e) (hg : (w.collectors c).hasGarbage = true) :
      Move w t act ((w.modify c fun k =>
          { k with state := ⟨e, false, false⟩, announcement := e }.rotate).goto t
        (.drain c (w.collectors c).nextInstanceLink))
  | drainDone (c : CollectorId) (hpc : w.pc t = .drain c []) :
      Move w t act ((w.modify c fun k => { k with nextEpochUpdate := Collector.CADENCE }).goto t .idle)
  | drainInst (c : CollectorId) (i : InstId) (rest : List Garbage)
      (hpc : w.pc t = .drain c (.inst i :: rest)) :
      Move w t act ({ w with dropped := i :: w.dropped }.goto t (.destructor c rest))
  | drainCollector (c d : CollectorId) (rest : List Garbage)
      (hpc : w.pc t = .drain c (.collector d :: rest)) :
      Move w t act ((w.modify d .cleared).goto t (.drain c ((w.collectors d).garbage ++ rest)))
  | destructor (c : CollectorId) (rest : List Garbage) (hpc : w.pc t = .destructor c rest) :
      Move w t act (w.goto t (.drain c rest))
  /-- The own bookkeeping of the thread: a nested guard starts or ends, or a flag is set. -/
  | user (c : CollectorId) (f : Collector → Collector) (hu : w.user t = some c)
      (hn : (w.collectors c).numReaders ≠ 0) (hf : (f (w.collectors c)).numReaders ≠ 0)
      (hk : f (w.collectors c) = { w.collectors c with
        numReaders := (f (w.collectors c)).numReaders
        nextEpochUpdate := (f (w.collectors c)).nextEpochUpdate
        hasGarbage := (f (w.collectors c)).hasGarbage }) :
      Move w t act (w.modify c f)
  /-- The last guard ends, with a scan. -/
  | endScan (c : CollectorId) (hpc : w.pc t = .idle) (hl : w.localCollector t = some c)
      (hn : (w.collectors c).numReaders ≠ 0) :
      Move w t act ((w.modify c fun k => { k with numReaders := 0 }).goto t (.lockChain c))
  /-- The last guard ends, without a scan. -/
  | endQuiet (c : CollectorId) (u : Nat) (hpc : w.pc t = .idle)
      (hl : w.localCollector t = some c) (hn : (w.collectors c).numReaders ≠ 0) :
      Move w t act ((w.modify c fun k => { k with numReaders := 0, nextEpochUpdate := u }).goto t
        (.setInactive c))
  | lockFail (c : CollectorId) (hpc : w.pc t = .lockChain c) :
      Move w t act (w.scanned t c)
  | lock (c : CollectorId) (hpc : w.pc t = .lockChain c) (hf : w.chainHead.tag ≠ .first)
      (hb : w.chainHead.tag ≠ .both) :
      Move w t act ({ w with chainHead := w.chainHead.withTag .first }.goto t
        (.knownEpoch c w.chainHead.addr))
  | knownEpoch (c : CollectorId) (current : Option CollectorId)
      (hpc : w.pc t = .knownEpoch c current) :
      Move w t act (w.goto t (.scan c (w.collectors c).state none current))
  /-- The walk is complete: the global epoch is stored. -/
  | store (c : CollectorId) (known : StateByte) (prev : Option CollectorId)
      (hpc : w.pc t = .scan c known prev none) :
      Move w t act ({ w with epoch := known.epoch.next }.goto t (.unlockChain c))
  | scanOwn (c : CollectorId) (known : StateByte) (prev : Option CollectorId)
      (hpc : w.pc t = .scan c known prev (some c)) :
      Move w t act (w.goto t (.scan c known (some c) (w.collectors c).nextLink))
  | scanLoad (c : CollectorId) (known : StateByte) (prev : Option CollectorId) (d : CollectorId)
      (hpc : w.pc t = .scan c known prev (some d)) (hd : d ≠ c) :
      Move w t act (w.goto t (.scanNext c known prev d (w.collectors d).state))
  | nextInvalid (c : CollectorId) (known : StateByte) (prev : Option CollectorId)
      (d : CollectorId) (state : StateByte) (hpc : w.pc t = .scanNext c known prev d state)
      (hi : state.invalid = true) :
      Move w t act (w.goto t (.unlink c known prev d (w.collectors d).nextLink))
  | nextBreak (c : CollectorId) (known : StateByte) (prev : Option CollectorId)
      (d : CollectorId) (state : StateByte) (hpc : w.pc t = .scanNext c known prev d state)
      (hi : state.invalid = false) (hk : state.inactive = false ∧ state ≠ known) :
      Move w t act (w.goto t (.unlockChain c))
  | nextPass (c : CollectorId) (known : StateByte) (prev : Option CollectorId)
      (d : CollectorId) (state : StateByte) (hpc : w.pc t = .scanNext c known prev d state)
      (hi : state.invalid = false) (hk : state.inactive = true ∨ state = known) :
      Move w t act (w.goto t (.scan c known (some d) (w.collectors d).nextLink))
  | unlinkHead (c : CollectorId) (known : StateByte) (d : CollectorId)
      (next : Option CollectorId) (hpc : w.pc t = .unlink c known none d next)
      (hd : w.chainHead.addr = some d) :
      Move w t act (({ w with chainHead := ⟨next, w.chainHead.tag⟩ }.modify c
        (·.collect (.collector d))).goto t (.scan c known none next))
  | unlinkFail (c : CollectorId) (known : StateByte) (d : CollectorId)
      (next : Option CollectorId) (hpc : w.pc t = .unlink c known none d next)
      (hd : w.chainHead.addr ≠ some d) :
      Move w t act (w.goto t (.scan c known (some d) next))
  | unlinkMid (c : CollectorId) (known : StateByte) (p d : CollectorId)
      (next : Option CollectorId) (hpc : w.pc t = .unlink c known (some p) d next) :
      Move w t act (((w.modify p fun k => { k with nextLink := next }).modify c
        (·.collect (.collector d))).goto t (.scan c known (some p) next))
  | unlock (c : CollectorId) (hpc : w.pc t = .unlockChain c) :
      Move w t act (w.unlockChain.scanned t c)
  | setInactive (c : CollectorId) (hpc : w.pc t = .setInactive c) :
      Move w t act ((w.modify c fun k => { k with state := ⟨k.announcement, true, false⟩ }).goto t
        .idle)
  | markScanEnforced (tag : Tag) (hpc : w.pc t = .markScanEnforced)
      (hf : w.chainHead.tag = .first → tag = .both) (hb : w.chainHead.tag = .both → tag = .both)
      (hn : w.chainHead.tag ≠ .first → w.chainHead.tag ≠ .both → tag = .second) :
      Move w t act ({ w with chainHead := w.chainHead.withTag tag }.goto t .idle)
  | collect (c : CollectorId) (hu : w.user t = some c) :
      Move w t act { w.modify c (·.collect (.inst w.nextInst)) with nextInst := w.nextInst + 1 }
  /-- `suspend()` with a live guard, or without garbage. -/
  | suspendNone (ha : act = .passGarbage) (c : CollectorId) (hu : w.user t = some c) : Move w t act w
  | suspend (c : CollectorId) (hu : w.user t = some c) (hn : (w.collectors c).numReaders = 0)
      (ha : act = .passGarbage) :
      Move w t act ({ w.modify c fun k => { k with state := { k.state with invalid := true } } with
        localCollector := Function.update w.localCollector t none }.goto t .markScanEnforced)

/-- A guard that is not nested is created by a move. -/
private theorem move_newGuard {act : Act} {w w' : World} {t : Tid} {c : CollectorId}
    (hu : w.user t = some c) (h : w.newGuard t c = some w') : Move w t act w' := by
  unfold World.newGuard at h
  split at h
  · rename_i hn
    cases h
    exact .load c hu hn
  · rename_i hn
    split at h
    · cases h
    · cases h
      exact .user c _ hu hn (Nat.succ_ne_zero _) rfl

/-- The end of `new_guard`: the epoch was announced before, or is announced now. -/
private theorem move_publish {act : Act} {w : World} {t : Tid} {c : CollectorId} {e : Epoch}
    (hpc : w.pc t = .newGuard c e) : Move w t act (w.publish t c e) := by
  by_cases ha : (w.collectors c).announcement = e
  · have h : w.publish t c e
        = (w.modify c fun k => { k with state := ⟨e, false, false⟩ }).goto t .idle := by
      simp [World.publish, ha]
    rw [h]
    exact .publishSame c e hpc ha
  · cases hg : (w.collectors c).hasGarbage with
    | false =>
      have h : w.publish t c e = (w.modify c fun k => { k with
          state := ⟨e, false, false⟩, announcement := e
          nextEpochUpdate := Collector.CADENCE }).goto t .idle := by
        simp [World.publish, ha, hg, World.modify]
      rw [h]
      exact .publishQuiet c e hpc ha hg
    | true =>
      have h : w.publish t c e = (w.modify c fun k =>
          { k with state := ⟨e, false, false⟩, announcement := e }.rotate).goto t
            (.drain c (w.collectors c).nextInstanceLink) := by
        simp [World.publish, ha, hg, World.modify]
      rw [h]
      exact .publishRotate c e hpc ha hg

/-- One turn of the loop that drops the third list. -/
private theorem move_drain {act : Act} {w : World} {t : Tid} {c : CollectorId} {g : List Garbage}
    (hpc : w.pc t = .drain c g) : Move w t act (w.drain t c g) := by
  match g, hpc with
  | [], hpc => exact .drainDone c hpc
  | .inst i :: rest, hpc => exact .drainInst c i rest hpc
  | .collector d :: rest, hpc => exact .drainCollector c d rest hpc

/-- `end_guard`, with or without a scan. -/
private theorem move_endGuard {act : Act} {w w' : World} {t : Tid} {c : CollectorId}
    (hu : w.user t = some c) (h : w.endGuard t c = some w') : Move w t act w' := by
  unfold World.endGuard at h
  split at h
  · cases h
  rename_i hn
  split at h
  · split at h
    · rename_i hpc
      have hl : w.localCollector t = some c := by
        simpa [World.user, hpc] using hu
      simp only [World.modify_collectors, Function.update_self] at h
      split at h
      · cases h
        exact .endScan c hpc hl hn
      · split at h
        · cases h
          have : Move w t act _ := .endQuiet c ((w.collectors c).nextEpochUpdate - 1) hpc hl hn
          simpa [World.modify] using this
        · cases h
          have : Move w t act _ := .endQuiet c (w.collectors c).nextEpochUpdate hpc hl hn
          simpa [World.modify] using this
    · cases h
  · rename_i hn1
    cases h
    exact .user c _ hu hn (Nat.sub_ne_zero_of_lt (by omega)) rfl

/-- The walk of `scan` stands before a collector, or at the end of the chain. -/
private theorem move_scan {act : Act} {w : World} {t : Tid} {c : CollectorId} {known : StateByte}
    {prev cur : Option CollectorId} (hpc : w.pc t = .scan c known prev cur) :
    Move w t act (w.scan t c known prev cur) := by
  cases cur with
  | none => exact .store c known prev hpc
  | some d =>
    unfold World.scan
    simp only
    split
    · rename_i hd
      subst hd
      exact .scanOwn d known prev hpc
    · rename_i hd
      exact .scanLoad c known prev d hpc hd

/-- The walk of `scan` has loaded the state of a collector. -/
private theorem move_scanNext {act : Act} {w : World} {t : Tid} {c d : CollectorId}
    {known state : StateByte} {prev : Option CollectorId}
    (hpc : w.pc t = .scanNext c known prev d state) :
    Move w t act (w.scanNext t c known prev d state) := by
  unfold World.scanNext
  simp only
  split
  · rename_i hi
    exact .nextInvalid c known prev d state hpc hi
  · rename_i hi
    split
    · rename_i hk
      exact .nextBreak c known prev d state hpc (by simpa using hi) (by simpa using hk)
    · rename_i hk
      refine .nextPass c known prev d state hpc (by simpa using hi) ?_
      simpa [or_iff_not_imp_left] using hk

/-- The walk of `scan` takes an obsolete collector out of the chain. -/
private theorem move_unlink {act : Act} {w : World} {t : Tid} {c d : CollectorId}
    {known : StateByte} {prev next : Option CollectorId} (hpc : w.pc t = .unlink c known prev d next) :
    Move w t act (w.unlink t c known prev d next) := by
  unfold World.unlink
  cases prev with
  | none =>
    simp only
    split
    · rename_i hd
      exact .unlinkHead c known d next hpc hd
    · rename_i hd
      exact .unlinkFail c known d next hpc hd
  | some p => exact .unlinkMid c known p d next hpc

/-- A pointer that has the tag already. -/
private theorem withTag_self {p : Ptr CollectorId} {tag : Tag} (h : p.tag = tag) :
    p.withTag tag = p := by
  subst h
  rfl

/-- `mark_scan_enforced` writes the tag of the chain, if it is not there yet. -/
private theorem move_markScanEnforced {act : Act} {w : World} {t : Tid}
    (hpc : w.pc t = .markScanEnforced) : Move w t act (w.markScanEnforced.goto t .idle) := by
  cases htag : w.chainHead.tag with
  | none =>
    have h : Move w t act _ := .markScanEnforced .second hpc (by simp [htag]) (by simp [htag])
      fun _ _ => rfl
    simpa [World.markScanEnforced, htag] using h
  | first =>
    have h : Move w t act _ := .markScanEnforced .both hpc (by simp) (by simp)
      fun hf _ => absurd htag hf
    simpa [World.markScanEnforced, htag] using h
  | second =>
    have h : Move w t act _ := .markScanEnforced .second hpc (by simp [htag]) (by simp [htag])
      fun _ _ => rfl
    rw [withTag_self htag] at h
    simpa [World.markScanEnforced, htag] using h
  | both =>
    have h : Move w t act _ := .markScanEnforced .both hpc (by simp) (by simp)
      fun _ hb => absurd htag hb
    rw [withTag_self htag] at h
    simpa [World.markScanEnforced, htag] using h

/-- The next access of a call in progress. -/
private theorem move_proceed {act : Act} {w w' : World} {t : Tid} (h : w.proceed t = some w') :
    Move w t act w' := by
  unfold World.proceed at h
  split at h
  · cases h
  · rename_i c p hpc
    by_cases hp : w.chainHead = p
    · have h := (if_pos hp).symm.trans h
      cases h
      exact .allocDone c p hpc hp
    · have h := (if_neg hp).symm.trans h
      cases h
      exact .allocRetry c p hpc hp
  · rename_i c e hpc
    cases h
    exact move_publish hpc
  · rename_i c g hpc
    cases h
    exact move_drain hpc
  · rename_i c g hpc
    cases h
    exact .destructor c g hpc
  · rename_i c hpc
    cases h
    unfold World.lockChain
    split
    · exact .lockFail c hpc
    · rename_i hl
      exact .lock c hpc (fun hf => hl (.inl hf)) (fun hb => hl (.inr hb))
  · rename_i c cur hpc
    cases h
    exact .knownEpoch c cur hpc
  · rename_i hpc
    cases h
    exact move_scan hpc
  · rename_i hpc
    cases h
    exact move_scanNext hpc
  · rename_i hpc
    cases h
    exact move_unlink hpc
  · rename_i c hpc
    cases h
    exact .unlock c hpc
  · rename_i c hpc
    cases h
    exact .setInactive c hpc
  · rename_i hpc
    cases h
    exact move_markScanEnforced hpc

/-- Every action is a move. -/
theorem move_of_step {w w' : World} {a : Action} (h : w.step a = some w') :
    Move w a.tid a.act w' := by
  obtain ⟨t, act⟩ := a
  cases act with
  | proceed => exact move_proceed h
  | alloc =>
    simp only [World.step] at h
    split at h
    · rename_i hi
      cases h
      exact .allocBegin hi.1 hi.2 rfl
    · cases h
  | newGuard =>
    obtain ⟨c, hu, h⟩ := Option.bind_eq_some_iff.mp h
    exact move_newGuard hu h
  | endGuard =>
    obtain ⟨c, hu, h⟩ := Option.bind_eq_some_iff.mp h
    exact move_endGuard hu h
  | collect =>
    obtain ⟨c, hu, h⟩ := Option.map_eq_some_iff.mp h
    cases h
    exact .collect c hu
  | passGarbage =>
    obtain ⟨c, hu, h⟩ := Option.map_eq_some_iff.mp h
    cases h
    show Move w t .passGarbage (w.passGarbage t c)
    unfold World.passGarbage
    split
    · exact .suspendNone rfl c hu
    · rename_i hn
      exact .suspend c hu (by simpa using fun h => hn (.inl h)) rfl
  | accelerate =>
    obtain ⟨c, hu, h⟩ := Option.bind_eq_some_iff.mp h
    split at h
    · cases h
    · rename_i hn
      cases h
      exact .user c _ hu hn hn rfl
  | setHasGarbage =>
    obtain ⟨c, hu, h⟩ := Option.bind_eq_some_iff.mp h
    split at h
    · cases h
    · rename_i hn
      cases h
      exact .user c _ hu hn hn rfl

/-- Inside of a call a thread can only proceed. -/
theorem proceed_of_step {w w' : World} {t : Tid} {act : Act} (h : w.step ⟨t, act⟩ = some w')
    (hi : w.pc t ≠ .idle) (hd : ∀ c g, w.pc t ≠ .destructor c g) :
    act = .proceed ∧ w.proceed t = some w' := by
  have hu : w.user t = none := by
    unfold World.user
    split
    · rename_i hpc
      exact absurd hpc hi
    · rename_i c g hpc
      exact absurd hpc (hd c g)
    · rfl
  cases act with
  | proceed => exact ⟨rfl, h⟩
  | alloc => cases (if_neg fun h => hi h.1).symm.trans h
  | newGuard | endGuard | collect | passGarbage | accelerate | setHasGarbage =>
    simp only [World.step, hu] at h
    cases h

/-- A move of `t` leaves the other threads where they stand. -/
theorem Move.pc_of_ne {act : Act} {w w' : World} {t t' : Tid} (hm : Move w t act w')
    (ht : t' ≠ t) : w'.pc t' = w.pc t' := by
  cases hm
  case user | collect | suspendNone => rfl
  all_goals exact Function.update_of_ne ht _ _

/-- A move of `t` leaves the other threads their collectors. -/
theorem Move.localCollector_of_ne {act : Act} {w w' : World} {t t' : Tid} (hm : Move w t act w')
    (ht : t' ≠ t) : w'.localCollector t' = w.localCollector t' := by
  cases hm
  case allocDone | suspend => exact Function.update_of_ne ht _ _
  all_goals rfl

/-- Collectors are only allocated. -/
theorem Move.nextCollector_le {act : Act} {w w' : World} {t : Tid} (hm : Move w t act w') :
    w.nextCollector ≤ w'.nextCollector := by
  cases hm
  case allocBegin => exact Nat.le_succ _
  all_goals exact Nat.le_refl _

end Sdd.Proofs
