import Sdd.Nesting
import Sdd.Lib.Run

/-!
# `Sdd.Proofs.Nesting`: guards count as readers

The stack of a thread has one of four shapes (`Phase`): it is empty; `new_guard` is about to publish
the epoch; `epoch_updated` runs destructors; or `end_guard` is at its end. In each of them the
number of readers is the number of live guards, plus the guard that `new_guard` has not returned yet.
So nothing that a destructor calls gets to the first or the last reader: a second `new_guard` or
`epoch_updated` is never on the stack, and the state of the collector stays as it is.

`Base` is what holds in every shape: the live guards belong to the collector of the thread, and the
collectors that it has given up have no readers.
-/

set_option autoImplicit false

namespace Sdd.Proofs.Nesting

open Sdd.Collector Sdd.Nesting
open Sdd.Nesting.State

variable {s s' : State} {c d : CollectorId} {fs : List Nesting.Frame}

/-! ## The invariant -/

/-- The collector was allocated by the thread. -/
def Own (s : State) (c : CollectorId) : Prop := s.foreign ≤ c ∧ c < s.nextCollector

/-- The state byte is the announcement, without the bits. -/
def Published (k : Collector) : Prop := k.state = ⟨k.announcement, false, false⟩

/-- Between two calls: with readers the epoch is published, and without the collector is inactive. -/
def AtRest (k : Collector) : Prop :=
  (k.numReaders = 0 → k.state.inactive = true ∧ k.state.invalid = false) ∧
    (0 < k.numReaders → Published k)

/-- The calls inside of an `epoch_updated`, which `new_guard` was called for by user code that is
not a destructor. -/
def Running (c : CollectorId) : List Nesting.Frame → Prop
  | [.epochUpdated d _] => d = c
  | .destructor _ :: fs | .clearForDrop _ _ :: fs => Running c fs
  | _ => False

/-- The shapes of the stack, with what is known of the collector of the thread. -/
inductive Phase (s : State) : List Nesting.Frame → Prop where
  | idle (h : ∀ c, s.localCollector = some c →
      AtRest (s.collectors c) ∧ (s.collectors c).numReaders = s.guards.length) : Phase s []
  | newGuard {c : CollectorId} {e : Epoch} (hc : s.localCollector = some c) (hg : s.guards = [])
      (hn : (s.collectors c).numReaders = 1) : Phase s [.newGuard c e]
  | running {c : CollectorId} {fs : List Nesting.Frame} (hfs : Running c fs)
      (hc : s.localCollector = some c) (hp : Published (s.collectors c))
      (hn : (s.collectors c).numReaders = s.guards.length + 1) : Phase s fs
  | ending {c : CollectorId} {f : Nesting.Frame} (hf : f = .scan c ∨ f = .setInactive c)
      (hc : s.localCollector = some c) (hp : Published (s.collectors c)) (hg : s.guards = [])
      (hn : (s.collectors c).numReaders = 0) : Phase s [f]

/-- What holds whatever the thread does. -/
structure Base (s : State) : Prop where
  fault : s.fault = false
  allocated : s.foreign ≤ s.nextCollector
  own : ∀ c, s.localCollector = some c → Own s c
  guards : ∀ g ∈ s.guards, s.localCollector = some g.2
  old : ∀ c, Own s c → s.localCollector ≠ some c →
    (s.collectors c).numReaders = 0 ∧ (s.collectors c).state.inactive = true
  bound : ∀ c, Own s c → (s.collectors c).numReaders ≤ Collector.MAX_READERS

structure Inv (s : State) : Prop where
  base : Base s
  phase : Phase s s.stack

/-- The first state. -/
theorem inv_init (others : CollectorId → Collector) (foreign : CollectorId) :
    Inv (init others foreign) where
  base :=
    { fault := rfl
      allocated := Nat.le_refl _
      own := nofun
      guards := nofun
      old := fun _ h => absurd h.2 (Nat.not_lt.mpr h.1)
      bound := fun _ h => absurd h.2 (Nat.not_lt.mpr h.1) }
  phase := .idle nofun

/-! ## Changes that the guards do not see -/

/-- The fields that the invariant speaks of are the same in two collectors. -/
def Same (k k' : Collector) : Prop :=
  k'.state = k.state ∧ k'.announcement = k.announcement ∧ k'.numReaders = k.numReaders

theorem Same.refl (k : Collector) : Same k k := ⟨rfl, rfl, rfl⟩

theorem same_collect (k : Collector) (x : Garbage) : Same k (k.collect x) := ⟨rfl, rfl, rfl⟩

/-- What a panic leaves in `garbage_link` is collected again. -/
theorem same_foldl (link : List Garbage) (k : Collector) :
    Same k (link.foldl Collector.collect k) := by
  induction link generalizing k with
  | nil => exact .refl k
  | cons x link ih => exact ih (k.collect x)

theorem Published.same {k k' : Collector} (h : Published k) (hs : Same k k') : Published k' := by
  unfold Published at h ⊢
  rw [hs.1, hs.2.1]
  exact h

theorem AtRest.same {k k' : Collector} (h : AtRest k) (hs : Same k k') : AtRest k' := by
  refine ⟨fun hn => ?_, fun hn => ?_⟩
  · rw [hs.2.2] at hn
    rw [hs.1]
    exact h.1 hn
  · rw [hs.2.2] at hn
    exact (h.2 hn).same hs

/-- Two states of which the collectors of the thread differ in other fields only. -/
structure Quiet (s s' : State) : Prop where
  collectors : ∀ c, Own s c → Same (s.collectors c) (s'.collectors c)
  foreign : s'.foreign = s.foreign
  next : s'.nextCollector = s.nextCollector
  localCollector : s'.localCollector = s.localCollector
  guards : s'.guards = s.guards
  fault : s'.fault = s.fault

theorem Quiet.own (h : Quiet s s') : Own s' c ↔ Own s c := by
  unfold Own
  rw [h.foreign, h.next]

theorem Base.quiet (hb : Base s) (h : Quiet s s') : Base s' where
  fault := h.fault.trans hb.fault
  allocated := by rw [h.foreign, h.next]; exact hb.allocated
  own := fun c hc => h.own.mpr (hb.own c (h.localCollector ▸ hc))
  guards := fun g hg => by
    rw [h.localCollector]
    exact hb.guards g (h.guards ▸ hg)
  old := fun c hc hne => by
    have hown : Own s c := h.own.mp hc
    rw [(h.collectors c hown).2.2, (h.collectors c hown).1]
    exact hb.old c hown (h.localCollector ▸ hne)
  bound := fun c hc => by
    have hown : Own s c := h.own.mp hc
    rw [(h.collectors c hown).2.2]
    exact hb.bound c hown

theorem Phase.quiet (hp : Phase s fs) (hb : Base s) (h : Quiet s s') : Phase s' fs := by
  have hsame : ∀ c, s.localCollector = some c → Same (s.collectors c) (s'.collectors c) :=
    fun c hc => h.collectors c (hb.own c hc)
  cases hp with
  | idle hr =>
    refine .idle fun c hc => ?_
    rw [h.localCollector] at hc
    rw [(hsame c hc).2.2, h.guards]
    exact ⟨(hr c hc).1.same (hsame c hc), (hr c hc).2⟩
  | newGuard hc hg hn =>
    exact .newGuard (h.localCollector.trans hc) (h.guards.trans hg) ((hsame _ hc).2.2.trans hn)
  | running hfs hc hp hn =>
    refine .running hfs (h.localCollector.trans hc) (hp.same (hsame _ hc)) ?_
    rw [(hsame _ hc).2.2, h.guards]
    exact hn
  | ending hf hc hp hg hn =>
    exact .ending hf (h.localCollector.trans hc) (hp.same (hsame _ hc)) (h.guards.trans hg)
      ((hsame _ hc).2.2.trans hn)

/-- A step that changes nothing the guards see. -/
theorem Inv.quiet (hi : Inv s) (h : Quiet s s') (hstack : s'.stack = s.stack) : Inv s' :=
  ⟨hi.base.quiet h, hstack ▸ hi.phase.quiet hi.base h⟩

/-- A change of one collector that the guards do not see. -/
theorem quiet_modify {f : Collector → Collector} (hf : Same (s.collectors c) (f (s.collectors c))) :
    Quiet s (s.modify c f) where
  collectors := fun d _ => by
    by_cases hd : d = c
    · rw [hd, modify_collectors, Function.update_self]
      exact hf
    · rw [modify_collectors, Function.update_of_ne hd]
      exact .refl _
  foreign := rfl
  next := rfl
  localCollector := rfl
  guards := rfl
  fault := rfl

/-! ## Changes of the collector of the thread -/

/-- The collector of the thread and its guards change, and nothing else. -/
structure Moved (c : CollectorId) (s s' : State) : Prop where
  others : ∀ d, d ≠ c → s'.collectors d = s.collectors d
  foreign : s'.foreign = s.foreign
  next : s'.nextCollector = s.nextCollector
  localCollector : s'.localCollector = s.localCollector
  fault : s'.fault = s.fault

theorem Base.moved (hb : Base s) (hc : s.localCollector = some c) (h : Moved c s s')
    (hguards : ∀ g ∈ s'.guards, g ∈ s.guards ∨ g.2 = c)
    (hbound : (s'.collectors c).numReaders ≤ Collector.MAX_READERS) : Base s' := by
  have hown : ∀ d, Own s' d ↔ Own s d := fun d => by
    unfold Own
    rw [h.foreign, h.next]
  refine ⟨h.fault.trans hb.fault, ?_, fun d hd => ?_, fun g hg => ?_, fun d hd hne => ?_,
    fun d hd => ?_⟩
  · rw [h.foreign, h.next]
    exact hb.allocated
  · exact (hown d).mpr (hb.own d (h.localCollector ▸ hd))
  · rw [h.localCollector]
    rcases hguards g hg with hold | hnew
    · exact hb.guards g hold
    · rw [hnew]
      exact hc
  · rw [h.localCollector] at hne
    have hdc : d ≠ c := fun hdc => hne (hdc ▸ hc)
    rw [h.others d hdc]
    exact hb.old d ((hown d).mp hd) hne
  · by_cases hdc : d = c
    · rw [hdc]
      exact hbound
    · rw [h.others d hdc]
      exact hb.bound d ((hown d).mp hd)

/-- The collector of the thread is stored anew. -/
theorem Base.of_update {k : Collector} (hb : Base s) (hc : s.localCollector = some c)
    (hcollectors : s'.collectors = Function.update s.collectors c k)
    (hforeign : s'.foreign = s.foreign) (hnext : s'.nextCollector = s.nextCollector)
    (hlocal : s'.localCollector = s.localCollector) (hfault : s'.fault = s.fault)
    (hguards : ∀ g ∈ s'.guards, g ∈ s.guards ∨ g.2 = c)
    (hbound : k.numReaders ≤ Collector.MAX_READERS) : Base s' ∧ s'.collectors c = k := by
  have hself : s'.collectors c = k := by rw [hcollectors, Function.update_self]
  have hmoved : Moved c s s' := by
    refine ⟨fun d hd => ?_, hforeign, hnext, hlocal, hfault⟩
    rw [hcollectors, Function.update_of_ne hd]
  exact ⟨hb.moved hc hmoved hguards (hself ▸ hbound), hself⟩

/-- A step that stores the collector of the thread anew. -/
theorem Inv.of_update {k : Collector} (hb : Base s) (hc : s.localCollector = some c)
    (hcollectors : s'.collectors = Function.update s.collectors c k)
    (hforeign : s'.foreign = s.foreign) (hnext : s'.nextCollector = s.nextCollector)
    (hlocal : s'.localCollector = s.localCollector) (hfault : s'.fault = s.fault)
    (hguards : ∀ g ∈ s'.guards, g ∈ s.guards ∨ g.2 = c)
    (hbound : k.numReaders ≤ Collector.MAX_READERS)
    (hphase : s'.collectors c = k → Phase s' s'.stack) : Inv s' := by
  obtain ⟨hbase, hself⟩ :=
    hb.of_update hc hcollectors hforeign hnext hlocal hfault hguards hbound
  exact ⟨hbase, hphase hself⟩

theorem modify_self (f : Collector → Collector) :
    (s.modify c f).collectors c = f (s.collectors c) := Function.update_self _ _ _

/-- The collector of user code, between two calls or in a destructor. -/
theorem user_cases (hi : Inv s) (hu : s.user = true) (hc : s.localCollector = some c) :
    s.stack = [] ∧ AtRest (s.collectors c) ∧ (s.collectors c).numReaders = s.guards.length ∨
    Running c s.stack ∧ Published (s.collectors c) ∧
      (s.collectors c).numReaders = s.guards.length + 1 := by
  have hphase := hi.phase
  generalize hfs : s.stack = fs at hphase
  cases hphase with
  | idle h => exact .inl ⟨rfl, h c hc⟩
  | newGuard hc' hg hn =>
    rw [user, hfs] at hu
    cases hu
  | running hr hc' hp hn =>
    rw [hc] at hc'
    cases hc'
    exact .inr ⟨hr, hp, hn⟩
  | ending hf hc' hp hg hn =>
    rw [user, hfs] at hu
    rcases hf with rfl | rfl <;> cases hu

/-- With readers, user code finds the epoch published. -/
theorem published_of_user (hi : Inv s) (hu : s.user = true) (hc : s.localCollector = some c)
    (hn : (s.collectors c).numReaders ≠ 0) : Published (s.collectors c) := by
  rcases user_cases hi hu hc with ⟨_, hr, _⟩ | ⟨_, hp, _⟩
  · exact hr.2 (Nat.pos_of_ne_zero hn)
  · exact hp

/-- The assertions of `end_guard` and `epoch_updated` hold. -/
theorem assert_published {k : Collector} (hp : Published k) : s.assert (published k) = s := by
  unfold Published at hp
  have htrue : published k = true := by
    rw [published, hp]
    simp
  rw [htrue, assert_true]

theorem Published.active {k : Collector} (hp : Published k) : k.state.inactive = false := by
  unfold Published at hp
  rw [hp]

theorem Published.valid {k : Collector} (hp : Published k) : k.state.invalid = false := by
  unfold Published at hp
  rw [hp]

/-! ## `new_guard` and `end_guard` -/

/-- `current` finds the collector of the thread, or allocates one that has no readers. -/
theorem current_spec (hi : Inv s) :
    Inv s.current.1 ∧ s.current.1.localCollector = some s.current.2 ∧
      s.current.1.stack = s.stack := by
  -- A thread without a collector has no guard and no call in progress.
  cases hc : s.localCollector with
  | some c =>
    have hcur : s.current = (s, c) := by rw [current, hc]
    rw [hcur]
    exact ⟨hi, hc, rfl⟩
  | none =>
    have hg : s.guards = [] := List.eq_nil_iff_forall_not_mem.mpr fun g hg => by
      have hloc := hi.base.guards g hg
      rw [hc] at hloc
      cases hloc
    have hstack : s.stack = [] := by
      have hphase := hi.phase
      generalize s.stack = fs at hphase
      cases hphase with
      | idle h => rfl
      | newGuard hc' hg hn => exact nomatch hc.symm.trans hc'
      | running hr hc' hp hn => exact nomatch hc.symm.trans hc'
      | ending hf hc' hp hg hn => exact nomatch hc.symm.trans hc'
    have hcur : s.current = (s.alloc, s.nextCollector) := by rw [current, hc]
    rw [hcur]
    have hnew : s.alloc.collectors s.nextCollector = Collector.new := Function.update_self _ _ _
    have hold : ∀ d, Own s d → s.alloc.collectors d = s.collectors d :=
      fun d hd => Function.update_of_ne (Nat.ne_of_lt hd.2) _ _
    have hown : ∀ d, Own s.alloc d → d ≠ s.nextCollector → Own s d :=
      fun d hd hne => ⟨hd.1, Nat.lt_of_le_of_ne (Nat.le_of_lt_succ hd.2) hne⟩
    -- The new collector is the own one; it has no readers yet.
    have hbase : Base s.alloc := by
      refine ⟨hi.base.fault, Nat.le_succ_of_le hi.base.allocated, fun d hd => ?_, fun g hgm => ?_,
        fun d hd hne => ?_, fun d hd => ?_⟩
      · cases hd
        exact ⟨hi.base.allocated, Nat.lt_succ_self _⟩
      · exact absurd (hg ▸ (show g ∈ s.guards from hgm)) List.not_mem_nil
      · have hdn : d ≠ s.nextCollector := fun h => hne (congrArg some h.symm)
        rw [hold d (hown d hd hdn)]
        exact hi.base.old d (hown d hd hdn) (by rw [hc]; exact nofun)
      · by_cases hdn : d = s.nextCollector
        · rw [hdn, hnew]
          exact Nat.zero_le _
        · rw [hold d (hown d hd hdn)]
          exact hi.base.bound d (hown d hd hdn)
    have hphase : Phase s.alloc [] := by
      refine .idle fun d hd => ?_
      cases hd
      rw [hnew]
      exact ⟨⟨fun _ => ⟨rfl, rfl⟩, fun h => absurd h (Nat.lt_irrefl 0)⟩,
        (congrArg List.length hg).symm⟩
    exact ⟨⟨hbase, hstack.symm ▸ hphase⟩, rfl, rfl⟩

/-- A creation with `u32::MAX` readers panics and changes nothing. -/
theorem newGuard_refused (hi : Inv s) (hu : s.user = true) (hc : s.localCollector = some c)
    (hmax : (s.collectors c).numReaders = Collector.MAX_READERS) (e : Epoch) :
    s.newGuard c e = { s with refused := s.refused + 1 } := by
  have hne : (s.collectors c).numReaders ≠ 0 := by
    rw [hmax]
    exact nofun
  have hp := published_of_user hi hu hc hne
  rw [State.newGuard, if_neg hne, if_pos hmax, hp.active, Bool.not_false, assert_true]

/-- A new guard. -/
theorem newGuard_spec (hi : Inv s) (hu : s.user = true) (hc : s.localCollector = some c)
    (e : Epoch) : Inv (s.newGuard c e) := by
  by_cases hzero : (s.collectors c).numReaders = 0
  · -- The first one. Then the thread is not in a destructor.
    rcases user_cases hi hu hc with ⟨hstack, hrest, hn⟩ | ⟨_, _, hn⟩
    · have hg : s.guards = [] := List.length_eq_zero_iff.mp (hn.symm.trans hzero)
      rw [State.newGuard, if_pos hzero, (hrest.1 hzero).1, assert_true]
      refine .of_update hi.base hc rfl rfl rfl rfl rfl (fun g hg => .inl hg) ?_ fun hself => ?_
      · exact Nat.one_le_iff_ne_zero.mpr nofun
      · rw [goto_stack, hstack]
        exact .newGuard hc hg (congrArg Collector.numReaders hself)
    · rw [hzero] at hn
      cases hn
  -- The counter of readers is at its maximum, or one reader more is counted.
  · by_cases hmax : (s.collectors c).numReaders = Collector.MAX_READERS
    · rw [newGuard_refused hi hu hc hmax]
      exact ⟨hi.base.moved hc ⟨fun _ _ => rfl, rfl, rfl, rfl, rfl⟩ (fun g hg => .inl hg)
        (hi.base.bound c (hi.base.own c hc)), hi.phase.quiet hi.base
          ⟨fun _ _ => .refl _, rfl, rfl, rfl, rfl, rfl⟩⟩
    · have hp := published_of_user hi hu hc hzero
      have hbound := hi.base.bound c (hi.base.own c hc)
      rw [State.newGuard, if_neg hzero, if_neg hmax, hp.active, Bool.not_false, assert_true]
      refine .of_update hi.base hc rfl rfl rfl rfl rfl (fun g hg => ?_)
        (Nat.lt_of_le_of_ne hbound hmax) fun hself => ?_
      · rcases List.mem_cons.mp hg with rfl | hold
        · exact .inr rfl
        · exact .inl hold
      · rw [enter_stack, modify_stack]
        -- The guard is created by the user of the thread, or in a destructor.
        rcases user_cases hi hu hc with ⟨hstack, hrest, hn⟩ | ⟨hr, _, hn⟩
        · rw [hstack]
          refine .idle fun d hd => ?_
          obtain rfl : c = d := Option.some.inj (hc.symm.trans hd)
          rw [hself]
          exact ⟨⟨fun h => absurd h (Nat.succ_ne_zero _), fun _ => hp⟩, congrArg (· + 1) hn⟩
        · refine .running hr hc ?_ ?_
          · rw [hself]
            exact hp
          · rw [hself]
            exact congrArg (· + 1) hn

/-- The end of a guard: between two calls, or in a destructor, where the guard that `new_guard` has not
returned yet remains. -/
theorem endGuard_spec (hb : Base s) (hc : s.localCollector = some c)
    (hp : Published (s.collectors c))
    (hn : s.stack = [] ∧ (s.collectors c).numReaders = s.guards.length + 1 ∨
      Running c s.stack ∧ (s.collectors c).numReaders = s.guards.length + 2) (marked : Bool) :
    Inv (s.endGuard c marked) := by
  by_cases hone : (s.collectors c).numReaders = 1
  · -- The last one.
    obtain ⟨hstack, hg⟩ : s.stack = [] ∧ s.guards = [] := by
      rcases hn with ⟨hstack, hn⟩ | ⟨_, hn⟩
      · exact ⟨hstack, List.length_eq_zero_iff.mp (by omega)⟩
      · omega
    -- With the last guard the state becomes inactive, after a scan or without one.
    by_cases hscan : (s.collectors c).nextEpochUpdate = 0
    · have hend : s.endGuard c marked =
          (s.modify c fun k => { k with numReaders := 0 }).goto [.scan c] := by
        simp only [State.endGuard, assert_published hp, if_pos hone, if_pos hscan, hp.valid,
          Bool.not_false, assert_true, modify_stack, hstack]
      rw [hend]
      refine .of_update hb hc rfl rfl rfl rfl rfl (fun g hg => .inl hg) (Nat.zero_le _)
        fun hself => ?_
      rw [goto_stack]
      refine .ending (.inl rfl) hc ?_ hg (congrArg Collector.numReaders hself)
      rw [hself]
      exact hp
    · have hne : ((s.collectors c).nextEpochUpdate != 0) = true := bne_iff_ne.mpr hscan
      by_cases hdown : ((s.collectors c).hasGarbage || marked) = true
      · have hend : s.endGuard c marked = ((s.modify c fun k => { k with numReaders := 0 }).modify c
            fun k => { k with nextEpochUpdate := k.nextEpochUpdate - 1 }).goto
              [.setInactive c] := by
          simp only [State.endGuard, assert_published hp, if_pos hone, if_neg hscan, if_pos hdown, hne,
            assert_true, modify_stack, hstack]
        rw [hend]
        refine .of_update hb hc (Function.update_idem _ _ _) rfl rfl rfl rfl (fun g hg => .inl hg) ?_
          fun hself => ?_
        · rw [modify_self]
          exact Nat.zero_le _
        · rw [modify_self] at hself
          rw [goto_stack]
          refine .ending (.inr rfl) hc ?_ hg (congrArg Collector.numReaders hself)
          rw [hself]
          exact hp
      · have hend : s.endGuard c marked =
            (s.modify c fun k => { k with numReaders := 0 }).goto [.setInactive c] := by
          simp only [State.endGuard, assert_published hp, if_pos hone, if_neg hscan, if_neg hdown,
            modify_stack, hstack]
        rw [hend]
        refine .of_update hb hc rfl rfl rfl rfl rfl (fun g hg => .inl hg) (Nat.zero_le _)
          fun hself => ?_
        rw [goto_stack]
        refine .ending (.inr rfl) hc ?_ hg (congrArg Collector.numReaders hself)
        rw [hself]
        exact hp
  -- The other guards only count.
  · have hne : ((s.collectors c).numReaders != 0) = true := by
      rw [bne_iff_ne]
      omega
    have hend : s.endGuard c marked =
        s.modify c fun k => { k with numReaders := k.numReaders - 1 } := by
      simp only [State.endGuard, assert_published hp, if_neg hone, hne, assert_true]
    have hbound := hb.bound c (hb.own c hc)
    rw [hend]
    refine .of_update hb hc rfl rfl rfl rfl rfl (fun g hg => .inl hg)
      (Nat.le_trans (Nat.sub_le _ _) hbound) fun hself => ?_
    rw [modify_stack]
    rcases hn with ⟨hstack, hn⟩ | ⟨hr, hn⟩
    · rw [hstack]
      refine .idle fun d hd => ?_
      obtain rfl : c = d := Option.some.inj (hc.symm.trans hd)
      rw [hself]
      have hpred : (s.collectors c).numReaders - 1 = s.guards.length := by omega
      refine ⟨⟨fun h => ?_, fun _ => hp⟩, hpred⟩
      have hzero : (s.collectors c).numReaders - 1 = 0 := h
      omega
    · refine .running hr hc ?_ ?_
      · rw [hself]
        exact hp
      · rw [hself]
        show (s.collectors c).numReaders - 1 = s.guards.length + 1
        omega

/-- The return from `Guard::new` for the first guard, with the epoch published. -/
theorem enter_spec (hb : Base s) (hc : s.localCollector = some c) (hp : Published (s.collectors c))
    (hn : (s.collectors c).numReaders = s.guards.length + 1) (hstack : s.stack = []) :
    Inv (s.enter c) := by
  refine ⟨hb.moved hc ⟨fun _ _ => rfl, rfl, rfl, rfl, rfl⟩ (fun g hg => ?_)
    (hb.bound c (hb.own c hc)), ?_⟩
  · rcases List.mem_cons.mp hg with rfl | hold
    · exact .inr rfl
    · exact .inl hold
  · rw [enter_stack, hstack]
    refine .idle fun d hd => ?_
    obtain rfl : c = d := Option.some.inj (hc.symm.trans hd)
    refine ⟨⟨fun h => ?_, fun _ => hp⟩, hn⟩
    have hzero : (s.collectors c).numReaders = 0 := h
    omega

/-! ## The loops -/

/-- `epoch_updated` is called by user code that is not a destructor. -/
theorem running_epochUpdated {link : List Garbage} (h : Running c (.epochUpdated d link :: fs)) :
    d = c ∧ fs = [] := by
  cases fs with
  | nil => exact ⟨h, rfl⟩
  | cons f fs => exact h.elim

/-- `epoch_updated` with the epoch just published. -/
theorem epochUpdated_spec (hb : Base s) (hc : s.localCollector = some c)
    (hp : Published (s.collectors c)) (hg : s.guards = [])
    (hn : (s.collectors c).numReaders = 1) : Inv (s.epochUpdated c []) := by
  have hbound := hb.bound c (hb.own c hc)
  by_cases hgarbage : (s.collectors c).hasGarbage = true
  · have he : s.epochUpdated c [] =
        (s.modify c .rotate).goto [.epochUpdated c (s.collectors c).nextInstanceLink] := by
      simp only [State.epochUpdated, assert_published hp, if_pos hgarbage]
    rw [he]
    refine .of_update hb hc rfl rfl rfl rfl rfl (fun g hg => .inl hg) hbound fun hself => ?_
    refine .running (c := c) rfl hc ?_ ?_
    · rw [hself]
      exact hp
    · rw [hself, goto_guards, modify_guards, hg]
      exact hn
  · have he : s.epochUpdated c [] = ((s.modify c fun k =>
        { k with nextEpochUpdate := Collector.CADENCE }).goto []).enter c := by
      simp only [State.epochUpdated, assert_published hp, if_neg hgarbage]
    rw [he]
    have hset := quiet_modify (s := s) (c := c)
      (f := fun k => { k with nextEpochUpdate := Collector.CADENCE }) ⟨rfl, rfl, rfl⟩
    have hsame := hset.collectors c (hb.own c hc)
    refine enter_spec (hb.quiet ⟨hset.collectors, rfl, rfl, rfl, rfl, rfl⟩) hc (hp.same hsame) ?_ rfl
    rw [goto_guards, modify_guards, hg]
    exact hsame.2.2.trans hn

/-- The publication of the epoch. -/
theorem publish_spec (hb : Base s) (hc : s.localCollector = some c) (hg : s.guards = [])
    (hn : (s.collectors c).numReaders = 1) (e : Epoch) : Inv (s.publish c e []) := by
  have hbound := hb.bound c (hb.own c hc)
  -- The same epoch is announced again, or the lists are rotated and `epoch_updated` runs.
  by_cases hann : (s.collectors c).announcement = e
  · have he : s.publish c e [] =
        ((s.modify c fun k => { k with state := ⟨e, false, false⟩ }).goto []).enter c := by
      simp only [State.publish, modify_self, if_pos hann]
    rw [he]
    have hset : Base ((s.modify c fun k => { k with state := ⟨e, false, false⟩ }).goto []) ∧ _ :=
      hb.of_update hc rfl rfl rfl rfl rfl (fun g hg => .inl hg) hbound
    obtain ⟨hbase, hself⟩ := hset
    refine enter_spec hbase hc ?_ ?_ rfl
    · rw [hself]
      exact congrArg (fun a : Epoch => (⟨a, false, false⟩ : StateByte)) hann.symm
    · rw [hself, goto_guards, modify_guards, hg]
      exact hn
  · have he : s.publish c e [] = ((s.modify c fun k => { k with state := ⟨e, false, false⟩ }).modify c
        fun k => { k with announcement := e }).epochUpdated c [] := by
      simp only [State.publish, modify_self, if_neg hann]
    rw [he]
    have hstate : Base (s.modify c fun k => { k with state := ⟨e, false, false⟩ }) ∧ _ :=
      hb.of_update hc rfl rfl rfl rfl rfl (fun g hg => .inl hg) hbound
    have hannounce : Base ((s.modify c fun k => { k with state := ⟨e, false, false⟩ }).modify c
        fun k => { k with announcement := e }) ∧ _ :=
      hstate.1.of_update hc rfl rfl rfl rfl rfl (fun g hg => .inl hg) (by rw [hstate.2]; exact hbound)
    refine epochUpdated_spec hannounce.1 hc ?_ hg ?_
    · rw [hannounce.2]
      exact congrArg Collector.state hstate.2
    · rw [hannounce.2]
      exact (congrArg Collector.numReaders hstate.2).trans hn

/-- In an `epoch_updated` the stack changes, and perhaps the lists of a collector. -/
theorem Inv.run (hi : Inv s) (h : Quiet s s') (hrun : ∀ c, Running c s.stack → Running c s'.stack)
    (hstack : ∃ c, Running c s.stack) : Inv s' := by
  obtain ⟨c, hc⟩ := hstack
  refine ⟨hi.base.quiet h, ?_⟩
  have hphase := hi.phase
  generalize hfs : s.stack = fs at hphase
  rw [hfs] at hc hrun
  cases hphase with
  | idle _ => exact hc.elim
  | newGuard _ _ _ => exact hc.elim
  | running hr hloc hp hn =>
    have hsame := h.collectors _ (hi.base.own _ hloc)
    refine .running (hrun _ hr) (h.localCollector.trans hloc) (hp.same hsame) ?_
    rw [hsame.2.2, h.guards]
    exact hn
  | ending hf _ _ _ _ => rcases hf with rfl | rfl <;> exact hc.elim

/-- The stack after the drop of a box has begun. -/
theorem running_dropBox (x : Garbage) (h : Running c fs) : Running c (dropBox x :: fs) := by
  cases x <;> exact h

/-- The next turn of a loop. -/
theorem proceed_spec (hi : Inv s) (h : s.proceed = some s') : Inv s' := by
  have hphase := hi.phase
  simp only [State.proceed] at h
  -- The innermost call goes on. What the invariant says of the calls below it stays.
  cases hfs : s.stack with
  | nil =>
    rw [hfs] at h
    cases h
  | cons f callers =>
    rw [hfs] at h hphase
    cases f with
    | newGuard c e =>
      cases h
      cases hphase with
      | newGuard hc hg hn => exact publish_spec hi.base hc hg hn e
      | running hr _ _ _ => exact hr.elim
      | ending hf _ _ _ _ => rcases hf with hf | hf <;> cases hf
    | epochUpdated c link =>
      have hrun : Running c (.epochUpdated c link :: callers) ∧ s.localCollector = some c ∧
          Published (s.collectors c) ∧ (s.collectors c).numReaders = s.guards.length + 1 := by
        cases hphase with
        | running hr hc hp hn =>
          obtain rfl := (running_epochUpdated hr).1
          exact ⟨hr, hc, hp, hn⟩
        | ending hf _ _ _ _ => rcases hf with hf | hf <;> cases hf
      obtain ⟨hr, hc, hp, hn⟩ := hrun
      obtain ⟨_, rfl⟩ := running_epochUpdated hr
      cases link with
      | nil =>
        cases h
        have hset := quiet_modify (s := s) (c := c)
          (f := fun k => { k with nextEpochUpdate := Collector.CADENCE }) ⟨rfl, rfl, rfl⟩
        have hsame := hset.collectors c (hi.base.own c hc)
        exact enter_spec (hi.base.quiet ⟨hset.collectors, rfl, rfl, rfl, rfl, rfl⟩) hc
          (hp.same hsame) (hsame.2.2.trans hn) rfl
      | cons x link =>
        cases h
        refine hi.run ⟨fun _ _ => .refl _, rfl, rfl, rfl, rfl, rfl⟩ (fun d hd => ?_)
          ⟨c, by rw [hfs]; exact hr⟩
        rw [hfs] at hd
        exact running_dropBox x (running_epochUpdated hd).1
    -- The drop of an obsolete collector goes through its lists and then takes the next list.
    | clearForDrop d link =>
      have hrun : ∃ c, Running c s.stack := by
        rw [hfs]
        cases hphase with
        | running hr _ _ _ => exact ⟨_, hr⟩
        | ending hf _ _ _ _ => rcases hf with hf | hf <;> cases hf
      cases link with
      | nil =>
        simp only at h
        split at h
        · cases h
          refine hi.run ⟨fun _ _ => .refl _, rfl, rfl, rfl, rfl, rfl⟩ (fun c hc => ?_) hrun
          rw [hfs] at hc
          exact hc
        · cases h
          have hset := quiet_modify (s := s) (c := d) (f := Collector.cleared) ⟨rfl, rfl, rfl⟩
          refine hi.run ⟨hset.collectors, rfl, rfl, rfl, rfl, rfl⟩ (fun c hc => ?_) hrun
          rw [hfs] at hc
          exact hc
      | cons x link =>
        cases h
        refine hi.run ⟨fun _ _ => .refl _, rfl, rfl, rfl, rfl, rfl⟩ (fun c hc => ?_) hrun
        rw [hfs] at hc
        exact running_dropBox x hc
    -- The destructor returns, and the loop that has called it goes on.
    | destructor i =>
      cases h
      have hrun : ∃ c, Running c s.stack := by
        rw [hfs]
        cases hphase with
        | running hr _ _ _ => exact ⟨_, hr⟩
        | ending hf _ _ _ _ => rcases hf with hf | hf <;> cases hf
      refine hi.run ⟨fun _ _ => .refl _, rfl, rfl, rfl, rfl, rfl⟩ (fun c hc => ?_) hrun
      rw [hfs] at hc
      exact hc
    -- The two calls of `end_guard` come after the last guard has ended.
    | scan c =>
      cases h
      cases hphase with
      | running hr _ _ _ => exact hr.elim
      | ending hf hc hp hg hn =>
        rcases hf with hf | hf <;> cases hf
        have hset := quiet_modify (s := s) (c := c)
          (f := fun k => { k with nextEpochUpdate := Collector.CADENCE }) ⟨rfl, rfl, rfl⟩
        have hsame := hset.collectors c (hi.base.own c hc)
        exact ⟨hi.base.quiet ⟨hset.collectors, rfl, rfl, rfl, rfl, rfl⟩,
          .ending (.inr rfl) hc (hp.same hsame) hg (hsame.2.2.trans hn)⟩
    | setInactive c =>
      cases h
      cases hphase with
      | running hr _ _ _ => exact hr.elim
      | ending hf hc hp hg hn =>
        rcases hf with hf | hf <;> cases hf
        refine .of_update hi.base hc rfl rfl rfl rfl rfl (fun g hg => .inl hg)
          (hi.base.bound c (hi.base.own c hc)) fun hself => .idle fun d hd => ?_
        obtain rfl : c = d := Option.some.inj (hc.symm.trans hd)
        rw [hself]
        refine ⟨⟨fun _ => ⟨rfl, rfl⟩, fun hpos => ?_⟩, ?_⟩
        · exact absurd hpos (by rw [hn]; exact Nat.lt_irrefl 0)
        · exact hn.trans (congrArg List.length hg).symm

/-- A panic in a destructor goes up to `epoch_updated`. -/
theorem unwind_of_running (h : Running c fs) : ∃ link, unwind fs = some (c, link, []) := by
  induction fs with
  | nil => exact h.elim
  | cons f fs ih =>
    cases f with
    | epochUpdated d link =>
      obtain ⟨rfl, rfl⟩ := running_epochUpdated h
      exact ⟨link, rfl⟩
    | destructor i => exact ih h
    | clearForDrop d link => exact ih h
    | newGuard d e => exact h.elim
    | scan d => exact h.elim
    | setInactive d => exact h.elim

/-- A destructor panics. -/
theorem panic_spec (hi : Inv s) {marked : Bool} (h : s.panic marked = some s') : Inv s' := by
  have hphase := hi.phase
  simp only [State.panic] at h
  split at h
  · rename_i i callers hfs
    rw [hfs] at hphase
    cases hphase with
    | @running c _ hr hc hp hn =>
      obtain ⟨link, hlink⟩ := unwind_of_running (show Running c callers from hr)
      rw [hlink] at h
      cases h
      have hset := quiet_modify (s := s) (c := c) (f := fun k => link.foldl Collector.collect k)
        (same_foldl link (s.collectors c))
      have hsame := hset.collectors _ (hi.base.own _ hc)
      refine endGuard_spec (s := (s.modify c fun k => link.foldl Collector.collect k).goto [])
        (hi.base.quiet ⟨hset.collectors, rfl, rfl, rfl, rfl, rfl⟩) hc (hp.same hsame) ?_ marked
      exact .inl ⟨rfl, hsame.2.2.trans hn⟩
    | ending hf _ _ _ _ => rcases hf with hf | hf <;> cases hf
  · cases h

/-! ## Runs -/

/-- A live guard belongs to the collector of the thread. -/
theorem local_of_guard {g : GuardId} (hi : Inv s) (h : s.guard g = some c) :
    s.localCollector = some c ∧ (g, c) ∈ s.guards := by
  have hmem : (g, c) ∈ s.guards := by
    obtain ⟨before, after, hsplit, _⟩ := List.lookup_eq_some_iff.mp h
    rw [hsplit]
    exact List.mem_append_right _ List.mem_cons_self
  exact ⟨hi.base.guards _ hmem, hmem⟩

/-- A live guard is dropped. -/
theorem dropGuard_spec (hi : Inv s) (hu : s.user = true) {g : GuardId} (h : s.guard g = some c)
    (marked : Bool) : Inv ({ s with guards := s.guards.erase (g, c) }.endGuard c marked) := by
  obtain ⟨hc, hmem⟩ := local_of_guard hi h
  have hlen : (s.guards.erase (g, c)).length + 1 = s.guards.length := by
    rw [List.length_erase_of_mem hmem]
    exact Nat.sub_add_cancel (List.length_pos_of_mem hmem)
  have hbase : Base { s with guards := s.guards.erase (g, c) } :=
    hi.base.moved hc ⟨fun _ _ => rfl, rfl, rfl, rfl, rfl⟩
      (fun _ hg => .inl (List.mem_of_mem_erase hg)) (hi.base.bound c (hi.base.own c hc))
  rcases user_cases hi hu hc with ⟨hstack, hrest, hn⟩ | ⟨hr, hp, hn⟩
  · refine endGuard_spec hbase hc (hrest.2 ?_) (.inl ⟨hstack, hn.trans hlen.symm⟩) marked
    omega
  · refine endGuard_spec hbase hc hp (.inr ⟨hr, ?_⟩) marked
    show (s.collectors c).numReaders = (s.guards.erase (g, c)).length + 2
    omega

/-- A thread without readers gives its collector up. -/
theorem passGarbage_spec (hi : Inv s) (hu : s.user = true) : Inv s.passGarbage.1 := by
  cases hc : s.localCollector with
  | none =>
    rw [State.passGarbage, hc]
    exact hi
  | some c =>
    by_cases hn : (s.collectors c).numReaders ≠ 0
    · have he : s.passGarbage = (s, false) := by simp only [State.passGarbage, hc, if_pos hn]
      rw [he]
      exact hi
    · by_cases hgarbage : (s.collectors c).hasGarbage = true
      · have hzero : (s.collectors c).numReaders = 0 := not_not.mp hn
        have hrest : s.stack = [] ∧ s.guards = [] ∧ (s.collectors c).state.inactive = true := by
          rcases user_cases hi hu hc with ⟨hstack, hrest, hlen⟩ | ⟨_, _, hlen⟩
          · exact ⟨hstack, List.length_eq_zero_iff.mp (hlen.symm.trans hzero), (hrest.1 hzero).1⟩
          · omega
        obtain ⟨hstack, hg, hinactive⟩ := hrest
        have he : s.passGarbage.1 =
            { s.modify c fun k => { k with state := { k.state with invalid := true } } with
              localCollector := none } := by
          simp only [State.passGarbage, hc, if_neg hn, if_pos hgarbage]
        rw [he]
        refine ⟨⟨hi.base.fault, hi.base.allocated, nofun, fun g hgm => ?_, fun d hd _ => ?_,
          fun d hd => ?_⟩, ?_⟩
        · exact absurd (hg ▸ (show g ∈ s.guards from hgm)) List.not_mem_nil
        · by_cases hdc : d = c
          · subst hdc
            rw [modify_self]
            exact ⟨hzero, hinactive⟩
          · rw [modify_collectors, Function.update_of_ne hdc]
            refine hi.base.old d hd ?_
            rw [hc]
            exact fun h => hdc (Option.some.inj h).symm
        · by_cases hdc : d = c
          · subst hdc
            rw [modify_self]
            exact hi.base.bound d hd
          · rw [modify_collectors, Function.update_of_ne hdc]
            exact hi.base.bound d hd
        · exact (show s.stack = [] from hstack) ▸ .idle nofun
      · have he : s.passGarbage = (s, true) := by
          simp only [State.passGarbage, hc, if_neg hn, if_neg hgarbage]
        rw [he]
        exact hi

/-- Every action keeps the invariant. -/
theorem inv_step (hi : Inv s) {a : Sdd.Nesting.Act} (h : s.step a = some s') : Inv s' := by
  cases a with
  | newGuard epoch =>
    obtain ⟨hu, hw⟩ := Option.ite_none_right_eq_some.mp h
    cases hw
    obtain ⟨hcur, hloc, hstack⟩ := current_spec hi
    exact newGuard_spec hcur (by rw [user, hstack]; exact hu) hloc epoch
  | endGuard g marked =>
    obtain ⟨hu, hw⟩ := Option.ite_none_right_eq_some.mp h
    obtain ⟨c, hg, rfl⟩ := Option.map_eq_some_iff.mp hw
    exact dropGuard_spec hi hu hg marked
  | collect =>
    obtain ⟨hu, hw⟩ := Option.ite_none_right_eq_some.mp h
    cases hw
    obtain ⟨hcur, _, _⟩ := current_spec hi
    have hset := quiet_modify (s := s.current.1) (c := s.current.2)
      (f := (·.collect (.inst s.nextInst))) (same_collect _ _)
    exact hcur.quiet ⟨hset.collectors, rfl, rfl, rfl, rfl, rfl⟩ rfl
  | deferExecute g =>
    obtain ⟨_, hw⟩ := Option.ite_none_right_eq_some.mp h
    obtain ⟨c, _, rfl⟩ := Option.map_eq_some_iff.mp hw
    have hset := quiet_modify (s := s) (c := c)
      (f := (·.collect (.inst s.nextInst))) (same_collect _ _)
    exact hi.quiet ⟨hset.collectors, rfl, rfl, rfl, rfl, rfl⟩ rfl
  | accelerate g =>
    obtain ⟨_, hw⟩ := Option.ite_none_right_eq_some.mp h
    obtain ⟨c, _, rfl⟩ := Option.map_eq_some_iff.mp hw
    exact hi.quiet (quiet_modify ⟨rfl, rfl, rfl⟩) rfl
  | setHasGarbage g =>
    obtain ⟨_, hw⟩ := Option.ite_none_right_eq_some.mp h
    obtain ⟨c, _, rfl⟩ := Option.map_eq_some_iff.mp hw
    exact hi.quiet (quiet_modify ⟨rfl, rfl, rfl⟩) rfl
  | passGarbage =>
    obtain ⟨hu, hw⟩ := Option.ite_none_right_eq_some.mp h
    cases hw
    exact passGarbage_spec hi hu
  | proceed => exact proceed_spec hi h
  | panic marked => exact panic_spec hi h
  | unlink d =>
    simp only [State.step] at h
    split at h
    · obtain ⟨_, hw⟩ := Option.ite_none_right_eq_some.mp h
      cases hw
      exact hi.quiet (quiet_modify (same_collect _ _)) rfl
    · cases h
  | other d k =>
    obtain ⟨hd, hw⟩ := Option.ite_none_right_eq_some.mp h
    cases hw
    refine hi.quiet ⟨fun c hc => ?_, rfl, rfl, rfl, rfl, rfl⟩ rfl
    have hne : c ≠ d := fun hcd => absurd (hcd ▸ hc.1) (Nat.not_le.mpr hd)
    rw [modify_collectors, Function.update_of_ne hne]
    exact .refl _

/-! ## What the invariant says -/

/-- The collector of which a call of `new_guard` or `end_guard` is in progress. -/
def body : Nesting.Frame → Option CollectorId
  | .newGuard c _ | .epochUpdated c _ | .scan c | .setInactive c => some c
  | .clearForDrop _ _ | .destructor _ => none

/-- No call of `new_guard` or `end_guard` on the collector is in progress. -/
def Outside (c : CollectorId) (fs : List Nesting.Frame) : Prop := ∀ f ∈ fs, body f ≠ some c

/-- The number of live guards of a collector. -/
def liveGuards (s : State) (c : CollectorId) : Nat := s.guards.countP (·.2 == c)

/-- The call is `epoch_updated` on the collector. -/
def isEpochUpdated (c : CollectorId) : Nesting.Frame → Bool
  | .epochUpdated d _ => d == c
  | _ => false

/-- Only the collector of the thread has readers. -/
theorem local_of_readers (hb : Base s) (hown : Own s c) (hn : 0 < (s.collectors c).numReaders) :
    s.localCollector = some c := by
  by_contra hne
  rw [(hb.old c hown hne).1] at hn
  exact Nat.lt_irrefl 0 hn

/-- All live guards are those of the collector of the thread. -/
theorem liveGuards_local (hb : Base s) (hc : s.localCollector = some c) :
    liveGuards s c = s.guards.length := by
  refine List.countP_eq_length.mpr fun g hg => beq_iff_eq.mpr ?_
  exact Option.some.inj ((hb.guards g hg).symm.trans hc)

/-- The other collectors have none. -/
theorem liveGuards_other (hb : Base s) (hc : s.localCollector ≠ some c) : liveGuards s c = 0 := by
  refine List.countP_eq_zero.mpr fun g hg heq => hc ?_
  rw [← beq_iff_eq.mp heq]
  exact hb.guards g hg

/-- The `epoch_updated` that runs the destructors is on the stack, once. -/
theorem count_of_running (h : Running c fs) (d : CollectorId) :
    fs.countP (isEpochUpdated d) = if c = d then 1 else 0 := by
  induction fs with
  | nil => exact h.elim
  | cons f fs ih =>
    cases f with
    | epochUpdated b link =>
      obtain ⟨rfl, rfl⟩ := running_epochUpdated h
      simp [List.countP_cons, isEpochUpdated]
    | destructor i => rw [List.countP_cons_of_neg Bool.false_ne_true, ih h]
    | clearForDrop b link => rw [List.countP_cons_of_neg Bool.false_ne_true, ih h]
    | newGuard b e => exact h.elim
    | scan b => exact h.elim
    | setInactive b => exact h.elim

/-- In an `epoch_updated` the collector is in the body of `new_guard`. -/
theorem not_outside_of_running (h : Running c fs) : ¬Outside c fs := by
  intro hout
  have hcount := count_of_running h c
  rw [if_pos rfl] at hcount
  obtain ⟨f, hf, hfc⟩ := List.countP_pos_iff.mp (hcount ▸ Nat.one_pos)
  cases f with
  | epochUpdated b link =>
    obtain rfl := beq_iff_eq.mp hfc
    exact hout _ hf rfl
  | _ => cases hfc

/-- Outside of the two functions the readers are the live guards, and the collector is active when
there are some. -/
theorem readers_of_inv (hi : Inv s) (hown : Own s c) (hout : Outside c s.stack) :
    ((s.collectors c).state.inactive = false ↔ 0 < (s.collectors c).numReaders) ∧
      (s.collectors c).numReaders = liveGuards s c := by
  by_cases hc : s.localCollector = some c
  · rw [liveGuards_local hi.base hc]
    have hphase := hi.phase
    generalize s.stack = fs at hphase hout
    have hsame : ∀ {d}, s.localCollector = some d → d = c := fun hd =>
      Option.some.inj (hd.symm.trans hc)
    cases hphase with
    | idle h =>
      obtain ⟨hrest, hn⟩ := h c hc
      refine ⟨⟨fun hactive => Nat.pos_of_ne_zero fun hzero => ?_, fun hpos => ?_⟩, hn⟩
      · rw [(hrest.1 hzero).1] at hactive
        cases hactive
      · exact (hrest.2 hpos).active
    | newGuard hd _ _ => exact absurd (congrArg some (hsame hd)) (hout _ List.mem_cons_self)
    | running hr hd _ _ => exact absurd (hsame hd ▸ hout) (not_outside_of_running (hsame hd ▸ hr))
    | ending hf hd _ _ _ =>
      rcases hf with rfl | rfl <;>
        exact absurd (congrArg some (hsame hd)) (hout _ List.mem_cons_self)
  · obtain ⟨hzero, hinactive⟩ := hi.base.old c hown hc
    rw [hzero, hinactive, liveGuards_other hi.base hc]
    exact ⟨⟨nofun, fun h => absurd h (Nat.lt_irrefl 0)⟩, rfl⟩

/-- At most one `epoch_updated` runs on a collector. -/
theorem count_le_one (hi : Inv s) (c : CollectorId) : s.stack.countP (isEpochUpdated c) ≤ 1 := by
  have hphase := hi.phase
  generalize s.stack = fs at hphase
  cases hphase with
  | idle _ => exact Nat.zero_le 1
  | newGuard _ _ _ => exact Nat.zero_le 1
  | running hr _ _ _ =>
    rw [count_of_running hr]
    split
    · exact Nat.le_refl 1
    · exact Nat.zero_le 1
  | ending hf _ _ _ _ => rcases hf with rfl | rfl <;> exact Nat.zero_le 1

/-- `new_guard` is at its publication only when no other call is in progress. -/
theorem newGuard_alone (hi : Inv s) {e : Epoch} (h : s.stack = .newGuard c e :: fs) : fs = [] := by
  have hphase := hi.phase
  rw [h] at hphase
  cases hphase with
  | newGuard _ _ _ => rfl
  | running hr _ _ _ => exact hr.elim
  | ending hf _ _ _ _ => rfl

/-- With a live guard the collector of the thread has readers. -/
theorem readers_of_guard (hi : Inv s) (hg : s.guards ≠ []) :
    ∃ c, s.localCollector = some c ∧ (s.collectors c).numReaders ≠ 0 := by
  obtain ⟨g, hmem⟩ := List.exists_mem_of_ne_nil _ hg
  have hc := hi.base.guards g hmem
  refine ⟨g.2, hc, ?_⟩
  have hphase := hi.phase
  generalize s.stack = fs at hphase
  cases hphase with
  | idle h =>
    rw [(h _ hc).2]
    exact fun hzero => hg (List.length_eq_zero_iff.mp hzero)
  | newGuard _ hnil _ => exact absurd hnil hg
  | running _ hd _ hn =>
    obtain rfl := Option.some.inj (hc.symm.trans hd)
    rw [hn]
    exact nofun
  | ending _ _ _ hnil _ => exact absurd hnil hg

/-! ## The published state -/

/-- Two collectors with the same state and the same announcement. -/
def SameState (k k' : Collector) : Prop := k'.state = k.state ∧ k'.announcement = k.announcement

theorem SameState.trans {k k' k'' : Collector} (h : SameState k k') (h' : SameState k' k'') :
    SameState k k'' := ⟨h'.1.trans h.1, h'.2.trans h.2⟩

/-- One collector is stored anew, with other fields changed. -/
theorem sameState_update {k : Collector} (h : s'.collectors = Function.update s.collectors d k)
    (hk : SameState (s.collectors d) k) (c : CollectorId) :
    SameState (s.collectors c) (s'.collectors c) := by
  rw [h]
  by_cases hc : c = d
  · rw [hc, Function.update_self]
    exact hk
  · rw [Function.update_of_ne hc]
    exact ⟨rfl, rfl⟩

/-- `new_guard` up to the publication. -/
theorem sameState_newGuard (e : Epoch) (c : CollectorId) :
    SameState (s.collectors c) ((s.newGuard d e).collectors c) := by
  by_cases hzero : (s.collectors d).numReaders = 0
  · rw [State.newGuard, if_pos hzero]
    exact sameState_update rfl (by exact ⟨rfl, rfl⟩) c
  · by_cases hmax : (s.collectors d).numReaders = Collector.MAX_READERS
    · rw [State.newGuard, if_neg hzero, if_pos hmax]
      exact ⟨rfl, rfl⟩
    · rw [State.newGuard, if_neg hzero, if_neg hmax]
      exact sameState_update rfl (by exact ⟨rfl, rfl⟩) c

/-- `end_guard` up to the last store. -/
theorem sameState_endGuard (marked : Bool) (c : CollectorId) :
    SameState (s.collectors c) ((s.endGuard d marked).collectors c) := by
  simp only [State.endGuard]
  split
  · split
    · exact sameState_update rfl (by exact ⟨rfl, rfl⟩) c
    · split
      · refine sameState_update (Function.update_idem _ _ _) ?_ c
        rw [assert_collectors, modify_self]
        exact ⟨rfl, rfl⟩
      · exact sameState_update rfl (by exact ⟨rfl, rfl⟩) c
  · exact sameState_update rfl (by exact ⟨rfl, rfl⟩) c

/-- The allocation of a collector does not change the others. -/
theorem sameState_current (hown : Own s c) :
    SameState (s.collectors c) (s.current.1.collectors c) := by
  unfold State.current
  split
  · exact ⟨rfl, rfl⟩
  · have hold : s.alloc.collectors c = s.collectors c :=
      Function.update_of_ne (Nat.ne_of_lt hown.2) _ _
    rw [hold]
    exact ⟨rfl, rfl⟩

/-- The loops of the collector do not change the state of a collector with readers. -/
theorem sameState_proceed (hi : Inv s) (hown : Own s c) (hn : 0 < (s.collectors c).numReaders)
    (hbody : ∀ e fs, s.stack ≠ .newGuard c e :: fs) (h : s.proceed = some s') :
    SameState (s.collectors c) (s'.collectors c) := by
  have hc := local_of_readers hi.base hown hn
  have hphase := hi.phase
  simp only [State.proceed] at h
  cases hfs : s.stack with
  | nil =>
    rw [hfs] at h
    cases h
  | cons f callers =>
    rw [hfs] at h hphase
    cases f with
    | newGuard d e =>
      -- Only the collector of the thread is on the stack.
      cases hphase with
      | newGuard hd _ _ =>
        obtain rfl := Option.some.inj (hc.symm.trans hd)
        exact absurd hfs (hbody e _)
      | running hr _ _ _ => exact hr.elim
      | ending hf _ _ _ _ => rcases hf with hf | hf <;> cases hf
    | epochUpdated d link =>
      cases link with
      | nil =>
        cases h
        exact sameState_update rfl (by exact ⟨rfl, rfl⟩) c
      | cons x link =>
        cases h
        exact ⟨rfl, rfl⟩
    | clearForDrop d link =>
      cases link with
      | nil =>
        simp only at h
        split at h
        · cases h
          exact ⟨rfl, rfl⟩
        · cases h
          exact sameState_update rfl (by exact ⟨rfl, rfl⟩) c
      | cons x link =>
        cases h
        exact ⟨rfl, rfl⟩
    | destructor i =>
      cases h
      exact ⟨rfl, rfl⟩
    | scan d =>
      cases h
      exact sameState_update rfl (by exact ⟨rfl, rfl⟩) c
    | setInactive d =>
      cases hphase with
      | running hr _ _ _ => exact hr.elim
      | ending hf hd _ _ hzero =>
        rcases hf with hf | hf <;> cases hf
        obtain rfl := Option.some.inj (hc.symm.trans hd)
        omega

/-- While a collector has readers, only the publication in `new_guard` changes its state or its
announcement. -/
theorem sameState_step (hi : Inv s) (hown : Own s c) (hn : 0 < (s.collectors c).numReaders)
    (hbody : ∀ e fs, s.stack ≠ .newGuard c e :: fs) {a : Sdd.Nesting.Act}
    (h : s.step a = some s') : SameState (s.collectors c) (s'.collectors c) := by
  -- A collector with readers is the one of the thread.
  have hc := local_of_readers hi.base hown hn
  cases a with
  | newGuard epoch =>
    obtain ⟨_, hw⟩ := Option.ite_none_right_eq_some.mp h
    cases hw
    exact (sameState_current hown).trans (sameState_newGuard epoch c)
  | endGuard g marked =>
    obtain ⟨_, hw⟩ := Option.ite_none_right_eq_some.mp h
    obtain ⟨d, _, rfl⟩ := Option.map_eq_some_iff.mp hw
    exact sameState_endGuard (s := { s with guards := s.guards.erase (g, d) }) marked c
  | collect =>
    obtain ⟨_, hw⟩ := Option.ite_none_right_eq_some.mp h
    cases hw
    exact (sameState_current hown).trans
      (sameState_update (s := s.current.1) rfl (by exact ⟨rfl, rfl⟩) c)
  | deferExecute g =>
    obtain ⟨_, hw⟩ := Option.ite_none_right_eq_some.mp h
    obtain ⟨d, _, rfl⟩ := Option.map_eq_some_iff.mp hw
    exact sameState_update rfl (by exact ⟨rfl, rfl⟩) c
  | accelerate g =>
    obtain ⟨_, hw⟩ := Option.ite_none_right_eq_some.mp h
    obtain ⟨d, _, rfl⟩ := Option.map_eq_some_iff.mp hw
    exact sameState_update rfl (by exact ⟨rfl, rfl⟩) c
  | setHasGarbage g =>
    obtain ⟨_, hw⟩ := Option.ite_none_right_eq_some.mp h
    obtain ⟨d, _, rfl⟩ := Option.map_eq_some_iff.mp hw
    exact sameState_update rfl (by exact ⟨rfl, rfl⟩) c
  | passGarbage =>
    obtain ⟨_, hw⟩ := Option.ite_none_right_eq_some.mp h
    cases hw
    have he : s.passGarbage = (s, false) := by
      simp only [State.passGarbage, hc, if_pos (Nat.ne_of_gt hn)]
    rw [he]
    exact ⟨rfl, rfl⟩
  | proceed => exact sameState_proceed hi hown hn hbody h
  | panic marked =>
    simp only [State.step, State.panic] at h
    -- The guards that unwind put what is left back, and end the guard of the creation.
    split at h
    · obtain ⟨⟨d, link, below⟩, _, rfl⟩ := Option.map_eq_some_iff.mp h
      have hlist := same_foldl link (s.collectors d)
      have hset : SameState (s.collectors c)
          ((s.modify d fun k => link.foldl Collector.collect k).collectors c) :=
        sameState_update rfl (by exact ⟨hlist.1, hlist.2.1⟩) c
      exact hset.trans (sameState_endGuard
        (s := (s.modify d fun k => link.foldl Collector.collect k).goto below) marked c)
    · cases h
  | unlink d =>
    simp only [State.step] at h
    split at h
    · obtain ⟨_, hw⟩ := Option.ite_none_right_eq_some.mp h
      cases hw
      exact sameState_update rfl (by exact ⟨rfl, rfl⟩) c
    · cases h
  | other d k =>
    obtain ⟨hd, hw⟩ := Option.ite_none_right_eq_some.mp h
    cases hw
    have hne : c ≠ d := fun hcd => absurd (hcd ▸ hown.1) (Nat.not_le.mpr hd)
    rw [modify_collectors, Function.update_of_ne hne]
    exact ⟨rfl, rfl⟩

/-- Every run of a thread: guards that are created and dropped in any order, and destructors that
do anything with the collector, at any number of levels. No assertion of the collector fails
and no counter underflows. Outside of `new_guard` and `end_guard` the readers of a collector are
its live guards, and it is active exactly if there are some. `epoch_updated` is on the stack at most
once for a collector, and it is not entered when it is there. With readers, only the publication
in `new_guard` changes the state or the announcement. With a live guard `suspend` returns `false`
and does nothing. A creation with `u32::MAX` readers panics and changes nothing. -/
theorem guard_nesting {others : CollectorId → Collector} {foreign : CollectorId}
    (hrun : Lib.Run State.step (fun _ _ => True) (init others foreign) s) :
    s.fault = false ∧
    (∀ c, Own s c → Outside c s.stack →
      ((s.collectors c).state.inactive = false ↔ 0 < (s.collectors c).numReaders) ∧
        (s.collectors c).numReaders = liveGuards s c) ∧
    (∀ c, s.stack.countP (isEpochUpdated c) ≤ 1 ∧
      ∀ e fs, s.stack = .newGuard c e :: fs → fs.countP (isEpochUpdated c) = 0) ∧
    (∀ c a s', Own s c → 0 < (s.collectors c).numReaders →
      (∀ e fs, s.stack ≠ .newGuard c e :: fs) → s.step a = some s' →
        (s'.collectors c).state = (s.collectors c).state ∧
          (s'.collectors c).announcement = (s.collectors c).announcement) ∧
    (s.guards ≠ [] → s.passGarbage = (s, false)) ∧
    (∀ c epoch, s.user = true → s.localCollector = some c →
      (s.collectors c).numReaders = Collector.MAX_READERS →
        s.step (.newGuard epoch) = some { s with refused := s.refused + 1 }) := by
  have hi : Inv s := hrun.invariant Inv (inv_init others foreign) fun _ _ _ h _ hs => inv_step h hs
  -- Each part is read off the invariant.
  refine ⟨hi.base.fault, fun c hown hout => readers_of_inv hi hown hout, fun c => ?_,
    fun c a s' hown hn hbody hs => sameState_step hi hown hn hbody hs, fun hg => ?_, ?_⟩
  · refine ⟨count_le_one hi c, fun e fs hfs => ?_⟩
    rw [newGuard_alone hi hfs]
    rfl
  · obtain ⟨c, hc, hn⟩ := readers_of_guard hi hg
    simp only [State.passGarbage, hc, if_pos hn]
  · intro c epoch hu hc hmax
    have hcur : s.current = (s, c) := by rw [State.current, hc]
    have hstep : s.step (.newGuard epoch) = some (s.current.1.newGuard s.current.2 epoch) := if_pos hu
    rw [hstep, hcur, newGuard_refused hi hu hc hmax]

/-- The fourth guard drops an instance that was retired under the first one. The destructor creates a
guard and calls `suspend`. -/
theorem guard_nesting_destructor :
    ∃ s : State, Lib.Run State.step (fun _ _ => True) (init (fun _ => .new) 0) s ∧
      s.stack = [.destructor 0, .epochUpdated 0 []] ∧ (s.collectors 0).numReaders = 2 ∧
      s.guards.length = 1 ∧ s.fault = false ∧ s.passGarbage = (s, false) := by
  have hexec : (Lib.exec State.step (fun _ _ => true) (init (fun _ => .new) 0)
      [.newGuard .default, .proceed, .deferExecute 0, .endGuard 0 false, .proceed,
        .newGuard (.next .default), .proceed, .proceed, .endGuard 1 false, .proceed,
        .newGuard (.next (.next .default)), .proceed, .proceed, .endGuard 2 true, .proceed,
        .newGuard (.next (.next (.next .default))), .proceed, .proceed,
        .newGuard .default]).any
      (fun x => decide (x.stack = [.destructor 0, .epochUpdated 0 []] ∧
        (x.collectors 0).numReaders = 2 ∧ x.guards.length = 1)) = true := by
    decide +kernel
  obtain ⟨s, hrun, hs⟩ := Lib.Run.of_forall (P := fun _ _ => True) hexec fun _ _ _ => trivial
  obtain ⟨hstack, hn, hg⟩ := of_decide_eq_true hs
  have hnest := guard_nesting hrun
  refine ⟨s, hrun, hstack, hn, hg, hnest.1, hnest.2.2.2.2.1 ?_⟩
  exact List.ne_nil_of_length_eq_add_one hg

end Sdd.Proofs.Nesting
