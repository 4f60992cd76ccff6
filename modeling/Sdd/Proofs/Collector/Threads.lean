import Sdd.Proofs.Collector.Move

/-!
# `Sdd.Proofs.Collector.Threads`: a thread and its own collector

`Threads w` relates the place where each thread stands to the state byte and the reader
count of its own collector: a thread that creates a guard has a reader and is inactive
until it publishes, a thread that ends its last guard has no reader and stays active until
the last store, and outside of the calls the collector is active if and only if it has
readers, and no two threads hold the same collector (`Owning`). A collector that is active
is the `LOCAL_COLLECTOR` of some thread and valid.

A move writes the state byte and the reader count of the own collector only. Most moves
leave the thread its collector; `Owning.own_move` reduces these to the conditions on the
thread that moves.
-/

set_option autoImplicit false

namespace Sdd.Proofs

open Sdd.Collector
/-- The fields of a collector that its own thread writes at guard creation and end. -/
def core (k : Collector) : StateByte × Epoch × Nat := (k.state, k.announcement, k.numReaders)

/-- The own collector of a thread that is inside a call on it. -/
def own : Pc → Option CollectorId
  | .newGuard c _ | .drain c _ | .destructor c _ | .lockChain c | .knownEpoch c _ | .scan c _ _ _
  | .scanNext c _ _ _ _ | .unlink c _ _ _ _ | .unlockChain c | .setInactive c => some c
  | .idle | .alloc _ _ | .markScanEnforced => none

/-- What holds of the collector `c` of a thread that stands at a given place. -/
def Owns (c : CollectorId) (k : Collector) : Pc → Prop
  | .idle => k.numReaders = 0 ↔ k.state.inactive = true
  | .newGuard c' _ => c' = c ∧ k.numReaders ≠ 0 ∧ k.state.inactive = true
  | .drain c' _ | .destructor c' _ => c' = c ∧ k.numReaders ≠ 0 ∧ k.state.inactive = false
  | .lockChain c' | .knownEpoch c' _ | .scan c' _ _ _ | .scanNext c' _ _ _ _ | .unlink c' _ _ _ _
  | .unlockChain c' | .setInactive c' => c' = c ∧ k.numReaders = 0 ∧ k.state.inactive = false
  | .alloc _ _ | .markScanEnforced => False

/-- Where a thread without a collector can stand. The collector that `alloc` prepares is
as good as new. -/
def Unregistered (collectors : CollectorId → Collector) : Pc → Prop
  | .idle | .markScanEnforced => True
  | .alloc c _ => core (collectors c) = core .new
  | _ => False

/-- The collector that a thread holds: its `LOCAL_COLLECTOR`, or the one it allocates. -/
def holds (w : World) (t : Tid) : Option CollectorId :=
  match w.pc t with
  | .alloc c _ => some c
  | _ => w.localCollector t

/-- What a thread knows of the collector it has, and no two threads have the same one. -/
structure Owning (w : World) : Prop where
  registered : ∀ t c, w.localCollector t = some c →
    (w.collectors c).state.invalid = false ∧ Owns c (w.collectors c) (w.pc t)
  announced : ∀ c, (w.collectors c).state.inactive = false →
    (w.collectors c).state.epoch = (w.collectors c).announcement
  unregistered : ∀ t, w.localCollector t = none → Unregistered w.collectors (w.pc t)
  inj : ∀ t t' c, holds w t = some c → holds w t' = some c → t = t'
  fresh : ∀ t c, holds w t = some c → c < w.nextCollector

/-- Every collector that is active has a thread. -/
structure Threads (w : World) : Prop extends Owning w where
  active : ∀ c, (w.collectors c).state.inactive = false → ∃ t, w.localCollector t = some c

section core
variable (k : Collector) (g : Garbage) (c d : CollectorId)

@[simp] theorem core_collect : core (k.collect g) = core k := rfl

@[simp] theorem core_cleared : core k.cleared = core k := rfl

@[simp] theorem core_rotate : core k.rotate = core k := rfl

/-- A write that keeps the core of one collector keeps the core of all. -/
theorem core_update {f : CollectorId → Collector} (h : core k = core (f c)) :
    core (Function.update f c k d) = core (f d) := by
  by_cases hd : d = c
  · subst hd
    rw [Function.update_self, h]
  · rw [Function.update_of_ne hd]

/-- A write that keeps the core of a collector keeps the core of all. -/
theorem core_modify {w : World} {f : Collector → Collector}
    (h : core (f (w.collectors c)) = core (w.collectors c)) :
    core ((w.modify c f).collectors d) = core (w.collectors d) :=
  core_update _ c d h

/-- A write to another collector keeps the core. -/
theorem core_update_of_ne {f : CollectorId → Collector} (h : d ≠ c) :
    core (Function.update f c k d) = core (f d) := by
  rw [Function.update_of_ne h]

end core

/-- `Owns` depends on the core only. -/
theorem Owns.congr {c : CollectorId} {k k' : Collector} {pc : Pc} (h : Owns c k pc)
    (hk : core k' = core k) : Owns c k' pc := by
  have hs : k'.state = k.state := congrArg Prod.fst hk
  have hn : k'.numReaders = k.numReaders := congrArg (·.2.2) hk
  unfold Owns
  rw [hs, hn]
  exact h

/-- `Unregistered` depends on the core of the collector under preparation only. -/
theorem Unregistered.congr {f f' : CollectorId → Collector} {pc : Pc} (h : Unregistered f pc)
    (hf : ∀ c p, pc = .alloc c p → core (f' c) = core (f c)) : Unregistered f' pc := by
  cases pc with
  | alloc c p => exact (hf c p rfl).trans h
  | idle | markScanEnforced => trivial
  | newGuard | drain | destructor | lockChain | knownEpoch | scan | scanNext | unlink
    | unlockChain | setInactive => exact h

/-- The first state. -/
theorem threads_init : Threads World.init where
  registered := by
    intro t c h
    cases h
  announced := fun _ _ => rfl
  unregistered := fun _ _ => trivial
  inj := by
    intro t t' c h
    cases h
  fresh := by
    intro t c h
    cases h
  active := by
    intro c h
    cases h

namespace Owning

variable {w w' : World} {t : Tid} {act : Act}

/-- A thread with a collector does not allocate one. -/
theorem holds_of_local (h : Owning w) {c : CollectorId} (hl : w.localCollector t = some c) :
    holds w t = some c := by
  have howns := (h.registered t c hl).2
  unfold holds
  split
  · rename_i hpc
    rw [hpc] at howns
    exact howns.elim
  · exact hl

/-- The own collector of a thread inside a call is its `LOCAL_COLLECTOR`. -/
theorem local_of_own (h : Owning w) {c : CollectorId} (hc : own (w.pc t) = some c) :
    w.localCollector t = some c := by
  cases hl : w.localCollector t with
  | none =>
    have hu := h.unregistered t hl
    cases hpc : w.pc t <;> rw [hpc] at hc hu
    case idle | alloc | markScanEnforced => cases hc
    all_goals exact hu.elim
  | some d =>
    have ho := (h.registered t d hl).2
    cases hpc : w.pc t <;> rw [hpc] at hc ho
    case idle | alloc | markScanEnforced => cases hc
    all_goals
      cases hc
      rw [ho.1]

/-- A thread inside a call on its collector: what `Threads` says of it. -/
theorem owns (h : Owning w) {c : CollectorId} (hc : own (w.pc t) = some c) :
    w.localCollector t = some c ∧ (w.collectors c).state.invalid = false ∧
      Owns c (w.collectors c) (w.pc t) :=
  have hl := h.local_of_own hc
  ⟨hl, h.registered t c hl⟩

/-- Where a thread that runs user code stands. -/
theorem user_cases {c : CollectorId} (hu : w.user t = some c) :
    w.pc t = .idle ∧ w.localCollector t = some c ∨ ∃ rest, w.pc t = .destructor c rest := by
  unfold World.user at hu
  split at hu
  · rename_i hpc
    exact .inl ⟨hpc, hu⟩
  · rename_i d rest hpc
    cases hu
    exact .inr ⟨rest, hpc⟩
  · cases hu

/-- The collector of a thread that runs user code. -/
theorem local_of_user (h : Owning w) {c : CollectorId} (hu : w.user t = some c) :
    w.localCollector t = some c := by
  rcases user_cases hu with ⟨-, hl⟩ | ⟨rest, hpc⟩
  · exact hl
  · refine h.local_of_own ?_
    rw [hpc]
    rfl

/-- User code without a guard runs outside of the collector, which is inactive. -/
theorem user_quiet (h : Owning w) {c : CollectorId} (hu : w.user t = some c)
    (hn : (w.collectors c).numReaders = 0) :
    w.pc t = .idle ∧ (w.collectors c).state.inactive = true := by
  have ho := (h.registered t c (h.local_of_user hu)).2
  rcases user_cases hu with ⟨hpc, -⟩ | ⟨rest, hpc⟩ <;> rw [hpc] at ho
  · exact ⟨hpc, ho.mp hn⟩
  · exact absurd hn ho.2.1

/-- User code with a guard runs with an active collector. -/
theorem user_active (h : Owning w) {c : CollectorId} (hu : w.user t = some c)
    (hn : (w.collectors c).numReaders ≠ 0) : (w.collectors c).state.inactive = false := by
  have ho := (h.registered t c (h.local_of_user hu)).2
  rcases user_cases hu with ⟨hpc, -⟩ | ⟨rest, hpc⟩ <;> rw [hpc] at ho
  · simpa using fun hi => hn (ho.mpr hi)
  · exact ho.2.2

/-- A thread that allocates a collector has none. -/
theorem local_of_alloc (h : Owning w) {c : CollectorId} {p : Ptr CollectorId}
    (hpc : w.pc t = .alloc c p) : w.localCollector t = none := by
  cases hl : w.localCollector t with
  | none => rfl
  | some d =>
    have ho := (h.registered t d hl).2
    rw [hpc] at ho
    exact ho.elim

/-- The thread that allocates holds the collector it prepares. -/
theorem holds_of_alloc {c : CollectorId} {p : Ptr CollectorId} (hpc : w.pc t = .alloc c p) :
    holds w t = some c := by
  unfold holds
  rw [hpc]

/-- A thread that does not allocate a collector holds its `LOCAL_COLLECTOR`. -/
theorem holds_of_not_alloc (hna : ∀ c p, w.pc t ≠ .alloc c p) :
    holds w t = w.localCollector t := by
  unfold holds
  split
  · rename_i c p hpc
    exact absurd hpc (hna c p)
  · rfl

/-- Outside of the calls a thread holds its `LOCAL_COLLECTOR`. -/
theorem holds_of_idle (hpc : w.pc t = .idle ∨ w.pc t = .markScanEnforced) :
    holds w t = w.localCollector t := by
  unfold holds
  rcases hpc with hpc | hpc <;> rw [hpc]

/-- A move writes the core of the own collector only, and of a new one. -/
theorem core_of_foreign (h : Owning w) (hm : Move w t act w') {d : CollectorId}
    (hd : holds w t ≠ some d) (hd' : holds w' t ≠ some d) :
    core (w'.collectors d) = core (w.collectors d) := by
  -- Another collector is neither the local one of t nor the one t prepares.
  have hlocal : ∀ c, w.localCollector t = some c → d ≠ c := by
    rintro c hl rfl
    exact hd (h.holds_of_local hl)
  have hown : ∀ c, own (w.pc t) = some c → d ≠ c := fun c hc => hlocal c (h.local_of_own hc)
  have huser : ∀ c, w.user t = some c → d ≠ c := fun c hu => hlocal c (h.local_of_user hu)
  cases hm with
  | allocBegin hpc hl =>
    refine core_update_of_ne _ _ _ ?_
    rintro rfl
    refine hd' ?_
    unfold holds
    rw [World.goto_pc, Function.update_self]
  | allocRetry c p hpc => exact core_update _ c d rfl
  | allocDone c p hpc hp => exact core_update _ c d rfl
  | load c hu hn => exact core_update_of_ne _ _ _ (huser c hu)
  | publishSame c e hpc ha => exact core_update_of_ne _ _ _ (hown c (by rw [hpc]; rfl))
  | publishQuiet c e hpc ha hg => exact core_update_of_ne _ _ _ (hown c (by rw [hpc]; rfl))
  | publishRotate c e hpc ha hg => exact core_update_of_ne _ _ _ (hown c (by rw [hpc]; rfl))
  | drainDone c hpc => exact core_update _ c d rfl
  | drainCollector c e rest hpc => exact core_update _ e d rfl
  | user c f hu hn hf hk => exact core_update_of_ne _ _ _ (huser c hu)
  | endScan c hpc hl hn => exact core_update_of_ne _ _ _ (hlocal c hl)
  | endQuiet c u hpc hl hn => exact core_update_of_ne _ _ _ (hlocal c hl)
  | lockFail c hpc => exact core_update _ c d rfl
  | unlinkHead c known e next hpc hd => exact core_update _ c d rfl
  | unlinkMid c known p e next hpc =>
    -- Two writes: the link of the collector in front, and the garbage of the own one.
    have hp : core ((w.modify p fun k => { k with nextLink := next }).collectors d)
        = core (w.collectors d) := core_modify p d rfl
    exact (core_modify (f := (·.collect (.collector e))) c d rfl).trans hp
  | unlock c hpc => exact core_update _ c d rfl
  | setInactive c hpc => exact core_update_of_ne _ _ _ (hown c (by rw [hpc]; rfl))
  | collect c hu => exact core_update _ c d rfl
  | suspend c hu hn => exact core_update_of_ne _ _ _ (huser c hu)
  | drainInst | destructor | lock | knownEpoch | store | scanOwn | scanLoad | nextInvalid
    | nextBreak | nextPass | unlinkFail | markScanEnforced | suspendNone => rfl

/-- A thread comes to hold a new collector only. -/
theorem holds_back (h : Owning w) (hm : Move w t act w') {c : CollectorId}
    (hc : holds w' t = some c) : holds w t = some c ∨ w.nextCollector ≤ c := by
  -- The thread prepares the collector, or it has it as its local one.
  have hcases : (∃ p, w'.pc t = .alloc c p) ∨ w'.localCollector t = some c := by
    unfold holds at hc
    split at hc
    · rename_i p hp
      cases hc
      exact .inl ⟨p, hp⟩
    · exact .inr hc
  rcases hcases with ⟨q, hq⟩ | hl
  · cases hm
    case user | collect | suspendNone => exact .inl (holds_of_alloc hq)
    case lockFail | unlock =>
      unfold World.scanned at hq
      rw [World.goto_pc, Function.update_self] at hq
      cases hq
    case allocRetry p hpc hp =>
      rw [World.goto_pc, Function.update_self] at hq
      cases hq
      exact .inl (holds_of_alloc hpc)
    case allocBegin hpc hl =>
      rw [World.goto_pc, Function.update_self] at hq
      cases hq
      exact .inr (Nat.le_refl _)
    all_goals
      rw [World.goto_pc, Function.update_self] at hq
      cases hq
  · cases hm
    case allocDone d p hpc hp =>
      have hdc : d = c := by simpa using hl
      subst hdc
      exact .inl (holds_of_alloc hpc)
    case suspend =>
      cases (Function.update_self _ _ _).symm.trans hl
    all_goals exact .inl (h.holds_of_local hl)

/-- What another thread holds keeps its core. -/
theorem core_of_other (h : Owning w) (hm : Move w t act w') {t' : Tid} {c : CollectorId}
    (ht : t' ≠ t) (hc : holds w t' = some c) :
    core (w'.collectors c) = core (w.collectors c) := by
  refine h.core_of_foreign hm (fun hc' => ht (h.inj t' t c hc hc')) fun hc' => ?_
  rcases h.holds_back hm hc' with hc' | hc'
  · exact ht (h.inj t' t c hc hc')
  · exact absurd (h.fresh t' c hc) (Nat.not_lt.mpr hc')

/-- The general frame: a move of `t` changes its own place and the collectors it holds. -/
theorem move (h : Owning w) (hm : Move w t act w')
    (hreg : ∀ c, w'.localCollector t = some c →
      (w'.collectors c).state.invalid = false ∧ Owns c (w'.collectors c) (w'.pc t))
    (hunreg : w'.localCollector t = none → Unregistered w'.collectors (w'.pc t))
    (hfresh : ∀ c, holds w' t = some c → c < w'.nextCollector)
    (hact : ∀ c, holds w t = some c ∨ holds w' t = some c →
      (w'.collectors c).state.inactive = false →
        (w'.collectors c).state.epoch = (w'.collectors c).announcement) : Owning w' := by
  have hholds' : ∀ t', t' ≠ t → holds w' t' = holds w t' := by
    intro t' ht
    unfold holds
    rw [hm.pc_of_ne ht, hm.localCollector_of_ne ht]
  -- What another thread holds, `t` does not come to hold.
  have hforeign : ∀ t' c, t' ≠ t → holds w t' = some c → holds w' t ≠ some c := by
    intro t' c ht hc hc'
    rcases h.holds_back hm hc' with hc' | hc'
    · exact ht (h.inj t' t c hc hc')
    · exact absurd (h.fresh t' c hc) (Nat.not_lt.mpr hc')
  refine ⟨?_, ?_, ?_, ?_, ?_⟩
  · intro t' c hl
    by_cases ht : t' = t
    · subst ht
      exact hreg c hl
    · rw [hm.localCollector_of_ne ht] at hl
      have hsame := h.core_of_other hm ht (h.holds_of_local hl)
      obtain ⟨hv, ho⟩ := h.registered t' c hl
      have hs : (w'.collectors c).state = (w.collectors c).state := congrArg Prod.fst hsame
      rw [hs, hm.pc_of_ne ht]
      exact ⟨hv, ho.congr hsame⟩
  · intro c hc
    by_cases hh : holds w t = some c ∨ holds w' t = some c
    · exact hact c hh hc
    · have hsame := h.core_of_foreign hm (fun h => hh (.inl h)) fun h => hh (.inr h)
      have hs : (w'.collectors c).state = (w.collectors c).state := congrArg Prod.fst hsame
      have ha : (w'.collectors c).announcement = (w.collectors c).announcement :=
        congrArg (·.2.1) hsame
      rw [hs] at hc
      rw [hs, ha]
      exact h.announced c hc
  · intro t' hl
    by_cases ht : t' = t
    · subst ht
      exact hunreg hl
    · rw [hm.localCollector_of_ne ht] at hl
      rw [hm.pc_of_ne ht]
      exact (h.unregistered t' hl).congr fun c p hp => h.core_of_other hm ht (holds_of_alloc hp)
  · intro t₁ t₂ c h₁ h₂
    by_cases ht₁ : t₁ = t <;> by_cases ht₂ : t₂ = t
    · rw [ht₁, ht₂]
    · subst ht₁
      rw [hholds' t₂ ht₂] at h₂
      exact absurd h₁ (hforeign t₂ c ht₂ h₂)
    · subst ht₂
      rw [hholds' t₁ ht₁] at h₁
      exact absurd h₂ (hforeign t₁ c ht₁ h₁)
    · rw [hholds' t₁ ht₁] at h₁
      rw [hholds' t₂ ht₂] at h₂
      exact h.inj t₁ t₂ c h₁ h₂
  · intro t' c hc
    by_cases ht : t' = t
    · subst ht
      exact hfresh c hc
    · rw [hholds' t' ht] at hc
      exact Nat.lt_of_lt_of_le (h.fresh t' c hc) hm.nextCollector_le

/-- A move of a thread that has the collector `c` and keeps it. -/
theorem own_move (h : Owning w) (hm : Move w t act w') {c : CollectorId}
    (hl : w.localCollector t = some c) (hl' : w'.localCollector t = some c)
    (hown : (w'.collectors c).state.invalid = false ∧ Owns c (w'.collectors c) (w'.pc t))
    (hann : (w'.collectors c).state.inactive = false →
      (w'.collectors c).state.epoch = (w'.collectors c).announcement) : Owning w' := by
  have hh : holds w t = some c := h.holds_of_local hl
  have hh' : holds w' t = some c := by
    have ho := hown.2
    unfold holds
    split
    · rename_i hpc
      rw [hpc] at ho
      exact ho.elim
    · exact hl'
  refine h.move hm ?_ ?_ ?_ ?_
  · intro d hd
    cases hl'.symm.trans hd
    exact hown
  · intro hn
    cases hl'.symm.trans hn
  · intro d hd
    cases hh'.symm.trans hd
    exact Nat.lt_of_lt_of_le (h.fresh t c hh) hm.nextCollector_le
  · intro d hd hi
    have hdc : d = c := by
      rcases hd with hd | hd
      · exact Option.some.inj (hd.symm.trans hh)
      · exact Option.some.inj (hd.symm.trans hh')
    subst hdc
    exact hann hi

/-- A move that changes the place of a thread inside a call, and not the core. -/
theorem core_move (h : Owning w) (hm : Move w t act w') {c : CollectorId}
    (hc : own (w.pc t) = some c) (hlocal : w'.localCollector = w.localCollector)
    (hcore : core (w'.collectors c) = core (w.collectors c))
    (hown : Owns c (w.collectors c) (w.pc t) → Owns c (w.collectors c) (w'.pc t)) :
    Owning w' := by
  obtain ⟨hl, hv, ho⟩ := h.owns hc
  have hs : (w'.collectors c).state = (w.collectors c).state := congrArg Prod.fst hcore
  have ha : (w'.collectors c).announcement = (w.collectors c).announcement :=
    congrArg (·.2.1) hcore
  refine h.own_move hm hl (hlocal ▸ hl) ⟨?_, (hown ho).congr hcore⟩ ?_
  · rw [hs]
    exact hv
  · rw [hs, ha]
    exact h.announced c

/-- A move of a thread inside a call that does not write the core and goes to a place with
the same conditions. -/
theorem same_move (h : Owning w) (hm : Move w t act w') {c : CollectorId} {pc : Pc}
    (hc : own (w.pc t) = some c) (hlocal : w'.localCollector = w.localCollector)
    (hcore : core (w'.collectors c) = core (w.collectors c))
    (hpc : w'.pc = Function.update w.pc t pc)
    (hown : Owns c (w.collectors c) (w.pc t) = Owns c (w.collectors c) pc) : Owning w' := by
  refine h.core_move hm hc hlocal hcore fun ho => ?_
  rw [hpc, Function.update_self]
  exact hown.mp ho

/-- Every move keeps `Owning`. -/
theorem step (h : Owning w) (hm : Move w t act w') : Owning w' := by
  have hmove := hm
  -- By cases of the step. Most of them leave the core of the own collector, and change the place
  -- only.
  cases hm with
  | allocBegin hpc hl =>
    have hh : holds w t = none := (holds_of_idle (.inl hpc)).trans hl
    have hh' := holds_of_alloc (w := World.goto { w with
      collectors := Function.update w.collectors w.nextCollector .new
      nextCollector := w.nextCollector + 1 } t (.alloc w.nextCollector w.chainHead))
      (Function.update_self _ _ _)
    -- The new collector is in its initial state and belongs to t alone.
    refine h.move hmove ?_ ?_ ?_ ?_
    · intro c hc
      cases hl.symm.trans hc
    · intro _
      rw [World.goto_pc, Function.update_self]
      show core (Function.update w.collectors w.nextCollector .new w.nextCollector) = _
      rw [Function.update_self]
    · intro c hc
      cases hh'.symm.trans hc
      exact Nat.lt_succ_self _
    · intro c hc hi
      rcases hc with hc | hc
      · cases hh.symm.trans hc
      · cases hh'.symm.trans hc
        simp [Collector.new] at hi
  | allocRetry c p hpc =>
    have hl := h.local_of_alloc hpc
    have hk := h.unregistered t hl
    rw [hpc] at hk
    have hcore : core ((w.modify c fun k => { k with nextLink := p.addr }).collectors c)
        = core .new := (core_modify c c rfl).trans hk
    have hh' := holds_of_alloc (w := (w.modify c fun k => { k with nextLink := p.addr }).goto t
      (.alloc c w.chainHead)) (Function.update_self _ _ _)
    refine h.move hmove ?_ ?_ ?_ ?_
    · intro d hd
      cases hl.symm.trans hd
    · intro _
      rw [World.goto_pc, Function.update_self]
      exact hcore
    · intro d hd
      cases hh'.symm.trans hd
      exact h.fresh t c (holds_of_alloc hpc)
    · intro d hd hi
      have hdc : d = c := by
        rcases hd with hd | hd
        · exact Option.some.inj (hd.symm.trans (holds_of_alloc hpc))
        · exact Option.some.inj (hd.symm.trans hh')
      subst hdc
      cases (congrArg (·.1.inactive) hcore).symm.trans hi
  | allocDone c p hpc hp =>
    have hl := h.local_of_alloc hpc
    have hk := h.unregistered t hl
    rw [hpc] at hk
    have hcore : core ((w.modify c fun k => { k with nextLink := p.addr }).collectors c)
        -- The collector becomes the local one of t.
        = core .new := (core_modify c c rfl).trans hk
    have hl' : ∀ d, Function.update w.localCollector t (some c) t = some d → c = d := by
      intro d hd
      rw [Function.update_self] at hd
      exact Option.some.inj hd
    have hh' := holds_of_idle (w := World.goto { w.modify c fun k => { k with nextLink := p.addr }
      with chainHead := ⟨some c, p.tag⟩
           localCollector := Function.update w.localCollector t (some c) } t .idle)
      (.inl (Function.update_self _ _ _))
    refine h.move hmove ?_ ?_ ?_ ?_
    · intro d hd
      have hdc : c = d := hl' d hd
      subst hdc
      rw [World.goto_pc, Function.update_self]
      refine ⟨congrArg (·.1.invalid) hcore, ?_⟩
      exact ⟨fun _ => congrArg (·.1.inactive) hcore, fun _ => congrArg (·.2.2) hcore⟩
    · intro hd
      cases (Function.update_self _ _ _).symm.trans hd
    · intro d hd
      have hdc : c = d := hl' d (hh'.symm.trans hd)
      subst hdc
      exact h.fresh t c (holds_of_alloc hpc)
    · intro d hd hi
      have hdc : c = d := by
        rcases hd with hd | hd
        · exact Option.some.inj ((holds_of_alloc hpc).symm.trans hd)
        · exact hl' d (hh'.symm.trans hd)
      subst hdc
      cases (congrArg (·.1.inactive) hcore).symm.trans hi
  | load c hu hn =>
    have hl := h.local_of_user hu
    have hv := (h.registered t c hl).1
    have hi := (h.user_quiet hu hn).2
    refine h.own_move hmove hl hl ?_ ?_
    · simpa [Owns] using ⟨hv, hi⟩
    · simp [hi]
  | publishSame c e hpc ha =>
    obtain ⟨hl, hv, ho⟩ := h.owns (c := c) (by rw [hpc]; rfl)
    rw [hpc] at ho
    refine h.own_move hmove hl hl ?_ ?_
    · simpa [Owns] using ho.2.1
    · simp [ha]
  | publishQuiet c e hpc ha hg =>
    obtain ⟨hl, hv, ho⟩ := h.owns (c := c) (by rw [hpc]; rfl)
    rw [hpc] at ho
    refine h.own_move hmove hl hl ?_ ?_
    · simpa [Owns] using ho.2.1
    · simp
  | publishRotate c e hpc ha hg =>
    obtain ⟨hl, hv, ho⟩ := h.owns (c := c) (by rw [hpc]; rfl)
    rw [hpc] at ho
    refine h.own_move hmove hl hl ?_ ?_
    · simpa [Owns, Collector.rotate] using ho.2.1
    · simp [Collector.rotate]
  | drainDone c hpc =>
    refine h.core_move hmove (c := c) (by rw [hpc]; rfl) rfl (core_update _ _ _ rfl) fun ho => ?_
    rw [hpc] at ho
    rw [World.goto_pc, Function.update_self]
    show _ ↔ _
    simp [ho.2.1, ho.2.2]
  -- The steps in drain and of the scan only move on to the next place.
  | drainInst c i rest hpc =>
    refine h.same_move hmove (c := c) (by rw [hpc]; rfl) rfl rfl rfl ?_
    rw [hpc]
    rfl
  | drainCollector c d rest hpc =>
    refine h.same_move hmove (c := c) (by rw [hpc]; rfl) rfl (core_update _ _ _ rfl) rfl ?_
    rw [hpc]
    rfl
  | destructor c rest hpc =>
    refine h.same_move hmove (c := c) (by rw [hpc]; rfl) rfl rfl rfl ?_
    rw [hpc]
    rfl
  | user c f hu hn hf hk =>
    have hl := h.local_of_user hu
    -- A user of a guard changes the number of readers, not the state.
    obtain ⟨hv, ho⟩ := h.registered t c hl
    have hi := h.user_active hu hn
    have hs : (f (w.collectors c)).state = (w.collectors c).state := by rw [hk]
    have ha : (f (w.collectors c)).announcement = (w.collectors c).announcement := by rw [hk]
    refine h.own_move hmove hl hl ?_ ?_
    · rw [World.modify_collectors, Function.update_self, hs]
      refine ⟨hv, ?_⟩
      show Owns c (f (w.collectors c)) (w.pc t)
      rcases user_cases hu with ⟨hpc, -⟩ | ⟨rest, hpc⟩ <;> rw [hpc]
      · show _ ↔ _
        simp [hf, hs, hi]
      · exact ⟨rfl, hf, hs ▸ hi⟩
    · rw [World.modify_collectors, Function.update_self, hs, ha]
      exact h.announced c
  | endScan c hpc hl hn =>
    obtain ⟨hv, ho⟩ := h.registered t c hl
    rw [hpc] at ho
    have hi : (w.collectors c).state.inactive = false := by
      simpa using fun hi => hn (ho.mpr hi)
    refine h.own_move hmove hl hl ?_ ?_
    · simpa [Owns] using ⟨hv, hi⟩
    · simpa using h.announced c
  | endQuiet c u hpc hl hn =>
    obtain ⟨hv, ho⟩ := h.registered t c hl
    rw [hpc] at ho
    have hi : (w.collectors c).state.inactive = false := by
      simpa using fun hi => hn (ho.mpr hi)
    refine h.own_move hmove hl hl ?_ ?_
    · simpa [Owns] using ⟨hv, hi⟩
    · simpa using h.announced c
  | lockFail c hpc =>
    refine h.same_move hmove (c := c) (by rw [hpc]; rfl) rfl (core_update _ _ _ rfl) rfl ?_
    rw [hpc]
    rfl
  | lock c hpc hf hb =>
    refine h.same_move hmove (c := c) (by rw [hpc]; rfl) rfl rfl rfl ?_
    rw [hpc]
    rfl
  | knownEpoch c current hpc =>
    refine h.same_move hmove (c := c) (by rw [hpc]; rfl) rfl rfl rfl ?_
    rw [hpc]
    rfl
  | store c known prev hpc =>
    refine h.same_move hmove (c := c) (by rw [hpc]; rfl) rfl rfl rfl ?_
    rw [hpc]
    rfl
  | scanOwn c known prev hpc =>
    refine h.same_move hmove (c := c) (by rw [hpc]; rfl) rfl rfl rfl ?_
    rw [hpc]
    rfl
  | scanLoad c known prev d hpc hd =>
    refine h.same_move hmove (c := c) (by rw [hpc]; rfl) rfl rfl rfl ?_
    rw [hpc]
    rfl
  | nextInvalid c known prev d state hpc hi =>
    refine h.same_move hmove (c := c) (by rw [hpc]; rfl) rfl rfl rfl ?_
    rw [hpc]
    rfl
  | nextBreak c known prev d state hpc =>
    refine h.same_move hmove (c := c) (by rw [hpc]; rfl) rfl rfl rfl ?_
    rw [hpc]
    rfl
  | nextPass c known prev d state hpc hi hk =>
    refine h.same_move hmove (c := c) (by rw [hpc]; rfl) rfl rfl rfl ?_
    rw [hpc]
    rfl
  | unlinkHead c known d next hpc hd =>
    refine h.same_move hmove (c := c) (by rw [hpc]; rfl) rfl (core_update _ _ _ rfl) rfl ?_
    rw [hpc]
    rfl
  | unlinkFail c known d next hpc hd =>
    refine h.same_move hmove (c := c) (by rw [hpc]; rfl) rfl rfl rfl ?_
    rw [hpc]
    rfl
  | unlinkMid c known p d next hpc =>
    have hp : core ((w.modify p fun k => { k with nextLink := next }).collectors c)
        = core (w.collectors c) := core_modify p c rfl
    refine h.same_move hmove (c := c) (by rw [hpc]; rfl) rfl
      ((core_modify (f := (·.collect (.collector d))) c c rfl).trans hp) rfl ?_
    rw [hpc]
    rfl
  | unlock c hpc =>
    refine h.same_move hmove (c := c) (by rw [hpc]; rfl) rfl (core_update _ _ _ rfl) rfl ?_
    rw [hpc]
    rfl
  | setInactive c hpc =>
    obtain ⟨hl, hv, ho⟩ := h.owns (c := c) (by rw [hpc]; rfl)
    rw [hpc] at ho
    refine h.own_move hmove hl hl ?_ ?_
    · simpa [Owns] using ho.2.1
    · simp
  | markScanEnforced tag hpc hf hb =>
    -- Between the suspension and the mark the thread has no collector.
    have hl : w.localCollector t = none := by
      cases hl : w.localCollector t with
      | none => rfl
      | some d =>
        have ho := (h.registered t d hl).2
        rw [hpc] at ho
        exact ho.elim
    have hh : holds w t = none := (holds_of_idle (.inr hpc)).trans hl
    have hh' := holds_of_idle (w := World.goto { w with chainHead := w.chainHead.withTag tag } t
      .idle) (.inl (Function.update_self _ _ _))
    refine h.move hmove ?_ ?_ ?_ ?_
    · intro d hd
      cases hl.symm.trans hd
    · intro _
      rw [World.goto_pc, Function.update_self]
      trivial
    · intro d hd
      cases hl.symm.trans (hh'.symm.trans hd)
    · intro d hd hi
      rcases hd with hd | hd
      · cases hh.symm.trans hd
      · cases hl.symm.trans (hh'.symm.trans hd)
  | collect c hu =>
    have hl := h.local_of_user hu
    obtain ⟨hv, ho⟩ := h.registered t c hl
    refine h.own_move hmove hl hl ?_ ?_
    · rw [World.modify_collectors, Function.update_self]
      exact ⟨hv, ho.congr rfl⟩
    · rw [World.modify_collectors, Function.update_self]
      exact h.announced c
  | suspendNone => exact h
  | suspend c hu hn =>
    have hl := h.local_of_user hu
    have hi := (h.user_quiet hu hn).2
    have hl' : Function.update w.localCollector t none t = none := Function.update_self _ _ _
    have hh' := holds_of_idle (w := World.goto { w.modify c fun k =>
      { k with state := { k.state with invalid := true } } with
        localCollector := Function.update w.localCollector t none } t .markScanEnforced)
      (.inr (Function.update_self _ _ _))
    -- The thread gives its collector up.
    refine h.move hmove ?_ ?_ ?_ ?_
    · intro d hd
      cases hl'.symm.trans hd
    · intro _
      rw [World.goto_pc, Function.update_self]
      trivial
    · intro d hd
      cases hl'.symm.trans (hh'.symm.trans hd)
    · intro d hd hi'
      rcases hd with hd | hd
      · have hdc : d = c := Option.some.inj (hd.symm.trans (h.holds_of_local hl))
        subst hdc
        simp [hi] at hi'
      · cases hl'.symm.trans (hh'.symm.trans hd)

/-- The collector of a thread with a published guard keeps its state byte. -/
theorem alive_stays (h : Owning w) (hm : Move w t act w') {r : Tid} {c : CollectorId}
    (hl : w.localCollector r = some c) (hn : (w.collectors c).numReaders ≠ 0)
    (hi : (w.collectors c).state.inactive = false) :
    w'.localCollector r = some c ∧ (w'.collectors c).state = (w.collectors c).state := by
  by_cases hr : r = t
  -- A thread with a guard is inside no method that changes the state of its collector.
  · subst hr
    have hown : ∀ d, own (w.pc r) = some d → c = d := fun d hd =>
      Option.some.inj (hl.symm.trans (h.local_of_own hd))
    have huser : ∀ d, w.user r = some d → c = d := fun d hd =>
      Option.some.inj (hl.symm.trans (h.local_of_user hd))
    have ho := (h.registered r c hl).2
    have hsame : ∀ k : CollectorId → Collector, core (k c) = core (w.collectors c) →
        (k c).state = (w.collectors c).state := fun k hk => congrArg Prod.fst hk
    cases hm with
    | allocBegin hpc hl' => cases hl.symm.trans hl'
    | allocRetry d p hpc => cases hl.symm.trans (h.local_of_alloc hpc)
    | allocDone d p hpc hp => cases hl.symm.trans (h.local_of_alloc hpc)
    | load d hu hn' =>
      obtain rfl := huser d hu
      exact absurd hn' hn
    | publishSame d e hpc | publishQuiet d e hpc | publishRotate d e hpc =>
      rw [hpc] at ho
      rw [ho.2.2] at hi
      cases hi
    | user d f hu hn' hf hk =>
      obtain rfl := huser d hu
      refine ⟨hl, ?_⟩
      rw [World.modify_collectors, Function.update_self, hk]
    | endScan d hpc hl' | endQuiet d u hpc hl' =>
      obtain rfl := Option.some.inj (hl.symm.trans hl')
      refine ⟨hl, ?_⟩
      rw [World.goto_collectors, World.modify_collectors, Function.update_self]
    -- With a guard alive the thread is not in the scan, where there are no readers.
    | lock d hpc | lockFail d hpc | knownEpoch d current hpc | store d known prev hpc
      | scanOwn d known prev hpc | scanLoad d known prev d' hpc | nextInvalid d known prev d' st hpc
      | nextBreak d known prev d' st hpc | nextPass d known prev d' st hpc
      | unlinkHead d known d' next hpc | unlinkFail d known d' next hpc
      | unlinkMid d known p d' next hpc | unlock d hpc | setInactive d hpc =>
      rw [hpc] at ho
      exact absurd ho.2.1 hn
    | drainDone d hpc => exact ⟨hl, hsame _ (core_update _ d c rfl)⟩
    | drainCollector d e rest hpc => exact ⟨hl, hsame _ (core_update _ e c rfl)⟩
    | collect d hu => exact ⟨hl, hsame _ (core_update _ d c rfl)⟩
    | suspend d hu hn' =>
      obtain rfl := huser d hu
      exact absurd hn' hn
    | markScanEnforced tag hpc =>
      rw [hpc] at ho
      exact ho.elim
    | drainInst | destructor | suspendNone => exact ⟨hl, rfl⟩
  · exact ⟨(hm.localCollector_of_ne hr).trans hl,
      congrArg Prod.fst (h.core_of_other hm hr (h.holds_of_local hl))⟩

/-- A collector that is active keeps its state byte, until it is inactive or obsolete. -/
theorem state_of_active (h : Owning w) (hm : Move w t act w') {c : CollectorId}
    (hc : c < w.nextCollector) (hi : (w.collectors c).state.inactive = false) :
    (w'.collectors c).state = (w.collectors c).state ∨ (w'.collectors c).state.inactive = true ∨
      (w'.collectors c).state.invalid = true := by
  have hsame : ∀ (f : CollectorId → Collector) (d : CollectorId) (k : Collector),
      k.state = (f d).state → (Function.update f d k c).state = (f c).state := by
    intro f d k hk
    by_cases hd : c = d
    · rw [hd, Function.update_self, hk]
    · rw [Function.update_of_ne hd]
  -- new_guard publishes an epoch only over an inactive state.
  have hquiet : ∀ d, own (w.pc t) = some d → ∀ {e}, w.pc t = .newGuard d e → c ≠ d := by
    rintro d hd e hpc rfl
    have ho := (h.owns hd).2
    rw [hpc] at ho
    cases hi.symm.trans ho.2.2.2
  cases hm with
  | allocBegin =>
    refine .inl ?_
    show (Function.update w.collectors w.nextCollector .new c).state = _
    rw [Function.update_of_ne (Nat.ne_of_lt hc)]
  | allocRetry d | allocDone d => exact .inl (hsame _ d _ rfl)
  | load d => exact .inl (hsame _ d _ rfl)
  | publishSame d e hpc | publishQuiet d e hpc | publishRotate d e hpc =>
    refine .inl ?_
    show (Function.update w.collectors d _ c).state = _
    rw [Function.update_of_ne (hquiet d (by rw [hpc]; rfl) hpc)]
  | drainDone d | endScan d | endQuiet d | lockFail d | unlock d | collect d =>
    exact .inl (hsame _ d _ rfl)
  | drainCollector d e => exact .inl (hsame _ e _ rfl)
  | user d f hu hn hf hk =>
    refine .inl (hsame _ d _ ?_)
    rw [hk]
  | unlinkHead d => exact .inl (hsame _ d _ rfl)
  | unlinkMid d known p e next =>
    let k := w.modify p fun k => { k with nextLink := next }
    have hp : (k.collectors c).state = (w.collectors c).state :=
      hsame w.collectors p { w.collectors p with nextLink := next } rfl
    exact .inl ((hsame k.collectors d ((k.collectors d).collect (.collector e)) rfl).trans hp)
  | setInactive d =>
    show (Function.update w.collectors d _ c).state = _ ∨
      (Function.update w.collectors d _ c).state.inactive = true ∨ _
    by_cases hd : c = d
    · rw [hd, Function.update_self]
      exact .inr (.inl rfl)
    · rw [Function.update_of_ne hd]
      exact .inl rfl
  | suspend d =>
    show (Function.update w.collectors d _ c).state = _ ∨ _ ∨
      (Function.update w.collectors d _ c).state.invalid = true
    by_cases hd : c = d
    · rw [hd, Function.update_self]
      exact .inr (.inr rfl)
    · rw [Function.update_of_ne hd]
      exact .inl rfl
  | drainInst | destructor | lock | knownEpoch | store | scanOwn | scanLoad | nextInvalid
    | nextBreak | nextPass | unlinkFail | markScanEnforced | suspendNone => exact .inl rfl

/-- A thread gives up a collector that is inactive and without readers only. -/
theorem holds_lost (h : Owning w) (hm : Move w t act w') {c : CollectorId}
    (hc : holds w t = some c) :
    holds w' t = some c ∨
      (w'.collectors c).state.inactive = true ∧ (w'.collectors c).numReaders = 0 := by
  -- A step that leaves alloc and local_collector alone loses nothing.
  have hlocal : ∀ {pc}, w.pc t = pc → (∀ d p, pc ≠ .alloc d p) →
      (∃ pc', w'.pc = Function.update w.pc t pc' ∧ ∀ d p, pc' ≠ .alloc d p) →
        w'.localCollector = w.localCollector → holds w' t = some c := by
    intro pc hpc hna ⟨pc', hpc', hna'⟩ hl
    have hself : w'.pc t = pc' := by rw [hpc', Function.update_self]
    rw [holds_of_not_alloc fun d p hp => hna' d p (hself.symm.trans hp), hl,
      ← holds_of_not_alloc fun d p hp => hna d p (hpc.symm.trans hp)]
    exact hc
  cases hm with
  | allocBegin hpc hl =>
    rw [holds_of_idle (.inl hpc), hl] at hc
    cases hc
  | allocRetry d p hpc =>
    have hd : d = c := Option.some.inj ((holds_of_alloc hpc).symm.trans hc)
    exact .inl (hd ▸ holds_of_alloc (Function.update_self _ _ _))
  | allocDone d p hpc hp =>
    have hd : d = c := Option.some.inj ((holds_of_alloc hpc).symm.trans hc)
    refine .inl ((holds_of_idle (.inl (Function.update_self _ _ _))).trans ?_)
    exact (Function.update_self _ _ _).trans (congrArg some hd)
  | suspend d hu hn =>
    have hd : d = c := Option.some.inj
      ((h.holds_of_local (h.local_of_user hu)).symm.trans hc)
    refine .inr ?_
    show (Function.update w.collectors d _ c).state.inactive = true ∧
      (Function.update w.collectors d _ c).numReaders = 0
    rw [hd, Function.update_self]
    exact ⟨(h.user_quiet (hd ▸ hu) (hd ▸ hn)).2, hd ▸ hn⟩
  | load d hu hn =>
    have hpc := (h.user_quiet hu hn).1
    exact .inl (hlocal hpc nofun ⟨_, rfl, nofun⟩ rfl)
  | user | collect | suspendNone => exact .inl hc
  | publishSame d e hpc | publishQuiet d e hpc | publishRotate d e hpc | drainDone d hpc
    | drainInst d i rest hpc | drainCollector d e rest hpc | destructor d rest hpc | endScan d hpc
    | endQuiet d u hpc | lockFail d hpc | lock d hpc | knownEpoch d current hpc
    | store d known prev hpc | scanOwn d known prev hpc | scanLoad d known prev e hpc
    | nextInvalid d known prev e st hpc | nextBreak d known prev e st hpc
    | nextPass d known prev e st hpc | unlinkHead d known e next hpc
    | unlinkFail d known e next hpc | unlinkMid d known p e next hpc | unlock d hpc
    | setInactive d hpc | markScanEnforced tag hpc =>
    exact .inl (hlocal hpc nofun ⟨_, rfl, nofun⟩ rfl)

end Owning

namespace Threads

variable {w w' : World} {t : Tid} {act : Act}

/-- Every move keeps `Threads`. -/
theorem step (h : Threads w) (hm : Move w t act w') : Threads w' := by
  have howning : Owning w' := h.toOwning.step hm
  refine ⟨howning, fun c hc => ?_⟩
  have hlocal : holds w' t = some c → ∃ t', w'.localCollector t' = some c := by
    intro hh
    cases hpc : w'.pc t with
    | alloc d p =>
      -- A collector under preparation is inactive.
      have hd : d = c := Option.some.inj ((Owning.holds_of_alloc hpc).symm.trans hh)
      have hnew := howning.unregistered t (howning.local_of_alloc hpc)
      rw [hpc] at hnew
      cases (congrArg (·.1.inactive) (hd ▸ hnew)).symm.trans hc
    | _ =>
      unfold holds at hh
      rw [hpc] at hh
      exact ⟨t, hh⟩
  by_cases hh : holds w t = some c
  · rcases h.holds_lost hm hh with hh' | ⟨hi, -⟩
    · exact hlocal hh'
    · cases hi.symm.trans hc
  · by_cases hh' : holds w' t = some c
    · exact hlocal hh'
    · have hs : (w'.collectors c).state = (w.collectors c).state :=
        congrArg Prod.fst (h.core_of_foreign hm hh hh')
      rw [hs] at hc
      obtain ⟨t', hl⟩ := h.active c hc
      have ht : t' ≠ t := by
        rintro rfl
        exact hh (h.holds_of_local hl)
      exact ⟨t', (hm.localCollector_of_ne ht).trans hl⟩

end Threads

end Sdd.Proofs
