import Sdd.Lib.Linked
import Sdd.Lib.Pinning
import Sdd.Proofs.Collector.Threads

/-!
# `Sdd.Proofs.Collector.Chain`: the chain of collectors, its lock, and the walk of `scan`

The collectors that are linked from `chain_head` are the list `chain` of a ghost state.
Every `LOCAL_COLLECTOR` is in it, and only the thread that holds the chain lock takes
collectors out of it, so that a walk in progress stays a walk over the chain: `Walks` says
where the walk stands, and that every collector that it still has to look at is ahead of
it.

`Inv.step` is the connection to the abstract protocol of `Sdd.Lib.Pinning`: a collector is
pinned to the epoch of its state byte as long as it is not inactive, the scan in progress
is that of the thread with the chain lock, and every move of the model is one step of the
protocol.
-/

set_option autoImplicit false

namespace Sdd.Proofs

open Sdd.Collector Sdd.Lib

/-- The walk of `scan` is in progress: the chain is locked and the epoch is not stored. -/
def walking : Pc → Bool
  | .knownEpoch _ _ | .scan _ _ _ _ | .scanNext _ _ _ _ _ | .unlink _ _ _ _ _ => true
  | _ => false

/-- The thread holds the chain lock. -/
def locking : Pc → Bool
  | .unlockChain _ => true
  | pc => walking pc

/-- The ghost state: the collectors in the chain, and the scan in progress. -/
structure Ghost where
  chain : List CollectorId
  scan : Option (Pinning.Scan CollectorId Epoch)

/-- The epoch that a collector keeps others from leaving behind. -/
def pinned (k : Collector) : Option Epoch :=
  if k.state.inactive then none else some k.state.epoch

/-- The state of the abstract protocol. -/
def abs (w : World) (g : Ghost) : Pinning.State CollectorId Epoch :=
  ⟨w.epoch, fun c => pinned (w.collectors c), g.scan⟩

def nextLinks (w : World) (c : CollectorId) : Option CollectorId := (w.collectors c).nextLink

/-- The chain: the collectors that are linked from `chain_head`. -/
structure Chain (w : World) (chain : List CollectorId) : Prop where
  linked : Linked (nextLinks w) w.chainHead.addr chain
  nodup : chain.Nodup
  mem : ∀ t c, w.localCollector t = some c → c ∈ chain
  fresh : ∀ c ∈ chain, c < w.nextCollector
  preparing : ∀ t c p, w.pc t = .alloc c p → c ∉ chain

/-- The walk of the thread that owns `c` has the collectors `todo` ahead. `prev` is the
last one behind, unless it is null. -/
structure Walk (k : CollectorId → Collector) (g : Ghost) (c : CollectorId)
    (prev : Option CollectorId) (todo : List CollectorId)
    (sc : Pinning.Scan CollectorId Epoch) : Prop where
  scan : g.scan = some sc
  owner : sc.owner = c
  known : sc.known = (k c).state.epoch
  position : ∃ front, g.chain = front ++ todo ∧ ∀ p, prev = some p → ∃ f, front = f ++ [p]

/-- Where the walk of a thread stands. -/
def Walks (k : CollectorId → Collector) (g : Ghost) : Pc → Prop
  | .knownEpoch c current => ∃ sc rest, Walk k g c none rest sc ∧ current = rest.head? ∧
      ∀ x, sc.pending x → x ∈ rest
  | .scan c known prev current => ∃ sc rest, known = (k c).state ∧
      Walk k g c prev rest sc ∧ current = rest.head? ∧ ∀ x, sc.pending x → x ∈ rest
  | .scanNext c known prev d state => ∃ sc rest, known = (k c).state ∧
      Walk k g c prev (d :: rest) sc ∧
      (state.invalid = true → (k d).state.invalid = true) ∧
      (state.invalid = true ∨ state.inactive = true ∨ state = known →
        ∀ x, sc.pending x → x ∈ rest)
  | .unlink c known prev d next => ∃ sc rest, known = (k c).state ∧
      Walk k g c prev (d :: rest) sc ∧ next = rest.head? ∧
      (k d).state.invalid = true ∧ ∀ x, sc.pending x → x ∈ rest
  | _ => True

/-- The invariant of the collector. -/
structure Inv (w : World) (g : Ghost) : Prop where
  threads : Threads w
  chain : Chain w g.chain
  locked : ∀ t, locking (w.pc t) = true → w.chainHead.tag = .first ∨ w.chainHead.tag = .both
  unique : ∀ t t', locking (w.pc t) = true → locking (w.pc t') = true → t = t'
  walks : ∀ t, Walks w.collectors g (w.pc t)
  quiet : (∀ t, walking (w.pc t) = false) → g.scan = none

/-- A thread that walks holds the lock. -/
theorem locking_of_walking {pc : Pc} (h : walking pc = true) : locking pc = true := by
  cases pc with
  | unlockChain c => rfl
  | idle | alloc | newGuard | drain | destructor | lockChain | knownEpoch | scan | scanNext | unlink
    | setInactive | markScanEnforced => exact h

/-- A thread that does not hold the lock does not walk. -/
theorem walks_of_not_locking {k : CollectorId → Collector} {g : Ghost} {pc : Pc}
    (h : locking pc = false) : Walks k g pc := by
  cases pc with
  | knownEpoch | scan | scanNext | unlink => cases h
  | idle | alloc | newGuard | drain | destructor | lockChain | unlockChain | setInactive
    | markScanEnforced => trivial

/-- The first state: no collector, no scan. -/
theorem inv_init : Inv World.init ⟨[], none⟩ where
  threads := threads_init
  chain := {
    linked := rfl
    nodup := List.nodup_nil
    mem := by
      intro t c h
      cases h
    fresh := by
      intro c h
      cases h
    preparing := by
      intro t c p h
      cases h }
  locked := by
    intro t h
    cases h
  unique := by
    intro t t' h
    cases h
  walks := fun _ => trivial
  quiet := fun _ => rfl

/-- What is pinned depends on the core only. -/
theorem pinned_congr {k k' : Collector} (h : core k' = core k) : pinned k' = pinned k := by
  have hs : k'.state = k.state := congrArg Prod.fst h
  unfold pinned
  rw [hs]

/-- A collector that is not inactive is pinned to the epoch of its state byte. -/
theorem pinned_of_active {k : Collector} (h : k.state.inactive = false) :
    pinned k = some k.state.epoch := by
  simp [pinned, h]

theorem pinned_of_inactive {k : Collector} (h : k.state.inactive = true) : pinned k = none := by
  simp [pinned, h]

/-- Worlds with the same epoch and the same pins. -/
theorem abs_eq {w w' : World} {g g' : Ghost} (he : w'.epoch = w.epoch)
    (hp : ∀ d, pinned (w'.collectors d) = pinned (w.collectors d)) (hs : g'.scan = g.scan) :
    abs w' g' = abs w g := by
  unfold abs
  rw [he, hs, funext hp]

/-- A write that keeps the pin of one collector keeps all pins. -/
theorem pinned_modify {w : World} {c : CollectorId} {f : Collector → Collector}
    (h : pinned (f (w.collectors c)) = pinned (w.collectors c)) (d : CollectorId) :
    pinned ((w.modify c f).collectors d) = pinned (w.collectors d) := by
  rw [World.modify_collectors]
  by_cases hd : d = c
  · subst hd
    rw [Function.update_self, h]
  · rw [Function.update_of_ne hd]

/-- A write that keeps the link of one collector keeps all links. -/
theorem nextLinks_modify {w : World} {c : CollectorId} {f : Collector → Collector}
    (h : (f (w.collectors c)).nextLink = (w.collectors c).nextLink) (d : CollectorId) :
    nextLinks (w.modify c f) d = nextLinks w d := by
  unfold nextLinks
  rw [World.modify_collectors]
  by_cases hd : d = c
  · subst hd
    rw [Function.update_self, h]
  · rw [Function.update_of_ne hd]

/-- The return from `scan` keeps the links. -/
theorem nextLinks_scanned (w : World) (t : Tid) (c d : CollectorId) :
    nextLinks (w.scanned t c) d = nextLinks w d :=
  nextLinks_modify (f := fun k => { k with nextEpochUpdate := Collector.CADENCE }) rfl d

/-- The return from `scan` keeps the pins. -/
theorem pinned_scanned (w : World) (t : Tid) (c d : CollectorId) :
    pinned ((w.scanned t c).collectors d) = pinned (w.collectors d) :=
  pinned_modify (f := fun k => { k with nextEpochUpdate := Collector.CADENCE }) rfl d

/-- A write to one collector changes the pin of that one. -/
theorem abs_modify (w : World) (g : Ghost) (c : CollectorId) (f : Collector → Collector) (t : Tid)
    (pc : Pc) :
    abs ((w.modify c f).goto t pc) g = { abs w g with
      pinned := Function.update (abs w g).pinned c (pinned (f (w.collectors c))) } := by
  have hpins : (fun d => pinned (((w.modify c f).goto t pc).collectors d))
      = Function.update (fun d => pinned (w.collectors d)) c (pinned (f (w.collectors c))) := by
    funext d
    rw [World.goto_collectors, World.modify_collectors]
    by_cases hd : d = c
    · subst hd
      rw [Function.update_self, Function.update_self]
    · rw [Function.update_of_ne hd, Function.update_of_ne hd]
  unfold abs
  rw [hpins]
  rfl

/-- A write to a collector outside of the chain keeps the links of the chain. -/
theorem nextLinks_modify_of_notMem {w : World} {c : CollectorId} {l : List CollectorId}
    (f : Collector → Collector) (hc : c ∉ l) (d : CollectorId) (hd : d ∈ l) :
    nextLinks (w.modify c f) d = nextLinks w d := by
  unfold nextLinks
  rw [World.modify_collectors, Function.update_of_ne]
  rintro rfl
  exact hc hd

/-- A chain in which nothing changes, or only the thread that moves. -/
theorem Chain.keep {w w' : World} {t : Tid} {act : Act} {l : List CollectorId} (h : Chain w l)
    (hm : Move w t act w') (haddr : w'.chainHead.addr = w.chainHead.addr)
    (hnext : ∀ d ∈ l, nextLinks w' d = nextLinks w d)
    (hmem : ∀ c, w'.localCollector t = some c → c ∈ l)
    (hprep : ∀ c p, w'.pc t = .alloc c p → c ∉ l) : Chain w' l where
  linked := by
    rw [haddr]
    exact h.linked.congr hnext
  nodup := h.nodup
  mem := by
    intro t' c hc
    by_cases ht : t' = t
    · subst ht
      exact hmem c hc
    · rw [hm.localCollector_of_ne ht] at hc
      exact h.mem t' c hc
  fresh := fun c hc => Nat.lt_of_lt_of_le (h.fresh c hc) hm.nextCollector_le
  preparing := by
    intro t' c p hp
    by_cases ht : t' = t
    · subst ht
      exact hprep c p hp
    · rw [hm.pc_of_ne ht] at hp
      exact h.preparing t' c p hp

/-- A chain from which an obsolete collector is taken out. -/
theorem Chain.shrink {w w' : World} {t : Tid} {act : Act} {l l' : List CollectorId} (h : Chain w l)
    (hm : Move w t act w') (hlinked : Linked (nextLinks w') w'.chainHead.addr l')
    (hsub : l'.Sublist l) (hmem : ∀ t' c, w.localCollector t' = some c → c ∈ l → c ∈ l')
    (hlocal : w'.localCollector = w.localCollector) (hprep : ∀ c p, w'.pc t ≠ .alloc c p) :
    Chain w' l' where
  linked := hlinked
  nodup := hsub.nodup h.nodup
  mem := by
    intro t' c hc
    rw [hlocal] at hc
    exact hmem t' c hc (h.mem t' c hc)
  fresh := fun c hc => Nat.lt_of_lt_of_le (h.fresh c (hsub.subset hc)) hm.nextCollector_le
  preparing := by
    intro t' c p hp hc
    by_cases ht : t' = t
    · subst ht
      exact hprep c p hp
    · rw [hm.pc_of_ne ht] at hp
      exact h.preparing t' c p hp (hsub.subset hc)

namespace Inv

variable {w w' : World} {g : Ghost} {t : Tid} {act : Act}

/-- A collector that nobody has is not pinned. -/
theorem pinned_of_invalid (h : Inv w g) {c : CollectorId}
    (hi : (w.collectors c).state.invalid = true) : pinned (w.collectors c) = none := by
  cases ha : (w.collectors c).state.inactive with
  | true => exact pinned_of_inactive ha
  | false =>
    obtain ⟨t, hl⟩ := h.threads.active c ha
    have hv := (h.threads.registered t c hl).1
    rw [hi] at hv
    cases hv

/-- Everything that is pinned is in the chain. -/
theorem mem_of_pinned (h : Inv w g) {c : CollectorId} (hc : pinned (w.collectors c) ≠ none) :
    c ∈ g.chain := by
  cases ha : (w.collectors c).state.inactive with
  | true => exact absurd (pinned_of_inactive ha) hc
  | false =>
    obtain ⟨t, hl⟩ := h.threads.active c ha
    exact h.chain.mem t c hl

/-- An obsolete collector in the chain stays obsolete. -/
theorem invalid_stays (h : Inv w g) (hm : Move w t act w') {c : CollectorId} (hc : c ∈ g.chain)
    (hi : (w.collectors c).state.invalid = true) : (w'.collectors c).state.invalid = true := by
  have hh : holds w t ≠ some c := by
    intro hh
    unfold holds at hh
    split at hh
    · rename_i p hp
      cases hh
      exact h.chain.preparing t c p hp hc
    · have hv := (h.threads.registered t c hh).1
      rw [hi] at hv
      cases hv
  have hh' : holds w' t ≠ some c := by
    intro hh'
    rcases h.threads.holds_back hm hh' with hh' | hle
    · exact hh hh'
    · exact absurd (h.chain.fresh c hc) (Nat.not_lt.mpr hle)
  have hs : (w'.collectors c).state = (w.collectors c).state :=
    congrArg Prod.fst (h.threads.core_of_foreign hm hh hh')
  rw [hs, hi]

/-- The walk of another thread goes on: new collectors are pushed in front of it only. -/
theorem walks_other (h : Inv w g) (hm : Move w t act w') {t' : Tid} {g' : Ghost}
    {pre : List CollectorId} (ht : t' ≠ t) (hchain : g'.chain = pre ++ g.chain)
    (hscan : g'.scan = g.scan) :
    Walks w'.collectors g' (w'.pc t') := by
  rw [hm.pc_of_ne ht]
  have hown : ∀ c, own (w.pc t') = some c → (w'.collectors c).state = (w.collectors c).state := by
    intro c hc
    have hl := h.threads.local_of_own hc
    exact congrArg Prod.fst (h.threads.core_of_other hm ht (h.threads.holds_of_local hl))
  have hwalk : ∀ c prev todo sc, own (w.pc t') = some c →
      Walk w.collectors g c prev todo sc → Walk w'.collectors g' c prev todo sc := by
    intro c prev todo sc hc hw
    obtain ⟨front, hf, hp⟩ := hw.position
    refine ⟨hscan.trans hw.scan, hw.owner, ?_, pre ++ front, ?_, ?_⟩
    · rw [hown c hc]
      exact hw.known
    · rw [hchain, hf, List.append_assoc]
    · intro p hpp
      obtain ⟨f, hf⟩ := hp p hpp
      exact ⟨pre ++ f, by rw [hf, List.append_assoc]⟩
  have hmem : ∀ c prev d rest sc, Walk w.collectors g c prev (d :: rest) sc → d ∈ g.chain := by
    intro c prev d rest sc hw
    obtain ⟨front, hf, -⟩ := hw.position
    rw [hf]
    exact List.mem_append_right front List.mem_cons_self
  have hpc := h.walks t'
  cases hp : w.pc t' with
  | knownEpoch c current =>
    rw [hp] at hpc hwalk
    obtain ⟨sc, rest, hw, hcur⟩ := hpc
    exact ⟨sc, rest, hwalk c _ _ sc rfl hw, hcur⟩
  | scan c known prev current =>
    rw [hp] at hpc hwalk hown
    obtain ⟨sc, rest, hk, hw, hcur⟩ := hpc
    exact ⟨sc, rest, hk.trans (hown c rfl).symm, hwalk c _ _ sc rfl hw, hcur⟩
  | scanNext c known prev d state =>
    rw [hp] at hpc hwalk hown
    obtain ⟨sc, rest, hk, hw, hi, hpend⟩ := hpc
    exact ⟨sc, rest, hk.trans (hown c rfl).symm, hwalk c _ _ sc rfl hw,
      fun hs => h.invalid_stays hm (hmem c prev d rest sc hw) (hi hs), hpend⟩
  | unlink c known prev d next =>
    rw [hp] at hpc hwalk hown
    obtain ⟨sc, rest, hk, hw, hn, hi, hpend⟩ := hpc
    exact ⟨sc, rest, hk.trans (hown c rfl).symm, hwalk c _ _ sc rfl hw, hn,
      h.invalid_stays hm (hmem c prev d rest sc hw) hi, hpend⟩
  | idle | alloc | newGuard | drain | destructor | lockChain | unlockChain | setInactive
    | markScanEnforced => trivial

/-- A move of a thread that does not hold the lock, before or after. -/
theorem outside (h : Inv w g) (hm : Move w t act w') {g' : Ghost} (pre : List CollectorId)
    (hl : locking (w.pc t) = false) (hl' : locking (w'.pc t) = false)
    (hchain : g'.chain = pre ++ g.chain) (hscan : g'.scan = g.scan)
    (htag : w.chainHead.tag = .first ∨ w.chainHead.tag = .both →
      w'.chainHead.tag = .first ∨ w'.chainHead.tag = .both)
    (hc : Chain w' g'.chain) : Inv w' g' := by
  have hlock : ∀ t', locking (w'.pc t') = true → t' ≠ t ∧ locking (w.pc t') = true := by
    intro t' hlt
    have ht : t' ≠ t := by
      rintro rfl
      rw [hl'] at hlt
      cases hlt
    rw [hm.pc_of_ne ht] at hlt
    exact ⟨ht, hlt⟩
  refine ⟨h.threads.step hm, hc, fun t' hlt => htag (h.locked t' (hlock t' hlt).2), ?_, ?_, ?_⟩
  · intro t₁ t₂ h₁ h₂
    exact h.unique t₁ t₂ (hlock t₁ h₁).2 (hlock t₂ h₂).2
  · intro t'
    by_cases ht : t' = t
    · subst ht
      exact walks_of_not_locking hl'
    · exact h.walks_other hm ht hchain hscan
  · intro hw
    rw [hscan]
    refine h.quiet fun t' => ?_
    by_cases ht : t' = t
    · subst ht
      cases hwt : walking (w.pc t') with
      | false => rfl
      | true => exact absurd (locking_of_walking hwt) (by rw [hl]; exact Bool.false_ne_true)
    · rw [← hm.pc_of_ne ht]
      exact hw t'

/-- A move of the thread that holds the lock, or comes to hold it. -/
theorem inside (h : Inv w g) (hm : Move w t act w') {g' : Ghost}
    (hothers : ∀ t', t' ≠ t → locking (w.pc t') = false)
    (htag : locking (w'.pc t) = true → w'.chainHead.tag = .first ∨ w'.chainHead.tag = .both)
    (hc : Chain w' g'.chain) (hwalks : Walks w'.collectors g' (w'.pc t))
    (hquiet : walking (w'.pc t) = false → g'.scan = none) : Inv w' g' := by
  have hlock : ∀ t', locking (w'.pc t') = true → t' = t := by
    intro t' hlt
    by_contra ht
    rw [hm.pc_of_ne ht, hothers t' ht] at hlt
    cases hlt
  refine ⟨h.threads.step hm, hc, ?_, ?_, ?_, fun hw => hquiet (hw t)⟩
  · intro t' hlt
    rw [hlock t' hlt] at hlt
    exact htag hlt
  · intro t₁ t₂ h₁ h₂
    rw [hlock t₁ h₁, hlock t₂ h₂]
  · intro t'
    by_cases ht : t' = t
    · subst ht
      exact hwalks
    · refine walks_of_not_locking ?_
      rw [hm.pc_of_ne ht]
      exact hothers t' ht

/-- The other threads do not hold the lock that `t` holds. -/
theorem others_of_locking (h : Inv w g) (hl : locking (w.pc t) = true) (t' : Tid) (ht : t' ≠ t) :
    locking (w.pc t') = false := by
  cases hlt : locking (w.pc t') with
  | false => rfl
  | true => exact absurd (h.unique t' t hlt hl) ht

section Step

variable {P : Pinning.State CollectorId Epoch → Epoch → Prop}
  {Q : Pinning.State CollectorId Epoch → Pinning.Scan CollectorId Epoch → Prop}

/-- A move that the protocol does not see. -/
theorem skip_of_eq {s s' : Pinning.State CollectorId Epoch} (hs : s' = s) :
    Pinning.Step Epoch.next P Q s s' := by
  rw [hs]
  exact .skip

/-- The thread keeps its collector and does not prepare one, and no link changes. -/
theorem chain_keep (h : Inv w g) (hm : Move w t act w') {pc : Pc}
    (hpc : w'.pc t = pc) (hna : ∀ c p, pc ≠ .alloc c p)
    (haddr : w'.chainHead.addr = w.chainHead.addr)
    (hlinks : ∀ d, nextLinks w' d = nextLinks w d)
    (hlocal : w'.localCollector = w.localCollector) : Chain w' g.chain := by
  refine h.chain.keep hm haddr (fun d _ => hlinks d) ?_ ?_
  · intro c hc
    rw [hlocal] at hc
    exact h.chain.mem t c hc
  · intro c p hp
    exact absurd (hpc.symm.trans hp) (hna c p)

/-- A move that the protocol does not see. -/
theorem quiet_step (h : Inv w g) (hm : Move w t act w') (hl : locking (w.pc t) = false)
    (hl' : locking (w'.pc t) = false)
    (htag : w.chainHead.tag = .first ∨ w.chainHead.tag = .both →
      w'.chainHead.tag = .first ∨ w'.chainHead.tag = .both)
    (hc : Chain w' g.chain) (he : w'.epoch = w.epoch)
    (hp : ∀ d, pinned (w'.collectors d) = pinned (w.collectors d)) :
    ∃ g', Inv w' g' ∧ Pinning.Step Epoch.next P Q (abs w g) (abs w' g') := by
  exact ⟨g, h.outside hm [] hl hl' rfl rfl htag hc, skip_of_eq (abs_eq he hp rfl)⟩

/-- A move of a thread that goes from one place outside of the lock to another, and neither
the chain nor a state byte changes. -/
theorem local_step (h : Inv w g) (hm : Move w t act w') {pc : Pc} (hl : locking (w.pc t) = false)
    (hpc : w'.pc t = pc) (hl' : locking pc = false) (hna : ∀ c p, pc ≠ .alloc c p)
    (hhead : w'.chainHead = w.chainHead) (hlinks : ∀ d, nextLinks w' d = nextLinks w d)
    (hlocal : w'.localCollector = w.localCollector) (he : w'.epoch = w.epoch)
    (hp : ∀ d, pinned (w'.collectors d) = pinned (w.collectors d)) :
    ∃ g', Inv w' g' ∧ Pinning.Step Epoch.next P Q (abs w g) (abs w' g') := by
  refine h.quiet_step hm hl (hpc ▸ hl') ?_ (h.chain_keep hm hpc hna ?_ hlinks hlocal) he hp
  · rw [hhead]
    exact id
  · rw [hhead]

/-- A thread that writes its collector, from one place outside of the lock to another. -/
theorem write_inv (h : Inv w g) {c : CollectorId} {f : Collector → Collector} {pc : Pc}
    (hm : Move w t act ((w.modify c f).goto t pc)) (hl : locking (w.pc t) = false)
    (hl' : locking pc = false) (hna : ∀ c p, pc ≠ .alloc c p)
    (hn : (f (w.collectors c)).nextLink = (w.collectors c).nextLink) :
    Inv ((w.modify c f).goto t pc) g := by
  have hpc : ((w.modify c f).goto t pc).pc t = pc := Function.update_self _ _ _
  refine h.outside hm [] hl ?_ rfl rfl id ?_
  · rw [hpc]
    exact hl'
  exact h.chain_keep hm hpc hna rfl (nextLinks_modify hn) rfl

/-- The same, when the pin of the collector stays. -/
theorem write_step (h : Inv w g) {c : CollectorId} {f : Collector → Collector} {pc : Pc}
    (hm : Move w t act ((w.modify c f).goto t pc)) (hl : locking (w.pc t) = false)
    (hl' : locking pc = false) (hna : ∀ c p, pc ≠ .alloc c p)
    (hn : (f (w.collectors c)).nextLink = (w.collectors c).nextLink)
    (hp : pinned (f (w.collectors c)) = pinned (w.collectors c)) :
    ∃ g', Inv ((w.modify c f).goto t pc) g' ∧
      Pinning.Step Epoch.next P Q (abs w g) (abs ((w.modify c f).goto t pc) g') := by
  exact ⟨g, h.write_inv hm hl hl' hna hn, skip_of_eq (abs_eq rfl (pinned_modify hp) rfl)⟩

/-- `new_guard` publishes the epoch: the collector pins it. -/
theorem publish_step (h : Inv w g) {c : CollectorId} {e : Epoch} {f : Collector → Collector}
    {pc : Pc} (hpc : w.pc t = .newGuard c e) (hm : Move w t act ((w.modify c f).goto t pc))
    (hl' : locking pc = false) (hna : ∀ c p, pc ≠ .alloc c p)
    (hs : (f (w.collectors c)).state = ⟨e, false, false⟩)
    (hn : (f (w.collectors c)).nextLink = (w.collectors c).nextLink)
    (hpin : P (abs w g) e) :
    ∃ g', Inv ((w.modify c f).goto t pc) g' ∧
      Pinning.Step Epoch.next P Q (abs w g) (abs ((w.modify c f).goto t pc) g') := by
  refine ⟨g, h.write_inv hm (by rw [hpc]; rfl) hl' hna hn, ?_⟩
  have hi : (w.collectors c).state.inactive = true := by
    have ho := (h.threads.owns (t := t) (c := c) (by rw [hpc]; rfl)).2.2
    rw [hpc] at ho
    exact ho.2.2
  have hp : pinned (f (w.collectors c)) = some e := by
    simp [pinned, hs]
  rw [abs_modify, hp]
  exact .pin c e (pinned_of_inactive hi) hpin

/-- A scan in progress belongs to the thread that walks. -/
theorem owner_of_scan (h : Inv w g) {sc : Pinning.Scan CollectorId Epoch}
    (hs : g.scan = some sc) :
    ∃ t', walking (w.pc t') = true ∧ w.localCollector t' = some sc.owner := by
  by_contra hn
  have hno : ∀ t', walking (w.pc t') = false := by
    intro t'
    cases hw : walking (w.pc t') with
    | false => rfl
    | true =>
      refine absurd ⟨t', hw, ?_⟩ hn
      have hwalks := h.walks t'
      have howner : own (w.pc t') = some sc.owner := by
        cases hp : w.pc t' <;> rw [hp] at hw hwalks
        case knownEpoch =>
          obtain ⟨sc', rest, hwk, -⟩ := hwalks
          rw [← Option.some.inj (hwk.scan.symm.trans hs), hwk.owner]
          rfl
        case scan | scanNext | unlink =>
          obtain ⟨sc', rest, -, hwk, -⟩ := hwalks
          rw [← Option.some.inj (hwk.scan.symm.trans hs), hwk.owner]
          rfl
        all_goals cases hw
      exact h.threads.local_of_own howner
  cases (h.quiet hno).symm.trans hs

/-- The last store of `end_guard`: the collector unpins. The scan in progress, if there is
one, is that of another thread. -/
theorem setInactive_step (h : Inv w g) {c : CollectorId} {f : Collector → Collector}
    (hpc : w.pc t = .setInactive c) (hm : Move w t act ((w.modify c f).goto t .idle))
    (hs : (f (w.collectors c)).state.inactive = true)
    (hn : (f (w.collectors c)).nextLink = (w.collectors c).nextLink) :
    ∃ g', Inv ((w.modify c f).goto t .idle) g' ∧
      Pinning.Step Epoch.next P Q (abs w g) (abs ((w.modify c f).goto t .idle) g') := by
  refine ⟨g, h.write_inv hm (by rw [hpc]; rfl) rfl (by simp) hn, ?_⟩
  rw [abs_modify, pinned_of_inactive hs]
  refine .unpin c fun sc hsc howner => ?_
  obtain ⟨t', hw, hl⟩ := h.owner_of_scan hsc
  have hl₁ : w.localCollector t = some c := h.threads.local_of_own (by rw [hpc]; rfl)
  have ht : t' = t := by
    refine h.threads.inj t' t c ?_ (h.threads.holds_of_local hl₁)
    exact h.threads.holds_of_local (howner ▸ hl)
  rw [ht, hpc] at hw
  cases hw

/-- The chain is locked: a scan starts. -/
theorem lock_step (h : Inv w g) {c : CollectorId} (hpc : w.pc t = .lockChain c)
    (hf : w.chainHead.tag ≠ .first) (hb : w.chainHead.tag ≠ .both)
    (hm : Move w t act ({ w with chainHead := w.chainHead.withTag .first }.goto t
      (.knownEpoch c w.chainHead.addr))) :
    ∃ g', Inv ({ w with chainHead := w.chainHead.withTag .first }.goto t
        (.knownEpoch c w.chainHead.addr)) g' ∧
      Pinning.Step Epoch.next P Q (abs w g)
        (abs ({ w with chainHead := w.chainHead.withTag .first }.goto t
          (.knownEpoch c w.chainHead.addr)) g') := by
  have hothers : ∀ t', locking (w.pc t') = false := by
    intro t'
    cases hl : locking (w.pc t') with
    | false => rfl
    | true =>
      rcases h.locked t' hl with htag | htag
      · exact absurd htag hf
      · exact absurd htag hb
  have hscan : g.scan = none := by
    refine h.quiet fun t' => ?_
    cases hw : walking (w.pc t') with
    | false => rfl
    | true =>
      have hl := locking_of_walking hw
      rw [hothers t'] at hl
      cases hl
  have hactive : (w.collectors c).state.inactive = false := by
    have ho := (h.threads.owns (t := t) (c := c) (by rw [hpc]; rfl)).2.2
    rw [hpc] at ho
    exact ho.2.2
  refine ⟨⟨g.chain, some ⟨c, (w.collectors c).state.epoch, fun d => (abs w g).pinned d ≠ none⟩⟩,
    ?_, ?_⟩
  · refine h.inside hm (fun t' _ => hothers t') (fun _ => .inl rfl) ?_ ?_ ?_
    · exact h.chain_keep hm (Function.update_self _ _ _) (by simp) rfl (fun _ => rfl) rfl
    · rw [World.goto_pc, Function.update_self]
      refine ⟨_, g.chain, ⟨rfl, rfl, rfl, [], rfl, ?_⟩, h.chain.linked.head_eq, fun d hd => ?_⟩
      · intro p hp
        cases hp
      · exact h.mem_of_pinned hd
    · rw [World.goto_pc, Function.update_self]
      intro hw
      cases hw
  · exact .start c _ hscan (pinned_of_active hactive)

/-- A move of the thread with the lock that only goes to another place. -/
theorem hold_step (h : Inv w g) {pc : Pc} (scan : Option (Pinning.Scan CollectorId Epoch))
    (hl : locking (w.pc t) = true) (hl' : locking pc = true) (hm : Move w t act (w.goto t pc))
    (hwalks : Walks w.collectors ⟨g.chain, scan⟩ pc)
    (hquiet : walking pc = false → scan = none)
    (hstep : Pinning.Step Epoch.next P Q (abs w g) (abs w ⟨g.chain, scan⟩)) :
    ∃ g', Inv (w.goto t pc) g' ∧
      Pinning.Step Epoch.next P Q (abs w g) (abs (w.goto t pc) g') := by
  have hpc : (w.goto t pc).pc t = pc := Function.update_self _ _ _
  refine ⟨⟨g.chain, scan⟩,
    h.inside hm (h.others_of_locking hl) (fun _ => h.locked t hl) ?_ ?_ ?_, hstep⟩
  · refine h.chain_keep hm hpc ?_ rfl (fun _ => rfl) rfl
    rintro c p rfl
    cases hl'
  · rw [hpc]
    exact hwalks
  · rw [hpc]
    exact hquiet

/-- The walk passes over a collector. -/
theorem pass_step (h : Inv w g) {pc : Pc} {sc : Pinning.Scan CollectorId Epoch} (d : CollectorId)
    (hl : locking (w.pc t) = true) (hw : walking pc = true) (hm : Move w t act (w.goto t pc))
    (hs : g.scan = some sc)
    (hd : pinned (w.collectors d) = none ∨ pinned (w.collectors d) = some sc.known)
    (hwalks : Walks w.collectors
      ⟨g.chain, some { sc with pending := fun x => sc.pending x ∧ x ≠ d }⟩ pc) :
    ∃ g', Inv (w.goto t pc) g' ∧
      Pinning.Step Epoch.next P Q (abs w g) (abs (w.goto t pc) g') := by
  refine h.hold_step _ hl (locking_of_walking hw) hm hwalks ?_ (.pass d sc hs hd)
  intro hn
  rw [hw] at hn
  cases hn

/-- The walk goes on behind a collector that it has passed. -/
theorem position_next {chain front rest : List CollectorId} {d : CollectorId}
    (hf : chain = front ++ d :: rest) :
    ∃ f, chain = f ++ rest ∧ ∀ p, some d = some p → ∃ f', f = f' ++ [p] := by
  refine ⟨front ++ [d], ?_, ?_⟩
  · rw [hf, List.append_assoc]
    rfl
  · intro p hp
    cases hp
    exact ⟨front, rfl⟩

/-- The own collector is passed over. -/
theorem scanOwn_step (h : Inv w g) {c : CollectorId} {known : StateByte}
    {prev : Option CollectorId} (hpc : w.pc t = .scan c known prev (some c))
    (hm : Move w t act (w.goto t (.scan c known (some c) (w.collectors c).nextLink))) :
    ∃ g', Inv (w.goto t (.scan c known (some c) (w.collectors c).nextLink)) g' ∧
      Pinning.Step Epoch.next P Q (abs w g)
        (abs (w.goto t (.scan c known (some c) (w.collectors c).nextLink)) g') := by
  have hwalks := h.walks t
  rw [hpc] at hwalks
  obtain ⟨sc, rest, hk, hw, hcur, hpend⟩ := hwalks
  obtain ⟨rest, rfl⟩ : ∃ r, rest = c :: r := by
    cases rest with
    | nil => cases hcur
    | cons x r =>
      cases hcur
      exact ⟨r, rfl⟩
  obtain ⟨front, hf, -⟩ := hw.position
  have hactive : (w.collectors c).state.inactive = false := by
    have ho := (h.threads.owns (t := t) (c := c) (by rw [hpc]; rfl)).2.2
    rw [hpc] at ho
    exact ho.2.2
  refine h.pass_step c (by rw [hpc]; rfl) rfl hm hw.scan ?_ ?_
  · rw [hw.known]
    exact .inr (pinned_of_active hactive)
  · refine ⟨_, rest, hk, ⟨rfl, hw.owner, hw.known, position_next hf⟩, ?_, ?_⟩
    · have hlinked := h.chain.linked
      rw [hf] at hlinked
      exact hlinked.after.head_eq
    · rintro x ⟨hx, hne⟩
      rcases List.mem_cons.mp (hpend x hx) with hxc | hxr
      · exact absurd hxc hne
      · exact hxr

/-- The state byte of another collector is loaded. If it does not stop the scan, the
collector is passed over. -/
theorem scanLoad_step (h : Inv w g) {c d : CollectorId} {known : StateByte}
    {prev : Option CollectorId} (hpc : w.pc t = .scan c known prev (some d))
    (hm : Move w t act (w.goto t (.scanNext c known prev d (w.collectors d).state))) :
    ∃ g', Inv (w.goto t (.scanNext c known prev d (w.collectors d).state)) g' ∧
      Pinning.Step Epoch.next P Q (abs w g)
        (abs (w.goto t (.scanNext c known prev d (w.collectors d).state)) g') := by
  have hwalks := h.walks t
  rw [hpc] at hwalks
  obtain ⟨sc, rest, hk, hw, hcur, hpend⟩ := hwalks
  obtain ⟨rest, rfl⟩ : ∃ r, rest = d :: r := by
    cases rest with
    | nil => cases hcur
    | cons x r =>
      cases hcur
      exact ⟨r, rfl⟩
  have hl : locking (w.pc t) = true := by
    rw [hpc]
    rfl
  by_cases hpass : (w.collectors d).state.invalid = true ∨ (w.collectors d).state.inactive = true ∨
      (w.collectors d).state = known
  · refine h.pass_step d hl rfl hm hw.scan ?_ ?_
    · rcases hpass with hi | hi | hi
      · exact .inl (h.pinned_of_invalid hi)
      · exact .inl (pinned_of_inactive hi)
      · cases ha : (w.collectors d).state.inactive with
        | true => exact .inl (pinned_of_inactive ha)
        | false =>
          refine .inr ?_
          rw [pinned_of_active ha, hw.known, hi, hk]
    · refine ⟨_, rest, hk, ⟨rfl, hw.owner, hw.known, hw.position⟩, id, fun _ => ?_⟩
      rintro x ⟨hx, hne⟩
      rcases List.mem_cons.mp (hpend x hx) with hxd | hxr
      · exact absurd hxd hne
      · exact hxr
  · refine h.hold_step g.scan hl rfl hm ?_ (fun hn => by cases hn) .skip
    exact ⟨sc, rest, hk, hw, id, fun hp => absurd hp hpass⟩

/-- The store to the global epoch at the end of the walk. -/
theorem store_step (h : Inv w g) {c : CollectorId} {known : StateByte}
    {prev : Option CollectorId} (hpc : w.pc t = .scan c known prev none)
    (hm : Move w t act ({ w with epoch := known.epoch.next }.goto t (.unlockChain c)))
    (hstore : ∀ sc, g.scan = some sc → sc.known = known.epoch → Q (abs w g) sc) :
    ∃ g', Inv ({ w with epoch := known.epoch.next }.goto t (.unlockChain c)) g' ∧
      Pinning.Step Epoch.next P Q (abs w g)
        (abs ({ w with epoch := known.epoch.next }.goto t (.unlockChain c)) g') := by
  have hwalks := h.walks t
  rw [hpc] at hwalks
  obtain ⟨sc, rest, hk, hw, hcur, hpend⟩ := hwalks
  -- The walk is at the end of the chain, so that no collector is pending.
  have hrest : rest = [] := List.head?_eq_none_iff.mp hcur.symm
  have hknown : sc.known = known.epoch := by
    rw [hw.known, hk]
  have hl : locking (w.pc t) = true := by
    rw [hpc]
    rfl
  refine ⟨⟨g.chain, none⟩, ?_, ?_⟩
  · refine h.inside hm (h.others_of_locking hl) (fun _ => h.locked t hl) ?_ ?_ (fun _ => rfl)
    · exact h.chain_keep hm (Function.update_self _ _ _) (by simp) rfl (fun _ => rfl) rfl
    · rw [World.goto_pc, Function.update_self]
      trivial
  · have hnone : ∀ x, ¬ sc.pending x := by
      intro x hx
      have hmem := hpend x hx
      rw [hrest] at hmem
      cases hmem
    have hstep : Pinning.Step Epoch.next P Q (abs w g)
        { abs w g with epoch := sc.known.next, scan := none } :=
      .store sc hw.scan hnone (hstore sc hw.scan hknown)
    rw [hknown] at hstep
    exact hstep

/-- An obsolete collector is taken off the head of the chain. -/
theorem unlinkHead_step (h : Inv w g) {c d : CollectorId} {known : StateByte}
    {next : Option CollectorId} (hpc : w.pc t = .unlink c known none d next)
    (hd : w.chainHead.addr = some d)
    (hm : Move w t act (({ w with chainHead := ⟨next, w.chainHead.tag⟩ }.modify c
      (·.collect (.collector d))).goto t (.scan c known none next))) :
    ∃ g', Inv (({ w with chainHead := ⟨next, w.chainHead.tag⟩ }.modify c
        (·.collect (.collector d))).goto t (.scan c known none next)) g' ∧
      Pinning.Step Epoch.next P Q (abs w g)
        (abs (({ w with chainHead := ⟨next, w.chainHead.tag⟩ }.modify c
          (·.collect (.collector d))).goto t (.scan c known none next)) g') := by
  have hwalks := h.walks t
  rw [hpc] at hwalks
  obtain ⟨sc, rest, hk, hw, hnext, hinv, hpend⟩ := hwalks
  obtain ⟨front, hf, -⟩ := hw.position
  have hlinked := h.chain.linked
  have hnodup := h.chain.nodup
  rw [hf] at hlinked hnodup
  -- Nothing was pushed in front of the head, as a node occurs only once.
  obtain rfl : front = [] := by
    cases front with
    | nil => rfl
    | cons x front =>
      have hx : d = x := Option.some.inj (hd.symm.trans hlinked.head_eq)
      subst hx
      exact absurd (List.mem_append_right front List.mem_cons_self) (List.nodup_cons.mp hnodup).1
  have hl : locking (w.pc t) = true := by
    rw [hpc]
    rfl
  have hlinks : ∀ x, nextLinks (({ w with chainHead := ⟨next, w.chainHead.tag⟩ }.modify c
      (·.collect (.collector d))).goto t (.scan c known none next)) x = nextLinks w x :=
    fun x => nextLinks_modify (w := { w with chainHead := ⟨next, w.chainHead.tag⟩ })
      (f := (·.collect (.collector d))) rfl x
  have hcore : ∀ x, core (({ w with chainHead := ⟨next, w.chainHead.tag⟩ }.modify c
      (·.collect (.collector d))).collectors x) = core (w.collectors x) :=
    fun x => core_modify (w := { w with chainHead := ⟨next, w.chainHead.tag⟩ })
      (f := (·.collect (.collector d))) c x rfl
  have hstate : _ = (w.collectors c).state := congrArg Prod.fst (hcore c)
  refine ⟨⟨rest, g.scan⟩, h.inside hm (h.others_of_locking hl) (fun _ => h.locked t hl) ?_ ?_ ?_,
    ?_⟩
  · refine h.chain.shrink hm ?_ ?_ ?_ rfl ?_
    · have hafter : Linked (nextLinks w) next rest := by
        have hrest := List.nil_append (d :: rest) ▸ hlinked
        rw [hnext, ← hrest.2.head_eq]
        exact hrest.2
      exact hafter.congr fun x _ => hlinks x
    · rw [hf]
      exact List.sublist_cons_self d rest
    · intro t' x hx hmem
      rw [hf] at hmem
      rcases List.mem_cons.mp hmem with rfl | hxr
      · have hv := (h.threads.registered t' x hx).1
        rw [hinv] at hv
        cases hv
      · exact hxr
    · intro x p hp
      rw [World.goto_pc, Function.update_self] at hp
      cases hp
  · rw [World.goto_pc, Function.update_self]
    refine ⟨sc, rest, hk.trans hstate.symm, ⟨hw.scan, hw.owner, ?_, [], rfl, ?_⟩, hnext, hpend⟩
    · exact hw.known.trans (congrArg StateByte.epoch hstate.symm)
    · intro p hp
      cases hp
  · rw [World.goto_pc, Function.update_self]
    intro hn
    cases hn
  · exact skip_of_eq (abs_eq rfl (fun x => pinned_congr (hcore x)) rfl)

/-- An obsolete collector is taken out of the middle of the chain. -/
theorem unlinkMid_step (h : Inv w g) {c d p : CollectorId} {known : StateByte}
    {next : Option CollectorId} (hpc : w.pc t = .unlink c known (some p) d next)
    (hm : Move w t act (((w.modify p fun k => { k with nextLink := next }).modify c
      (·.collect (.collector d))).goto t (.scan c known (some p) next))) :
    ∃ g', Inv (((w.modify p fun k => { k with nextLink := next }).modify c
        (·.collect (.collector d))).goto t (.scan c known (some p) next)) g' ∧
      Pinning.Step Epoch.next P Q (abs w g)
        (abs (((w.modify p fun k => { k with nextLink := next }).modify c
          (·.collect (.collector d))).goto t (.scan c known (some p) next)) g') := by
  have hwalks := h.walks t
  rw [hpc] at hwalks
  obtain ⟨sc, rest, hk, hw, hnext, hinv, hpend⟩ := hwalks
  obtain ⟨front, hf, hprev⟩ := hw.position
  obtain ⟨f, rfl⟩ := hprev p rfl
  -- The collector `d` is behind `p`, and the rest of the chain is behind `d`.
  have hchain : g.chain = f ++ p :: ([d] ++ rest) := by
    rw [hf, List.append_assoc]
    rfl
  have hlinked := h.chain.linked
  have hnodup := h.chain.nodup
  rw [hchain] at hlinked hnodup
  have hl : locking (w.pc t) = true := by
    rw [hpc]
    rfl
  -- Only the link of `p` changes.
  have hlinks : ∀ x, nextLinks (((w.modify p fun k => { k with nextLink := next }).modify c
      (·.collect (.collector d))).goto t (.scan c known (some p) next)) x
      = Function.update (nextLinks w) p next x := by
    intro x
    refine (nextLinks_modify (w := w.modify p fun k => { k with nextLink := next })
      (f := (·.collect (.collector d))) rfl x).trans ?_
    unfold nextLinks
    rw [World.modify_collectors]
    by_cases hx : x = p
    · subst hx
      rw [Function.update_self, Function.update_self]
    · rw [Function.update_of_ne hx, Function.update_of_ne hx]
  -- The announcements stay: the two writes are to links and lists.
  have hcore : ∀ x, core (((w.modify p fun k => { k with nextLink := next }).modify c
      (·.collect (.collector d))).collectors x) = core (w.collectors x) := by
    intro x
    have hp : core ((w.modify p fun k => { k with nextLink := next }).collectors x)
        = core (w.collectors x) := core_modify p x rfl
    exact (core_modify (f := (·.collect (.collector d))) c x rfl).trans hp
  have hstate : _ = (w.collectors c).state := congrArg Prod.fst (hcore c)
  refine ⟨⟨f ++ p :: rest, g.scan⟩,
    h.inside hm (h.others_of_locking hl) (fun _ => h.locked t hl) ?_ ?_ ?_, ?_⟩
  -- The chain is linked without `d`, and `d` is nobody's collector.
  · refine h.chain.shrink hm ?_ ?_ ?_ rfl ?_
    · have hrest : Linked (nextLinks w) next rest := by
        have hd : Linked (nextLinks w) (nextLinks w d) rest := (hlinked.after (a := p)).2
        rw [hnext, ← hd.head_eq]
        exact hd
      exact (hlinked.splice hnodup hrest).congr fun x _ => hlinks x
    · rw [hchain]
      exact (List.Sublist.refl f).append ((List.sublist_cons_self d rest).cons_cons p)
    · intro t' x hx hmem
      have hxd : x ≠ d := by
        rintro rfl
        have hv := (h.threads.registered t' x hx).1
        rw [hinv] at hv
        cases hv
      rw [hchain] at hmem
      simpa [hxd] using hmem
    · intro x q hp
      rw [World.goto_pc, Function.update_self] at hp
      cases hp
  · rw [World.goto_pc, Function.update_self]
    refine ⟨sc, rest, hk.trans hstate.symm, ⟨hw.scan, hw.owner, ?_, position_next rfl⟩, hnext,
      hpend⟩
    exact hw.known.trans (congrArg StateByte.epoch hstate.symm)
  · rw [World.goto_pc, Function.update_self]
    intro hn
    cases hn
  · exact skip_of_eq (abs_eq rfl (fun x => pinned_congr (hcore x)) rfl)

/-- The chain is unlocked. -/
theorem unlock_step (h : Inv w g) {c : CollectorId} (hpc : w.pc t = .unlockChain c)
    (hm : Move w t act (w.unlockChain.scanned t c)) :
    ∃ g', Inv (w.unlockChain.scanned t c) g' ∧
      Pinning.Step Epoch.next P Q (abs w g) (abs (w.unlockChain.scanned t c) g') := by
  have hl : locking (w.pc t) = true := by
    rw [hpc]
    rfl
  have hpc' : (w.unlockChain.scanned t c).pc t = .setInactive c := Function.update_self _ _ _
  refine ⟨g, h.inside hm (h.others_of_locking hl) ?_ ?_ ?_ (fun _ => ?_), ?_⟩
  · rw [hpc']
    intro hn
    cases hn
  · exact h.chain_keep hm hpc' (by simp) rfl (nextLinks_scanned w.unlockChain t c) rfl
  · rw [hpc']
    trivial
  · refine h.quiet fun t' => ?_
    by_cases ht : t' = t
    · rw [ht, hpc]
      rfl
    · cases hw : walking (w.pc t') with
      | false => rfl
      | true => exact absurd (h.unique t' t (locking_of_walking hw) hl) ht
  · exact skip_of_eq (abs_eq rfl (pinned_scanned w.unlockChain t c) rfl)

/-- A new collector is pushed to the head of the chain. -/
theorem allocDone_step (h : Inv w g) {c : CollectorId} (hpc : w.pc t = .alloc c w.chainHead)
    (hm : Move w t act ({ w.modify c fun k => { k with nextLink := w.chainHead.addr } with
      chainHead := ⟨some c, w.chainHead.tag⟩
      localCollector := Function.update w.localCollector t (some c) }.goto t .idle)) :
    ∃ g', Inv ({ w.modify c fun k => { k with nextLink := w.chainHead.addr } with
        chainHead := ⟨some c, w.chainHead.tag⟩
        localCollector := Function.update w.localCollector t (some c) }.goto t .idle) g' ∧
      Pinning.Step Epoch.next P Q (abs w g)
        (abs ({ w.modify c fun k => { k with nextLink := w.chainHead.addr } with
          chainHead := ⟨some c, w.chainHead.tag⟩
          localCollector := Function.update w.localCollector t (some c) }.goto t .idle) g') := by
  have hnot : c ∉ g.chain := h.chain.preparing t c _ hpc
  have hl : locking (w.pc t) = false := by
    rw [hpc]
    rfl
  -- The new collector comes first, and nobody looks at it yet.
  refine ⟨⟨c :: g.chain, g.scan⟩, h.outside hm [c] hl ?_ rfl rfl id ?_,
    skip_of_eq (abs_eq rfl (pinned_modify (f := fun k => { k with nextLink := w.chainHead.addr })
      rfl) rfl)⟩
  · rw [World.goto_pc, Function.update_self]
    rfl
  -- The parts of the invariant of the chain: links, no duplicates, the collectors of the threads,
  -- and the ones that exist or are prepared.
  refine ⟨⟨rfl, ?_⟩, List.nodup_cons.mpr ⟨hnot, h.chain.nodup⟩, ?_, ?_, ?_⟩
  · have hc : nextLinks ((w.modify c fun k => { k with nextLink := w.chainHead.addr })) c
        = w.chainHead.addr := by
      unfold nextLinks
      rw [World.modify_collectors, Function.update_self]
    show Linked (nextLinks (w.modify c fun k => { k with nextLink := w.chainHead.addr }))
      (nextLinks (w.modify c fun k => { k with nextLink := w.chainHead.addr }) c) g.chain
    rw [hc]
    exact h.chain.linked.congr (nextLinks_modify_of_notMem _ hnot)
  · intro t' d hd
    by_cases ht : t' = t
    · subst ht
      have hcd : c = d := by simpa using hd
      rw [hcd]
      exact List.mem_cons_self
    · rw [hm.localCollector_of_ne ht] at hd
      exact List.mem_cons_of_mem c (h.chain.mem t' d hd)
  · intro d hd
    rcases List.mem_cons.mp hd with rfl | hd
    · exact h.threads.fresh t d (Owning.holds_of_alloc hpc)
    · exact h.chain.fresh d hd
  · intro t' d p hp hd
    by_cases ht : t' = t
    · subst ht
      rw [World.goto_pc, Function.update_self] at hp
      cases hp
    · rw [hm.pc_of_ne ht] at hp
      rcases List.mem_cons.mp hd with rfl | hd
      · exact ht (h.threads.inj t' t d (Owning.holds_of_alloc hp) (Owning.holds_of_alloc hpc))
      · exact h.chain.preparing t' d p hp hd

/-- The allocation of a collector, up to the load of the head of the chain. -/
theorem allocBegin_step (h : Inv w g) (hpc : w.pc t = .idle) (hl : w.localCollector t = none)
    (hm : Move w t act ({ w with
      collectors := Function.update w.collectors w.nextCollector .new
      nextCollector := w.nextCollector + 1 }.goto t (.alloc w.nextCollector w.chainHead))) :
    ∃ g', Inv ({ w with
        collectors := Function.update w.collectors w.nextCollector .new
        nextCollector := w.nextCollector + 1 }.goto t (.alloc w.nextCollector w.chainHead)) g' ∧
      Pinning.Step Epoch.next P Q (abs w g) (abs ({ w with
        collectors := Function.update w.collectors w.nextCollector .new
        nextCollector := w.nextCollector + 1 }.goto t (.alloc w.nextCollector w.chainHead)) g') := by
  have hfresh : w.nextCollector ∉ g.chain := fun hc => Nat.lt_irrefl _ (h.chain.fresh _ hc)
  refine h.quiet_step hm (by rw [hpc]; rfl) ?_ id (h.chain.keep hm rfl ?_ ?_ ?_) rfl ?_
  · rw [World.goto_pc, Function.update_self]
    rfl
  · intro d hd
    have hne : d ≠ w.nextCollector := by
      rintro rfl
      exact hfresh hd
    show (Function.update w.collectors w.nextCollector .new d).nextLink = _
    rw [Function.update_of_ne hne]
    rfl
  · intro c hc
    cases hl.symm.trans hc
  · intro c p hp
    rw [World.goto_pc, Function.update_self] at hp
    cases hp
    exact hfresh
  · intro d
    show pinned (Function.update w.collectors w.nextCollector .new d) = _
    by_cases hd : d = w.nextCollector
    · subst hd
      rw [Function.update_self]
      -- Nobody had the number before.
      have hi : (w.collectors w.nextCollector).state.inactive = true := by
        cases hi : (w.collectors w.nextCollector).state.inactive with
        | true => rfl
        | false =>
          obtain ⟨t', hl'⟩ := h.threads.active _ hi
          have hlt := h.threads.fresh t' _ (h.threads.holds_of_local hl')
          exact absurd hlt (Nat.lt_irrefl _)
      rw [pinned_of_inactive hi]
      rfl
    · rw [Function.update_of_ne hd]

/-- Every move of the model is a step of the protocol. -/
theorem step (h : Inv w g) (hm : Move w t act w')
    (hpin : ∀ c e, w.pc t = .newGuard c e → P (abs w g) e)
    (hstore : ∀ c known prev sc, w.pc t = .scan c known prev none → g.scan = some sc →
      sc.known = known.epoch → Q (abs w g) sc) :
    ∃ g', Inv w' g' ∧ Pinning.Step Epoch.next P Q (abs w g) (abs w' g') := by
  have hmove := hm
  have huser : ∀ c, w.user t = some c → locking (w.pc t) = false ∧ ∀ d p, w.pc t ≠ .alloc d p := by
    intro c hu
    rcases Owning.user_cases hu with ⟨hpc, -⟩ | ⟨rest, hpc⟩ <;> rw [hpc] <;> simp [locking, walking]
  have hkeep : ∀ pc, w.pc t = pc → walking pc = true → ∀ pc', locking pc' = true →
      walking pc' = true → Move w t act (w.goto t pc') → Walks w.collectors g pc' →
      ∃ g', Inv (w.goto t pc') g' ∧
        Pinning.Step Epoch.next P Q (abs w g) (abs (w.goto t pc') g') := by
    intro pc hpc hw pc' hl' hw' hm' hwalks
    refine h.hold_step g.scan (by rw [hpc]; exact locking_of_walking hw) hl' hm' hwalks
      (fun hn => ?_) .skip
    rw [hw'] at hn
    cases hn
  have hwalks := h.walks t
  -- Only a thread with the lock walks, and its other steps keep what the walk knows.
  cases hm with
  | allocBegin hpc hl => exact h.allocBegin_step hpc hl hmove
  | allocRetry c p hpc =>
    have hnot := h.chain.preparing t c p hpc
    refine h.quiet_step hmove (by rw [hpc]; rfl) ?_ id (h.chain.keep hmove rfl ?_ ?_ ?_) rfl ?_
    · rw [World.goto_pc, Function.update_self]
      rfl
    · exact nextLinks_modify_of_notMem (fun k => { k with nextLink := p.addr }) hnot
    · exact h.chain.mem t
    · intro d q hp
      rw [World.goto_pc, Function.update_self] at hp
      cases hp
      exact hnot
    · exact pinned_modify (f := fun k => { k with nextLink := p.addr }) rfl
  | allocDone c p hpc hp =>
    subst hp
    exact h.allocDone_step hpc hmove
  | load c hu hn => exact h.write_step hmove (huser c hu).1 rfl (by simp) rfl rfl
  | publishSame c e hpc ha =>
    exact h.publish_step hpc hmove rfl (by simp) rfl rfl (hpin c e hpc)
  | publishQuiet c e hpc ha hg =>
    exact h.publish_step hpc hmove rfl (by simp) rfl rfl (hpin c e hpc)
  | publishRotate c e hpc ha hg =>
    exact h.publish_step hpc hmove rfl (by simp) rfl rfl (hpin c e hpc)
  | drainDone c hpc => exact h.write_step hmove (by rw [hpc]; rfl) rfl (by simp) rfl rfl
  | drainInst c i rest hpc =>
    exact h.local_step hmove (by rw [hpc]; rfl) (Function.update_self _ _ _) rfl (by simp) rfl
      (fun _ => rfl) rfl rfl fun _ => rfl
  | drainCollector c d rest hpc =>
    exact h.write_step hmove (by rw [hpc]; rfl) rfl (by simp) rfl rfl
  | destructor c rest hpc =>
    exact h.local_step hmove (by rw [hpc]; rfl) (Function.update_self _ _ _) rfl (by simp) rfl
      (fun _ => rfl) rfl rfl fun _ => rfl
  | user c f hu hn hf hk =>
    obtain ⟨hl, hna⟩ := huser c hu
    refine h.local_step hmove hl rfl hl hna rfl (nextLinks_modify ?_) rfl rfl (pinned_modify ?_)
    · rw [hk]
    · rw [hk]
      rfl
  | endScan c hpc hl hn => exact h.write_step hmove (by rw [hpc]; rfl) rfl (by simp) rfl rfl
  | endQuiet c u hpc hl hn => exact h.write_step hmove (by rw [hpc]; rfl) rfl (by simp) rfl rfl
  | lockFail c hpc => exact h.write_step hmove (by rw [hpc]; rfl) rfl (by simp) rfl rfl
  | lock c hpc hf hb => exact h.lock_step hpc hf hb hmove
  | knownEpoch c current hpc =>
    rw [hpc] at hwalks
    obtain ⟨sc, rest, hw⟩ := hwalks
    exact hkeep _ hpc rfl _ rfl rfl hmove ⟨sc, rest, rfl, hw⟩
  | store c known prev hpc =>
    exact h.store_step hpc hmove fun sc => hstore c known prev sc hpc
  | scanOwn c known prev hpc => exact h.scanOwn_step hpc hmove
  | scanLoad c known prev d hpc hd => exact h.scanLoad_step hpc hmove
  -- The collector is obsolete: it is looked at, and taken out of the chain next.
  | nextInvalid c known prev d state hpc hi =>
    rw [hpc] at hwalks
    obtain ⟨sc, rest, hk, hw, hinv, hpend⟩ := hwalks
    obtain ⟨front, hf, -⟩ := hw.position
    refine hkeep _ hpc rfl _ rfl rfl hmove ⟨sc, rest, hk, hw, ?_, hinv hi, hpend (.inl hi)⟩
    have hlinked := h.chain.linked
    rw [hf] at hlinked
    exact hlinked.after.head_eq
  -- A reader in another epoch: the walk gives up.
  | nextBreak c known prev d state hpc =>
    refine h.hold_step none (by rw [hpc]; rfl) rfl hmove trivial (fun _ => rfl) ?_
    exact .abort
  -- The collector is passed, and the walk goes on behind it.
  | nextPass c known prev d state hpc hi hk =>
    rw [hpc] at hwalks
    obtain ⟨sc, rest, hkn, hw, hinv, hpend⟩ := hwalks
    obtain ⟨front, hf, -⟩ := hw.position
    refine hkeep _ hpc rfl _ rfl rfl hmove ⟨sc, rest, hkn,
      ⟨hw.scan, hw.owner, hw.known, position_next hf⟩, ?_, hpend (.inr hk)⟩
    have hlinked := h.chain.linked
    rw [hf] at hlinked
    exact hlinked.after.head_eq
  | unlinkHead c known d next hpc hd => exact h.unlinkHead_step hpc hd hmove
  | unlinkFail c known d next hpc hd =>
    rw [hpc] at hwalks
    obtain ⟨sc, rest, hkn, hw, hnext, hinv, hpend⟩ := hwalks
    obtain ⟨front, hf, -⟩ := hw.position
    exact hkeep _ hpc rfl _ rfl rfl hmove ⟨sc, rest, hkn,
      ⟨hw.scan, hw.owner, hw.known, position_next hf⟩, hnext, hpend⟩
  | unlinkMid c known p d next hpc => exact h.unlinkMid_step hpc hmove
  | unlock c hpc => exact h.unlock_step hpc hmove
  | setInactive c hpc => exact h.setInactive_step hpc hmove rfl rfl
  | markScanEnforced tag hpc hf hb =>
    refine h.quiet_step hmove (by rw [hpc]; rfl) ?_ ?_ ?_ rfl fun _ => rfl
    · rw [World.goto_pc, Function.update_self]
      rfl
    · rintro (htag | htag)
      · exact .inr (hf htag)
      · exact .inr (hb htag)
    · exact h.chain_keep hmove (Function.update_self _ _ _) (by simp) rfl (fun _ => rfl) rfl
  | collect c hu =>
    obtain ⟨hl, hna⟩ := huser c hu
    exact h.local_step hmove hl rfl hl hna rfl
      (nextLinks_modify (f := (·.collect (.inst w.nextInst))) rfl) rfl rfl
      (pinned_modify (f := (·.collect (.inst w.nextInst))) rfl)
  | suspendNone => exact ⟨g, h, .skip⟩
  | suspend c hu hn =>
    -- The collector is inactive when it becomes obsolete, so that no window ends.
    have hi := (h.threads.user_quiet hu hn).2
    have hnone : Function.update w.localCollector t none t = none := Function.update_self _ _ _
    refine h.quiet_step hmove (huser c hu).1 ?_ id (h.chain.keep hmove rfl ?_ ?_ ?_) rfl ?_
    · rw [World.goto_pc, Function.update_self]
      rfl
    · intro d _
      exact nextLinks_modify (f := fun k => { k with state := { k.state with invalid := true } })
        rfl d
    · intro d hd
      cases hnone.symm.trans hd
    · intro d p hp
      rw [World.goto_pc, Function.update_self] at hp
      cases hp
    · intro d
      refine pinned_modify (f := fun k => { k with state := { k.state with invalid := true } })
        ?_ d
      rw [pinned_of_inactive hi]
      exact pinned_of_inactive hi

end Step

end Inv

end Sdd.Proofs
