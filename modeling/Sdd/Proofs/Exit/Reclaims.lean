import Sdd.Proofs.Exit.Requests
import Sdd.Proofs.Exit.SoloScan

/-!
# `Sdd.Proofs.Exit.Reclaims`: what is retired is dropped

The thread `t` creates and ends one guard after the other, and the other threads stand still,
without a guard of their own. Each cycle brings what is retired closer to its end: the count
`next_epoch_update` goes down, a scan moves the epoch on and takes the obsolete collectors out of
the chain, and the next guard rotates the lists and drops the oldest one. `waits` bounds the number
of cycles that are left, and `reclaims` is the principal result: after 196 cycles everything that
was on the own lists, or on those of an obsolete collector in the chain, was dropped.
-/

set_option autoImplicit false

namespace Sdd.Proofs.Exit

open Sdd.Collector Sdd.Lib

variable {w w₁ w' : Process} {t : Tid} {c d : CollectorId} {l l' : List CollectorId} {i : InstId}
  {n r : Nat}

/-! ## The states between the cycles -/

/-- Nobody disturbs the thread: `l` is the chain, which is not locked, and the other collectors in
it are inactive or obsolete. If one is obsolete, a scan is requested. -/
structure Undisturbed (t : Tid) (c : CollectorId) (l : List CollectorId) (w : Process) : Prop where
  live : Live t c w
  pc : w.base.pc t = .idle
  linked : Linked (nextLinks w.base) w.base.chainHead.addr l
  unlocked : w.base.chainHead.tag = .none ∨ w.base.chainHead.tag = .second
  inactive : ∀ d ∈ l, d ≠ c → Invalid w.base d ∨ (w.base.collectors d).state.inactive = true
  marked : ∀ d ∈ l, Invalid w.base d → w.base.chainHead.tag = .second

/-- The thread has no guard. -/
structure Resting (t : Tid) (c : CollectorId) (l : List CollectorId) (w : Process) : Prop
    extends Undisturbed t c l w where
  readers : (w.base.collectors c).numReaders = 0

/-- The thread has one guard, which has seen the epoch. -/
structure Guarding (t : Tid) (c : CollectorId) (l : List CollectorId) (w : Process) : Prop
    extends Undisturbed t c l w where
  readers : (w.base.collectors c).numReaders = 1
  state : (w.base.collectors c).state.epoch = w.base.epoch
  announcement : (w.base.collectors c).announcement = w.base.epoch

/-- The own collector alone changes, and not its link. -/
theorem Undisturbed.keep (h : Undisturbed t c l w) (hlive : Live t c w')
    (hpc : w'.base.pc t = .idle) (hhead : w'.base.chainHead = w.base.chainHead)
    (hlinks : ∀ d, nextLinks w'.base d = nextLinks w.base d)
    (hstate : ∀ d, d ≠ c → (w'.base.collectors d).state = (w.base.collectors d).state) :
    Undisturbed t c l w' where
  live := hlive
  pc := hpc
  linked := by
    rw [hhead]
    exact h.linked.congr fun d _ => hlinks d
  unlocked := by
    rw [hhead]
    exact h.unlocked
  inactive d hd hne := by
    unfold Invalid
    rw [hstate d hne]
    exact h.inactive d hd hne
  -- The own collector is not INVALID, so a mark is on account of another one.
  marked d hd hi := by
    have hne : d ≠ c := by
      rintro rfl
      exact hlive.valid hi
    rw [hhead]
    refine h.marked d hd ?_
    unfold Invalid at hi
    rwa [hstate d hne] at hi

/-- No collector is in the chain twice. -/
theorem Undisturbed.nodup (h : Undisturbed t c l w) : l.Nodup := by
  obtain ⟨g, hg⟩ := inv_of_run h.live.run
  rw [h.linked.unique hg.chain.linked]
  exact (List.nodup_append.mp hg.chain.nodup).1

/-! ## Writes to the own collector -/

section write

variable {b b' : World} {k : Collector}

theorem own_of_write (h : b'.collectors = Function.update b.collectors c k) :
    b'.collectors c = k := by
  rw [h, Function.update_self]

theorem of_ne_of_write (h : b'.collectors = Function.update b.collectors c k) (hd : d ≠ c) :
    b'.collectors d = b.collectors d := by
  rw [h, Function.update_of_ne hd]

/-- The links, when the own one is as before. -/
theorem links_of_write (h : b'.collectors = Function.update b.collectors c k)
    (hk : k.nextLink = (b.collectors c).nextLink) (d : CollectorId) :
    nextLinks b' d = nextLinks b d := by
  by_cases hd : d = c
  · subst hd
    exact (congrArg (·.nextLink) (own_of_write h)).trans hk
  · exact congrArg (·.nextLink) (of_ne_of_write h hd)

theorem others_of_write (h : b'.collectors = Function.update b.collectors c k) :
    others b' c = others b c := by
  funext d
  by_cases hd : d = c
  · subst hd
    unfold others
    rw [Function.update_self, Function.update_self]
  · rw [others_of_ne hd, others_of_ne hd, of_ne_of_write h hd]

end write

/-! ## What is still to be dropped -/

/-- The lists of garbage, the one that is dropped first in front; the last one has the obsolete
collectors in the chain. -/
def queued (b : World) (c : CollectorId) (l : List CollectorId) : Nat → List Garbage
  | 1 => (b.collectors c).nextInstanceLink
  | 2 => (b.collectors c).previousInstanceLink
  | 3 => (b.collectors c).currentInstanceLink
  | 4 => (l.filter fun d => (b.collectors d).state.invalid).map .collector
  | _ => []

/-- How many cycles it takes until what is on the list `r` was dropped. -/
def waits (b : World) (c : CollectorId) (r : Nat) : Nat :=
  if (b.collectors c).announcement = b.epoch then
    (b.collectors c).nextEpochUpdate + 2 + 65 * (min r 3 - 1)
  else
    1 + 65 * (r - 1)

/-- The instance is dropped in `n` cycles. -/
def Due (c : CollectorId) (l : List CollectorId) (n : Nat) (w : Process) (i : InstId) : Prop :=
  ∃ r, Inside (others w.base c) (queued w.base c l r) (.inst i) ∧ waits w.base c r ≤ n

theorem not_due_zero : ¬Due c l 0 w i := by
  rintro ⟨r, -, hw⟩
  unfold waits at hw
  split at hw <;> omega

/-- An instance is on one of the four lists. -/
theorem rank_cases (h : Inside (others w.base c) (queued w.base c l r) (.inst i)) :
    r = 1 ∨ r = 2 ∨ r = 3 ∨ r = 4 := by
  match r with
  | 1 | 2 | 3 | 4 => simp
  | 0 | _ + 5 => exact absurd h not_inside_nil

/-- The obsolete collectors in the chain are the same if the states of the others are. -/
theorem queued_obsolete (h : Live t c w) (h' : Live t c w')
    (hstate : ∀ d, d ≠ c → (w'.base.collectors d).state = (w.base.collectors d).state) :
    queued w'.base c l 4 = queued w.base c l 4 := by
  show List.map _ _ = List.map _ _
  congr 1
  refine List.filter_congr fun d _ => ?_
  by_cases hd : d = c
  · subst hd
    rw [Bool.eq_false_iff.mpr h.valid, Bool.eq_false_iff.mpr h'.valid]
  · rw [hstate d hd]

/-- The lists are the same if the own ones are, and the states of the others. -/
theorem queued_congr (h : Live t c w) (h' : Live t c w')
    (hstate : ∀ d, d ≠ c → (w'.base.collectors d).state = (w.base.collectors d).state)
    (hnext : (w'.base.collectors c).nextInstanceLink = (w.base.collectors c).nextInstanceLink)
    (hprevious : (w'.base.collectors c).previousInstanceLink =
      (w.base.collectors c).previousInstanceLink)
    (hcurrent : (w'.base.collectors c).currentInstanceLink =
      (w.base.collectors c).currentInstanceLink) (r : Nat) :
    queued w'.base c l r = queued w.base c l r := by
  match r with
  | 1 => exact hnext
  | 2 => exact hprevious
  | 3 => exact hcurrent
  | 4 => exact queued_obsolete h h' hstate
  | 0 | _ + 5 => rfl

/-- What is due stays due if the lists are the same. -/
theorem Due.keep (h : Due c l n w i) (hothers : others w'.base c = others w.base c)
    (hq : ∀ r, queued w'.base c l r = queued w.base c l r)
    (hw : ∀ r, waits w'.base c r ≤ waits w.base c r) : Due c l n w' i := by
  obtain ⟨r, hr, hn⟩ := h
  refine ⟨r, ?_, Nat.le_trans (hw r) hn⟩
  rwa [hothers, hq]

/-! ## A guard is created -/

/-- What `new_guard` does after the epoch was loaded. -/
theorem publish_cases (b : World) (t : Tid) (c : CollectorId) (e : Epoch) :
    ((b.collectors c).announcement = e ∧ b.publish t c e =
      (b.modify c fun k => { k with state := ⟨e, false, false⟩ }).goto t .idle) ∨
    ((b.collectors c).announcement ≠ e ∧ (b.collectors c).hasGarbage = false ∧ b.publish t c e =
      (b.modify c fun k => { k with
        state := ⟨e, false, false⟩, announcement := e
        nextEpochUpdate := Collector.CADENCE }).goto t .idle) ∨
    ((b.collectors c).announcement ≠ e ∧ (b.collectors c).hasGarbage = true ∧ b.publish t c e =
      (b.modify c fun k =>
        { k with state := ⟨e, false, false⟩, announcement := e }.rotate).goto t
          (.drain c (b.collectors c).nextInstanceLink)) := by
  by_cases ha : (b.collectors c).announcement = e
  · refine .inl ⟨ha, ?_⟩
    simp [World.publish, ha]
  · cases hg : (b.collectors c).hasGarbage with
    | false =>
      refine .inr (.inl ⟨ha, rfl, ?_⟩)
      simp [World.publish, ha, hg, World.modify]
    | true =>
      refine .inr (.inr ⟨ha, rfl, ?_⟩)
      simp [World.publish, ha, hg, World.modify]

/-- The thread creates a guard. -/
def Begins (t : Tid) (w w' : Process) : Prop :=
  ∃ x, w.step ⟨t, .base .newGuard⟩ = some x ∧ Solo t x w'

/-- The thread has loaded and published the epoch, and its collector is `k` now. -/
structure Published (t : Tid) (c : CollectorId) (k : Collector) (pc : Pc) (w w' : Process) :
    Prop where
  begins : Begins t w w'
  live : Live t c w'
  pc : w'.base.pc t = pc
  collectors : w'.base.collectors = Function.update w.base.collectors c k
  epoch : w'.base.epoch = w.base.epoch
  chainHead : w'.base.chainHead = w.base.chainHead
  dropped : w'.base.dropped = w.base.dropped

/-- `new_guard` up to the drop of the oldest list. The thread has a new epoch to announce or not,
and garbage or not. -/
theorem Resting.published (h : Resting t c l w) {k : Collector} (hk : k =
      { w.base.collectors c with numReaders := 1, state := ⟨w.base.epoch, false, false⟩ }) :
    ((w.base.collectors c).announcement = w.base.epoch ∧ ∃ y, Published t c k .idle w y) ∨
    ((w.base.collectors c).announcement ≠ w.base.epoch ∧
      (w.base.collectors c).hasGarbage = false ∧ ∃ y, Published t c { k with
        announcement := w.base.epoch, nextEpochUpdate := Collector.CADENCE } .idle w y) ∨
    ((w.base.collectors c).announcement ≠ w.base.epoch ∧
      (w.base.collectors c).hasGarbage = true ∧ ∃ y, Published t c
        { k with announcement := w.base.epoch }.rotate
          (.drain c (w.base.collectors c).nextInstanceLink) w y) := by
  have hs : w.base.step ⟨t, .newGuard⟩ = some ((w.base.modify c fun k =>
      { k with numReaders := 1 }).goto t (.newGuard c w.base.epoch)) := by
    simp only [World.step, World.user, h.pc, h.live.own, Option.bind_some, World.newGuard,
      h.readers, if_true]
  have hlive := h.live.next hs rfl
  generalize hx : (w.base.modify c fun k => { k with numReaders := 1 }).goto t
    (.newGuard c w.base.epoch) = x at hs hlive
  have hpc : x.pc t = .newGuard c w.base.epoch := by
    rw [← hx]
    exact Function.update_self _ _ _
  have hown : x.collectors c = { w.base.collectors c with numReaders := 1 } := by
    rw [← hx]
    exact Function.update_self _ _ _
  have hsx : x.step ⟨t, .proceed⟩ = some (x.publish t c w.base.epoch) := by
    simp only [World.step, World.proceed, hpc]
  -- Each case writes the own collector only.
  have hdone : ∀ (f : Collector → Collector) (pc : Pc),
      x.publish t c w.base.epoch = (x.modify c f).goto t pc →
        ∃ y, Published t c (f { w.base.collectors c with numReaders := 1 }) pc w y := by
    intro f pc hp
    rw [hp] at hsx
    refine ⟨_, ⟨_, step_live h.live.stage hs, .tail _ .refl rfl (step_live hlive.stage hsx)⟩,
      hlive.next hsx rfl, Function.update_self _ _ _, ?_, ?_, ?_, ?_⟩
    · show Function.update x.collectors c (f (x.collectors c)) = _
      rw [hown, ← hx]
      exact Function.update_idem _ _ _
    · show x.epoch = _
      rw [← hx]
      rfl
    · show x.chainHead = _
      rw [← hx]
      rfl
    · show x.dropped = _
      rw [← hx]
      rfl
  subst hk
  rcases publish_cases x t c w.base.epoch with ⟨ha, hp⟩ | ⟨ha, hg, hp⟩ | ⟨ha, hg, hp⟩
  · rw [hown] at ha
    exact .inl ⟨ha, hdone _ _ hp⟩
  · rw [hown] at ha hg
    exact .inr (.inl ⟨ha, hg, hdone _ _ hp⟩)
  · rw [hown] at ha hg hp
    exact .inr (.inr ⟨ha, hg, hdone _ _ hp⟩)

/-- What the creation of a guard does to what is to be dropped. -/
structure Begun (t : Tid) (c : CollectorId) (l : List CollectorId) (w w' : Process) : Prop where
  begins : Begins t w w'
  guarding : Guarding t c l w'
  dropped : ∀ i ∈ w.base.dropped, i ∈ w'.base.dropped
  due : ∀ i n, Due c l n w i → i ∈ w'.base.dropped ∨ Due c l n w' i

/-- The guard has seen the epoch. -/
theorem Undisturbed.guarding (h : Undisturbed t c l w) {k : Collector}
    (hk : w.base.collectors c = k) (hr : k.numReaders = 1) (hs : k.state.epoch = w.base.epoch)
    (ha : k.announcement = w.base.epoch) : Guarding t c l w where
  toUndisturbed := h
  readers := hk ▸ hr
  state := hk ▸ hs
  announcement := hk ▸ ha

/-- The epoch is the one that the last guard has announced: the lists stay. -/
theorem Published.begun_same {k : Collector} (h : Resting t c l w) (hk : k =
      { w.base.collectors c with numReaders := 1, state := ⟨w.base.epoch, false, false⟩ })
    (ha : (w.base.collectors c).announcement = w.base.epoch) (hp : Published t c k .idle w w') :
    Begun t c l w w' := by
  subst hk
  have hstate : ∀ d, d ≠ c → (w'.base.collectors d).state = (w.base.collectors d).state :=
    fun d hd => congrArg (·.state) (of_ne_of_write hp.collectors hd)
  have hund : Undisturbed t c l w' :=
    h.keep hp.live hp.pc hp.chainHead (links_of_write hp.collectors rfl) hstate
  have hown := own_of_write hp.collectors
  refine ⟨hp.begins, hund.guarding hown rfl hp.epoch.symm (ha.trans hp.epoch.symm),
    fun i hi => hp.dropped ▸ hi,
    fun i n hi => .inr (hi.keep (others_of_write hp.collectors) ?_ fun r => ?_)⟩
  · exact queued_congr h.live hp.live hstate (by rw [hown]) (by rw [hown]) (by rw [hown])
  · refine Nat.le_of_eq ?_
    unfold waits
    rw [hown, hp.epoch]

/-- A new epoch is announced, and there is nothing to rotate. -/
theorem Published.begun_quiet {k : Collector} (h : Resting t c l w) (hk : k =
      { w.base.collectors c with numReaders := 1, state := ⟨w.base.epoch, false, false⟩ })
    (ha : (w.base.collectors c).announcement ≠ w.base.epoch)
    (hg : (w.base.collectors c).hasGarbage = false)
    (hp : Published t c { k with
      announcement := w.base.epoch, nextEpochUpdate := Collector.CADENCE } .idle w w') :
    Begun t c l w w' := by
  subst hk
  have hstate : ∀ d, d ≠ c → (w'.base.collectors d).state = (w.base.collectors d).state :=
    fun d hd => congrArg (·.state) (of_ne_of_write hp.collectors hd)
  have hund : Undisturbed t c l w' :=
    h.keep hp.live hp.pc hp.chainHead (links_of_write hp.collectors rfl) hstate
  -- Without the flag nothing waits in the own lists.
  have hnil : (w.base.collectors c).garbage = [] := by
    by_contra hne
    exact absurd (((flags_of_run h.live.run) c).garbage hne) (Bool.eq_false_iff.mp hg)
  obtain ⟨hcp, hnext⟩ := List.append_eq_nil_iff.mp hnil
  obtain ⟨hprevious, hcurrent⟩ := List.append_eq_nil_iff.mp hcp
  have hempty : ∀ {l' : List Garbage} {x : Garbage}, l' = [] →
      ¬Inside (Exit.others w.base c) l' x := by
    rintro _ _ rfl
    exact not_inside_nil
  refine ⟨hp.begins, hund.guarding (own_of_write hp.collectors) rfl hp.epoch.symm hp.epoch.symm,
    fun i hi => hp.dropped ▸ hi, fun i n hi => .inr ?_⟩
  obtain ⟨r, hr, hn⟩ := hi
  -- An instance that is due waits in the chain or in one of the own lists, and those are empty.
  rcases rank_cases hr with rfl | rfl | rfl | rfl
  · exact absurd hr (hempty hnext)
  · exact absurd hr (hempty hprevious)
  · exact absurd hr (hempty hcurrent)
  · refine ⟨4, ?_, ?_⟩
    · rwa [others_of_write hp.collectors, queued_obsolete h.live hp.live hstate]
    -- The announcement was behind, so the count for it already holds the whole period.
    · unfold waits at hn ⊢
      rw [if_neg ha] at hn
      rw [own_of_write hp.collectors, hp.epoch, if_pos rfl]
      exact hn

/-- A new epoch is announced, the lists rotate, and the oldest one is dropped. -/
theorem Published.begun_rotate {k : Collector} (h : Resting t c l w) (hk : k =
      { w.base.collectors c with numReaders := 1, state := ⟨w.base.epoch, false, false⟩ })
    (ha : (w.base.collectors c).announcement ≠ w.base.epoch)
    (hp : Published t c { k with announcement := w.base.epoch }.rotate
      (.drain c (w.base.collectors c).nextInstanceLink) w w₁)
    (hrun : Solo t w₁ w')
    (hd : Drained t c (w.base.collectors c).nextInstanceLink w₁ w') : Begun t c l w w' := by
  subst hk
  have hstate : ∀ d, d ≠ c → (w'.base.collectors d).state = (w.base.collectors d).state :=
    fun d hne => (hd.state d).trans (congrArg (·.state) (of_ne_of_write hp.collectors hne))
  have hund : Undisturbed t c l w' := h.keep hd.live hd.pc (hd.chainHead.trans hp.chainHead)
    (fun d => (hd.links d).trans (links_of_write hp.collectors rfl d)) hstate
  have hepoch : w'.base.epoch = w.base.epoch := hd.epoch.trans hp.epoch
  have hown := hd.own
  rw [own_of_write hp.collectors] at hown
  obtain ⟨x, hx, hsolo⟩ := hp.begins
  refine ⟨⟨x, hx, hsolo.trans hrun⟩, hund.guarding hown rfl hepoch.symm hepoch.symm,
    fun i hi => hd.dropped i (hp.dropped ▸ hi), fun i n hi => ?_⟩
  obtain ⟨r, hr, hn⟩ := hi
  -- What is not on the oldest list stays, one list further on.
  have hmove : ∀ {l' : List Garbage}, Inside (Exit.others w.base c) l' (.inst i) →
      i ∈ w'.base.dropped ∨ Inside (Exit.others w'.base c) l' (.inst i) := by
    intro l' hl
    refine hd.inside l' i ?_
    rw [others_of_write hp.collectors]
    exact hl.mono fun y hy => List.mem_append_right _ hy
  have hwaits : ∀ r, waits w'.base c r = 66 + 65 * (min r 3 - 1) := by
    intro r
    unfold waits
    rw [hown, hepoch]
    exact if_pos rfl
  unfold waits at hn
  rw [if_neg ha] at hn
  rcases rank_cases hr with rfl | rfl | rfl | rfl
  · have hin := hd.inside [] i (by rwa [others_of_write hp.collectors, List.append_nil])
    exact .inl (hin.resolve_right not_inside_nil)
  · refine (hmove hr).imp_right fun hr => ⟨1, ?_, by rw [hwaits]; omega⟩
    show Inside _ (w'.base.collectors c).nextInstanceLink _
    rw [hown]
    exact hr
  · refine (hmove hr).imp_right fun hr => ⟨2, ?_, by rw [hwaits]; omega⟩
    show Inside _ (w'.base.collectors c).previousInstanceLink _
    rw [hown]
    exact hr
  · refine (hmove hr).imp_right fun hr => ⟨4, ?_, by rw [hwaits]; omega⟩
    rwa [queued_obsolete h.live hd.live hstate]

/-- A guard is created, and its thread comes back to the user code. -/
theorem Resting.begins (h : Resting t c l w) : ∃ w', Begun t c l w w' := by
  rcases h.published rfl with ⟨ha, y, hp⟩ | ⟨ha, hg, y, hp⟩ | ⟨ha, -, y, hp⟩
  · exact ⟨y, hp.begun_same h rfl ha⟩
  · exact ⟨y, hp.begun_quiet h rfl ha hg⟩
  · obtain ⟨w', hrun, hd⟩ := drain_ends hp.live hp.pc
    exact ⟨w', hp.begun_rotate h rfl ha hrun hd⟩

/-! ## A guard ends -/

/-- The thread ends its guard. -/
def Ends (t : Tid) (w w' : Process) : Prop :=
  ∃ x, w.step ⟨t, .base .endGuard⟩ = some x ∧ Solo t x w'

/-- What the end of a guard does to what is to be dropped. -/
structure Ended (t : Tid) (c : CollectorId) (l l' : List CollectorId) (w w' : Process) : Prop where
  ends : Ends t w w'
  resting : Resting t c l' w'
  dropped : ∀ i ∈ w.base.dropped, i ∈ w'.base.dropped
  due : ∀ i n, Due c l (n + 1) w i → Due c l' n w' i

/-- The last store of `end_guard`. -/
theorem Live.setInactive (h : Live t c w) (hpc : w.base.pc t = .setInactive c) :
    ∃ w', Solo t w w' ∧ Live t c w' ∧ w'.base = (w.base.modify c fun k =>
      { k with state := ⟨k.announcement, true, false⟩ }).goto t .idle := by
  have hs : w.base.step ⟨t, .proceed⟩ = some ((w.base.modify c fun k =>
      { k with state := ⟨k.announcement, true, false⟩ }).goto t .idle) := by
    simp only [World.step, World.proceed, hpc]
  exact ⟨_, .tail _ .refl rfl (step_live h.stage hs), h.next hs rfl, rfl⟩

/-- What is due requests a scan. -/
theorem Due.requested (h : Undisturbed t c l w) (hd : Due c l n w i) :
    (w.base.collectors c).hasGarbage = true ∨ w.base.chainHead.tag = .second := by
  obtain ⟨r, hr, -⟩ := hd
  have hlist : ∀ l', (∀ x ∈ l', x ∈ (w.base.collectors c).garbage) →
      Inside (others w.base c) l' (.inst i) → (w.base.collectors c).hasGarbage = true := by
    intro l' hl hin
    refine ((flags_of_run h.live.run) c).garbage fun hnil => ?_
    rw [hnil] at hl
    exact not_inside_nil (hin.mono hl)
  -- An instance of an own list sets has_garbage, and one of an obsolete collector leaves the mark.
  rcases rank_cases hr with rfl | rfl | rfl | rfl
  · exact .inl (hlist _ (fun x hx => List.mem_append_right _ hx) hr)
  · exact .inl (hlist _ (fun x hx => List.mem_append_left _ (List.mem_append_left _ hx)) hr)
  · exact .inl (hlist _ (fun x hx => List.mem_append_left _ (List.mem_append_right _ hx)) hr)
  · -- There is an obsolete collector in the chain.
    refine .inr ?_
    cases hl : l.filter fun d => (w.base.collectors d).state.invalid with
    | nil =>
      have hnil : queued w.base c l 4 = [] := by
        show List.map _ _ = _
        rw [hl]
        rfl
      rw [hnil] at hr
      exact absurd hr not_inside_nil
    | cons d rest =>
      have hd : d ∈ l.filter fun d => (w.base.collectors d).state.invalid := by
        rw [hl]
        exact List.mem_cons_self
      obtain ⟨hmem, hi⟩ := List.mem_filter.mp hd
      exact h.marked d hmem hi

/-- Two writes to one collector. -/
theorem modify_modify (b : World) (c : CollectorId) (f g : Collector → Collector) :
    (b.modify c f).modify c g = b.modify c fun k => g (f k) := by
  show ({ b with collectors := Function.update (Function.update b.collectors c _) c _ } : World) = _
  rw [Function.update_idem, World.modify_collectors, Function.update_self]
  rfl

/-- A guard ends without a scan: `next_epoch_update` is counted down if one is requested. -/
theorem Guarding.endGuard (h : Guarding t c l w)
    (hne : (w.base.collectors c).nextEpochUpdate ≠ 0) : ∃ u,
    w.base.step ⟨t, .endGuard⟩ = some ((w.base.modify c fun k =>
      { k with numReaders := 0, nextEpochUpdate := u }).goto t (.setInactive c)) ∧
    ((w.base.collectors c).hasGarbage = true ∨ w.base.chainHead.tag = .second →
      u + 1 = (w.base.collectors c).nextEpochUpdate) := by
  have hown : ((w.base.modify c fun k => { k with numReaders := 0 }).collectors c) =
      { w.base.collectors c with numReaders := 0 } := Function.update_self _ _ _
  have hs : w.base.step ⟨t, .endGuard⟩ =
      if (w.base.collectors c).hasGarbage || w.base.chainHead.tag == .second then
        some (((w.base.modify c fun k => { k with numReaders := 0 }).modify c fun k =>
          { k with nextEpochUpdate := k.nextEpochUpdate - 1 }).goto t (.setInactive c))
      else
        some ((w.base.modify c fun k => { k with numReaders := 0 }).goto t (.setInactive c)) := by
    simp only [World.step, World.user, h.pc, h.live.own, Option.bind_some, World.endGuard,
      h.readers, Nat.one_ne_zero, if_false, if_true, hown, if_neg hne, World.modify_chainHead]
  -- Either request lowers next_epoch_update by one.
  by_cases hreq : ((w.base.collectors c).hasGarbage || w.base.chainHead.tag == .second) = true
  · rw [if_pos hreq, modify_modify] at hs
    refine ⟨(w.base.collectors c).nextEpochUpdate - 1, hs, fun _ => ?_⟩
    omega
  · rw [if_neg hreq] at hs
    refine ⟨(w.base.collectors c).nextEpochUpdate, hs, fun h => absurd ?_ hreq⟩
    rwa [Bool.or_eq_true, beq_iff_eq]

/-- `next_epoch_update` is not zero: what is due comes one cycle closer. -/
theorem Guarding.ends_count (h : Guarding t c l w)
    (hne : (w.base.collectors c).nextEpochUpdate ≠ 0) : ∃ w', Ended t c l l w w' := by
  obtain ⟨u, hs, hu⟩ := h.endGuard hne
  obtain ⟨w', hrun, hlive, hbase⟩ := (h.live.next hs rfl).setInactive (Function.update_self _ _ _)
  have hcoll : w'.base.collectors = Function.update w.base.collectors c { w.base.collectors c with
      numReaders := 0, nextEpochUpdate := u
      state := ⟨(w.base.collectors c).announcement, true, false⟩ } := by
    rw [hbase]
    simp only [World.modify_collectors, World.goto_collectors, Function.update_self,
      Function.update_idem]
  have hown := own_of_write hcoll
  have hstate : ∀ d, d ≠ c → (w'.base.collectors d).state = (w.base.collectors d).state :=
    fun d hd => congrArg (·.state) (of_ne_of_write hcoll hd)
  have hund : Undisturbed t c l w' := h.keep hlive (by rw [hbase]; exact Function.update_self _ _ _)
    (by rw [hbase]; rfl) (links_of_write hcoll rfl) hstate
  refine ⟨w', ⟨_, step_live h.live.stage hs, hrun⟩, ⟨hund, by rw [hown]⟩, fun i hi => ?_,
    fun i n hi => ?_⟩
  · rw [hbase]
    exact hi
  -- The cycle has brought the instance one step nearer.
  · have hcount := hu (hi.requested h.toUndisturbed)
    obtain ⟨r, hr, hn⟩ := hi
    refine ⟨r, ?_, ?_⟩
    · rw [others_of_write hcoll,
        queued_congr h.live hlive hstate (by rw [hown]) (by rw [hown]) (by rw [hown])]
      exact hr
    · have hepoch : w'.base.epoch = w.base.epoch := by rw [hbase]; rfl
      unfold waits at hn ⊢
      rw [if_pos h.announcement] at hn
      rw [hown, hepoch]
      refine Nat.le_trans (Nat.le_of_eq (if_pos h.announcement)) ?_
      show u + 2 + _ ≤ n
      omega

/-- A guard ends with a scan: the chain is locked, and the walk begins. -/
theorem Guarding.lock (h : Guarding t c l w)
    (hzero : (w.base.collectors c).nextEpochUpdate = 0) : ∃ x w₁,
    w.step ⟨t, .base .endGuard⟩ = some x ∧ Solo t x w₁ ∧
    Scanning t c (w.base.collectors c).state [] l w₁ ∧
    w₁.base.collectors = Function.update w.base.collectors c
      { w.base.collectors c with numReaders := 0 } ∧
    w₁.base.chainHead.tag = .first ∧ w₁.base.epoch = w.base.epoch ∧
    w₁.base.dropped = w.base.dropped := by
  -- The exit of the last guard, the exchange that locks, and the load of the own state.
  have hown : ((w.base.modify c fun k => { k with numReaders := 0 }).collectors c) =
      { w.base.collectors c with numReaders := 0 } := Function.update_self _ _ _
  have hs : w.base.step ⟨t, .endGuard⟩ =
      some ((w.base.modify c fun k => { k with numReaders := 0 }).goto t (.lockChain c)) := by
    simp only [World.step, World.user, h.pc, h.live.own, Option.bind_some, World.endGuard,
      h.readers, Nat.one_ne_zero, if_false, if_true, hown, hzero]
  have hlive := h.live.next hs rfl
  generalize hx : (w.base.modify c fun k => { k with numReaders := 0 }).goto t (.lockChain c) = x
    at hs hlive
  have hpc : x.pc t = .lockChain c := by
    rw [← hx]
    exact Function.update_self _ _ _
  have hcoll : x.collectors = Function.update w.base.collectors c
      { w.base.collectors c with numReaders := 0 } := by
    rw [← hx]
    rfl
  have hhead : x.chainHead = w.base.chainHead := by
    rw [← hx]
    rfl
  have hfree : ¬(x.chainHead.tag = .first ∨ x.chainHead.tag = .both) := by
    rw [hhead]
    rcases h.unlocked with htag | htag <;> simp [htag]
  have hs₁ : x.step ⟨t, .proceed⟩ = some ({ x with chainHead := x.chainHead.withTag .first }.goto t
      (.knownEpoch c x.chainHead.addr)) := by
    simp only [World.step, World.proceed, hpc, World.lockChain]
    exact congrArg some (if_neg hfree)
  have hlive₁ := hlive.next hs₁ rfl
  have hpc₁ : ({ x with chainHead := x.chainHead.withTag .first }.goto t
      (.knownEpoch c x.chainHead.addr)).pc t = .knownEpoch c x.chainHead.addr :=
    Function.update_self _ _ _
  have hs₂ : ({ x with chainHead := x.chainHead.withTag .first }.goto t
      (.knownEpoch c x.chainHead.addr)).step ⟨t, .proceed⟩ =
        some (({ x with chainHead := x.chainHead.withTag .first }.goto t
          (.knownEpoch c x.chainHead.addr)).goto t
            (.scan c (x.collectors c).state none x.chainHead.addr)) := by
    simp only [World.step, World.proceed, hpc₁, World.goto_collectors]
  have hown₁ : (x.collectors c).state = (w.base.collectors c).state :=
    congrArg (·.state) (own_of_write hcoll)
  have hlinked : Linked (nextLinks x) x.chainHead.addr l := by
    rw [hhead]
    exact h.linked.congr fun d _ => links_of_write hcoll rfl d
  refine ⟨_, _, step_live h.live.stage hs, .head _ rfl (step_live hlive.stage hs₁)
    (.tail _ .refl rfl (step_live hlive₁.stage hs₂)), ⟨hlive₁.next hs₂ rfl, ?_, hlinked, h.nodup,
      fun d hd hne => ?_⟩, hcoll, rfl, ?_, ?_⟩
  · rw [← hown₁, ← hlinked.head_eq]
    exact Function.update_self _ _ _
  · show (x.collectors d).state.invalid = true ∨ (x.collectors d).state.inactive = true
    rw [of_ne_of_write hcoll hne]
    exact h.inactive d hd hne
  · show x.epoch = _
    rw [← hx]
    rfl
  · show x.dropped = _
    rw [← hx]
    rfl

/-- The chain is unlocked, and the collector becomes inactive. -/
theorem Scanned.unlock {known : StateByte} {front rest : List CollectorId}
    (h : Scanned t c known front rest w w₁) (htag : w₁.base.chainHead.tag = .first) :
    ∃ w', Solo t w₁ w' ∧ Live t c w' ∧ w'.base.pc t = .idle ∧
      w'.base.collectors = Function.update w₁.base.collectors c { w₁.base.collectors c with
        nextEpochUpdate := Collector.CADENCE
        state := ⟨(w₁.base.collectors c).announcement, true, false⟩ } ∧
      w'.base.chainHead = w₁.base.chainHead.withTag .none ∧ w'.base.epoch = w₁.base.epoch ∧
      w'.base.dropped = w₁.base.dropped := by
  have hs : w₁.base.step ⟨t, .proceed⟩ = some (w₁.base.unlockChain.scanned t c) := by
    simp only [World.step, World.proceed, h.pc]
  obtain ⟨w', hrun, hlive, hbase⟩ := (h.live.next hs rfl).setInactive (Function.update_self _ _ _)
  refine ⟨w', .head _ rfl (step_live h.live.stage hs) hrun, hlive, ?_, ?_, ?_, ?_, ?_⟩
  · rw [hbase]
    exact Function.update_self _ _ _
  · rw [hbase]
    simp only [World.scanned, World.unlockChain, World.modify_collectors, World.goto_collectors,
      Function.update_self, Function.update_idem]
  · rw [hbase]
    -- The tag is that of a locked chain without a mark, so the exchange succeeds.
    show w₁.base.chainHead.withTag _ = _
    rw [if_pos htag]
  · rw [hbase]
    rfl
  · rw [hbase]
    rfl

/-- `next_epoch_update` is zero: the scan moves the epoch on, and takes the obsolete collectors. -/
theorem Guarding.ends_scan (h : Guarding t c l w)
    (hzero : (w.base.collectors c).nextEpochUpdate = 0) : ∃ w' l', Ended t c l l' w w' := by
  obtain ⟨x, w₁, hx, hrun₁, hscan, hcoll₁, htag₁, hepoch₁, hdropped₁⟩ := h.lock hzero
  obtain ⟨w₂, hrun₂, hdone⟩ := scan_ends hscan
  obtain ⟨w', hrun, hlive, hpc, hcoll, hhead, hepoch, hdropped⟩ :=
    hdone.unlock (hdone.tag.trans htag₁)
  obtain ⟨l', hlinked, hvalid⟩ := hdone.linked
  obtain ⟨new, hnew, hobsolete⟩ := hdone.current
  have hown₁ := own_of_write hcoll₁
  have hown := own_of_write hcoll
  -- Neither the lock nor the scan changes the state of another collector.
  have hstate₁ : ∀ d, (w₁.base.collectors d).state = (w.base.collectors d).state := by
    intro d
    by_cases hd : d = c
    · subst hd
      rw [hown₁]
    · rw [of_ne_of_write hcoll₁ hd]
  have hstate : ∀ d, d ≠ c → (w'.base.collectors d).state = (w.base.collectors d).state := by
    intro d hd
    rw [of_ne_of_write hcoll hd, hdone.state, hstate₁]
  have hothers : others w'.base c = others w.base c := by
    rw [others_of_write hcoll, hdone.others, others_of_write hcoll₁]
  have hund : Undisturbed t c l' w' :=
    { live := hlive
      pc := hpc
      linked := by
        rw [hhead]
        exact hlinked.congr fun d _ => links_of_write hcoll rfl d
      unlocked := .inl (by rw [hhead]; rfl)
      inactive := fun d hd hne => by
        unfold Invalid
        rw [hstate d hne]
        exact h.inactive d (hvalid d hd).1 hne
      marked := fun d hd hi => by
        have hne : d ≠ c := by
          rintro rfl
          exact hlive.valid hi
        refine absurd ?_ (hvalid d hd).2
        unfold Invalid at hi ⊢
        rwa [hstate d hne, ← hstate₁] at hi }
  have hreaders : (w'.base.collectors c).numReaders = 0 := by
    rw [hown]
    exact hdone.readers.trans (by rw [hown₁])
  refine ⟨w', l', ⟨_, hx, (hrun₁.trans hrun₂).trans hrun⟩, ⟨hund, hreaders⟩, fun i hi => ?_,
    fun i n hi => ?_⟩
  · rwa [hdropped, hdone.dropped, hdropped₁]
  · -- The own lists are as before, with the obsolete collectors on the current one.
    have hwaits : ∀ r, waits w'.base c r = 1 + 65 * (r - 1) := by
      intro r
      unfold waits
      refine if_neg ?_
      rw [hown, hepoch, hdone.epoch, h.state]
      show (w₂.base.collectors c).announcement ≠ _
      rw [hdone.announcement, hown₁]
      show (w.base.collectors c).announcement ≠ _
      rw [h.announcement]
      exact (Epoch.next_ne _).symm
    obtain ⟨r, hr, hn⟩ := hi
    unfold waits at hn
    rw [if_pos h.announcement, hzero] at hn
    have hcurrent : (w'.base.collectors c).currentInstanceLink =
        new ++ (w.base.collectors c).currentInstanceLink := by
      rw [hown]
      show (w₂.base.collectors c).currentInstanceLink = _
      rw [hnew, hown₁]
    -- The lists stand where they stood, and the new epoch makes each of them one rotation younger.
    rcases rank_cases hr with rfl | rfl | rfl | rfl
    · refine ⟨1, ?_, by rw [hwaits]; omega⟩
      rw [hothers]
      show Inside _ (w'.base.collectors c).nextInstanceLink _
      rw [hown]
      show Inside _ (w₂.base.collectors c).nextInstanceLink _
      rw [hdone.next, hown₁]
      exact hr
    · refine ⟨2, ?_, by rw [hwaits]; omega⟩
      rw [hothers]
      show Inside _ (w'.base.collectors c).previousInstanceLink _
      rw [hown]
      show Inside _ (w₂.base.collectors c).previousInstanceLink _
      rw [hdone.previous, hown₁]
      exact hr
    · refine ⟨3, ?_, by rw [hwaits]; omega⟩
      rw [hothers]
      show Inside _ (w'.base.collectors c).currentInstanceLink _
      rw [hcurrent]
      exact hr.mono fun y hy => List.mem_append_right new hy
    · refine ⟨3, ?_, by rw [hwaits]; omega⟩
      rw [hothers]
      show Inside _ (w'.base.collectors c).currentInstanceLink _
      rw [hcurrent]
      refine hr.mono fun y hy => List.mem_append_left _ ?_
      obtain ⟨d, hd, rfl⟩ := List.mem_map.mp hy
      obtain ⟨hmem, hi⟩ := List.mem_filter.mp hd
      refine hobsolete d hmem ?_
      unfold Invalid
      rwa [hstate₁]

/-- The last guard ends, and its thread comes back to the user code. -/
theorem Guarding.ends (h : Guarding t c l w) : ∃ w' l', Ended t c l l' w w' := by
  by_cases hzero : (w.base.collectors c).nextEpochUpdate = 0
  · exact h.ends_scan hzero
  · obtain ⟨w', hw'⟩ := h.ends_count hzero
    exact ⟨w', l, hw'⟩

/-! ## The cycles -/

/-- The thread creates a guard and ends it, `n` times. -/
inductive Cycles (t : Tid) : Nat → Process → Process → Prop where
  | refl {w : Process} : Cycles t 0 w w
  | head {n : Nat} {w w₁ w₂ w' : Process} (hb : Begins t w w₁) (he : Ends t w₁ w₂)
      (h : Cycles t n w₂ w') : Cycles t (n + 1) w w'

/-- What is due in `n` cycles is dropped after them. -/
theorem Resting.cycles (h : Resting t c l w) (n : Nat) : ∃ w' l', Cycles t n w w' ∧
    Resting t c l' w' ∧ (∀ i ∈ w.base.dropped, i ∈ w'.base.dropped) ∧
    ∀ i, Due c l n w i → i ∈ w'.base.dropped := by
  induction n generalizing w l with
  | zero => exact ⟨w, l, .refl, h, fun _ hi => hi, fun i hi => absurd hi not_due_zero⟩
  | succ n ih =>
    obtain ⟨w₁, hb⟩ := h.begins
    obtain ⟨w₂, l₂, he⟩ := hb.guarding.ends
    obtain ⟨w', l', hc, hrest, hdropped, hdue⟩ := ih he.resting
    refine ⟨w', l', .head hb.begins he.ends hc, hrest,
      fun i hi => hdropped i (he.dropped i (hb.dropped i hi)), fun i hi => ?_⟩
    rcases hb.due i _ hi with hi | hi
    · exact hdropped i (he.dropped i hi)
    · exact hdue i (he.due i n hi)

/-- Nothing waits longer than 196 cycles. -/
theorem Resting.waits_le (h : Resting t c l w) (hr : r ≤ 4) : waits w.base c r ≤ 196 := by
  have hsmall : (w.base.collectors c).nextEpochUpdate ≤ 64 := ((flags_of_run h.live.run) c).small
  unfold waits
  split <;> omega

/-- Everything inside of the own lists, or of an obsolete collector in the chain, is due. -/
theorem Resting.due (h : Resting t c l w) {k : CollectorId}
    (hk : k = c ∨ k ∈ l ∧ Invalid w.base k)
    (hi : Inside (garbageOf w.base) (garbageOf w.base k) (.inst i)) : Due c l 196 w i := by
  -- The own collector is on no list.
  have hin : Inside (others w.base c) (garbageOf w.base k) (.inst i) := by
    refine hi.keep (fun d hd => ⟨k, hd⟩) fun d e hd => others_of_ne ?_
    rintro rfl
    exact h.live.not_garbage.1 e hd
  rcases hk with rfl | ⟨hk, hinv⟩
  · rcases hin.append with hin | hin
    · rcases hin.append with hin | hin
      · exact ⟨2, hin, h.waits_le (by omega)⟩
      · exact ⟨3, hin, h.waits_le (by omega)⟩
    · exact ⟨1, hin, h.waits_le (by omega)⟩
  · have hne : k ≠ c := by
      rintro rfl
      exact h.live.valid hinv
    refine ⟨4, .within k ?_ ?_, h.waits_le (Nat.le_refl 4)⟩
    · exact List.mem_map.mpr ⟨k, List.mem_filter.mpr ⟨hk, hinv⟩, rfl⟩
    · rwa [others_of_ne hne]

/-- What is retired is dropped. In a state of a run, the thread `t` has no guard, nobody holds the
chain lock, and every other collector in the chain is inactive or obsolete; if one is obsolete, a
scan is requested. If the thread now creates and ends 196 guards while the other threads stand
still, then every instance inside of its lists, and inside of those of an obsolete collector in the
chain, is dropped. The destructors do nothing to the collector. -/
theorem reclaims (h : Run Process.step (fun _ _ => True) .init w) (hstage : w.stage t = .live)
    (hpc : w.base.pc t = .idle) (hl : w.base.localCollector t = some c)
    (hreaders : (w.base.collectors c).numReaders = 0)
    (hunlocked : w.base.chainHead.tag = .none ∨ w.base.chainHead.tag = .second)
    (hinactive : ∀ d, InChain w.base d → d ≠ c →
      Invalid w.base d ∨ (w.base.collectors d).state.inactive = true)
    (hmarked : ∀ d, InChain w.base d → Invalid w.base d → w.base.chainHead.tag = .second) :
    ∃ w', Cycles t 196 w w' ∧
      ∀ k, k = c ∨ InChain w.base k ∧ Invalid w.base k →
        ∀ i, Inside (garbageOf w.base) (garbageOf w.base k) (.inst i) → i ∈ w'.base.dropped := by
  -- The chain of the ghost state is the list that the scan walks over.
  obtain ⟨g, hg⟩ := inv_of_run h
  have hlinked := hg.chain.linked
  have hrest : Resting t c g.chain w :=
    { live := ⟨h, hstage, hl⟩
      pc := hpc
      linked := hlinked
      unlocked := hunlocked
      inactive := fun d hd => hinactive d ⟨_, hlinked, hd⟩
      marked := fun d hd => hmarked d ⟨_, hlinked, hd⟩
      readers := hreaders }
  obtain ⟨w', l', hc, -, -, hdue⟩ := hrest.cycles 196
  refine ⟨w', hc, fun k hk i hi => hdue i (hrest.due (hk.imp_right fun ⟨hk, hi⟩ => ⟨?_, hi⟩) hi)⟩
  obtain ⟨l, hlist, hk⟩ := hk
  rwa [hlinked.unique hlist]

/-- The thread 1 retires an instance and suspends, and so the instance is inside of an obsolete
collector in the chain. The thread 0 has retired another one. It drops both. -/
theorem reclaims_suspended : ∃ w w' : Process, w.base.dropped = [] ∧ w.base.nextInst = 2 ∧
    Cycles 0 196 w w' ∧ 0 ∈ w'.base.dropped ∧ 1 ∈ w'.base.dropped := by
  have h : (exec Process.step (fun _ _ => true) .init (steps (register 0 ++ register 1 ++
      suspending 1 ++ [⟨0, .newGuard⟩, ⟨0, .proceed⟩, ⟨0, .collect⟩, ⟨0, .endGuard⟩,
        ⟨0, .proceed⟩]))).any (fun w => (w.base.dropped == [] && w.base.nextInst == 2) &&
      (decide (w.stage 0 = .live) && decide (w.base.pc 0 = .idle) &&
        w.base.localCollector 0 == some 0 && (w.base.collectors 0).numReaders == 0) &&
      (w.base.chainHead == ⟨some 1, .second⟩ && (w.base.collectors 1).nextLink == some 0 &&
        (w.base.collectors 0).nextLink == none && (w.base.collectors 1).state.invalid) &&
      (garbageOf w.base 1 == [.inst 0] && garbageOf w.base 0 == [.inst 1])) = true := by
    decide
  obtain ⟨w, hrun, h⟩ := Run.of_exec_any h
  simp only [Bool.and_eq_true, beq_iff_eq, decide_eq_true_eq] at h
  obtain ⟨⟨⟨⟨hdropped, hnext⟩, ⟨⟨hstage, hpc⟩, hl⟩, hreaders⟩, ⟨⟨hhead, h₁⟩, h₀⟩, hinvalid⟩,
    hg₁, hg₀⟩ := h
  have hlinked : Linked (nextLinks w.base) w.base.chainHead.addr [1, 0] :=
    ⟨by rw [hhead], h₁, h₀⟩
  have hmem : ∀ d, InChain w.base d → d = 1 ∨ d = 0 := by
    rintro d ⟨l, hlist, hd⟩
    rw [hlist.unique hlinked] at hd
    simpa using hd
  have hinactive : ∀ d, InChain w.base d → d ≠ 0 →
      Invalid w.base d ∨ (w.base.collectors d).state.inactive = true := by
    intro d hd hne
    -- The suspended collector is INVALID, and the other one is the thread's own.
    rcases hmem d hd with rfl | rfl
    · exact .inl hinvalid
    · exact absurd rfl hne
  obtain ⟨w', hc, hall⟩ := reclaims (hrun.mono fun _ _ _ => trivial) hstage hpc hl hreaders
    (.inr (by rw [hhead])) hinactive fun _ _ _ => by rw [hhead]
  refine ⟨w, w', hdropped, hnext, hc, hall 1 (.inr ⟨⟨_, hlinked, ?_⟩, hinvalid⟩) 0 ?_,
    hall 0 (.inl rfl) 1 ?_⟩
  · exact List.mem_cons_self
  · rw [hg₁]
    exact .here List.mem_cons_self
  · rw [hg₀]
    exact .here List.mem_cons_self

end Sdd.Proofs.Exit
