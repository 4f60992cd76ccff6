import Sdd.Proofs.Exit.Pins

/-!
# `Sdd.Proofs.Exit.Requests`: requests for a scan

A thread that declares a collector obsolete asks for a scan with the mark in `chain_head`.
`lock_chain` takes the mark away, as the scan is to find the collectors that are obsolete. An
obsolete collector in the chain is `Pending`: the mark is set, or a thread is about to set
it, or a scan has the collector still ahead. A scan that stops early, or that fails to take
the head of the chain, breaks this, since it does not set the mark again. In a run without
such a step the mark is set as long as an obsolete collector is linked (`mark_of_invalid`).
-/

set_option autoImplicit false

namespace Sdd.Proofs.Exit

open Process (Stage)
open Sdd.Collector Sdd.Lib

variable {t : Tid} {act : Act} {w w' : Process} {g g' : Ghost} {b b' : World} {d : CollectorId}

/-- The mark in `chain_head`, locked or not. -/
def Marked (b : World) : Prop := b.chainHead.tag = .second ∨ b.chainHead.tag = .both

/-- The thread is in `clear_chain`, or in `mark_scan_enforced` after it. -/
def clearing : Stage → Bool
  | .lockChain _ | .markScanEnforced _ => true
  | s => holding s

/-- The thread has set the `INVALID` bit of its collector, and has not finished the
`clear_chain` or the `mark_scan_enforced` that follows. -/
def requesting (w : Process) (t : Tid) : Bool :=
  w.base.pc t == .markScanEnforced || clearing (w.stage t)

/-- The thread is in `clear_chain`, and will set the mark unless it takes the chain. -/
def marking : Stage → Bool
  | .lockChain _ | .walk _ _ _ | .walkNext _ _ _ | .unlockChain _ false | .markScanEnforced _ =>
    true
  | _ => false

/-- The thread will set the mark unless it takes the chain. -/
def marker (w : Process) (t : Tid) : Bool :=
  w.base.pc t == .markScanEnforced || marking (w.stage t)

/-- The next step of the thread leaves an obsolete collector behind: it ends the walk of
`scan` at an active collector, or it fails to take the head of the chain, as another
collector was pushed in front. -/
def abandoning (b : World) (t : Tid) : Bool :=
  match b.pc t with
  | .scanNext _ known _ _ state => !state.invalid && (!state.inactive && state != known)
  | .unlink _ _ none d _ => b.chainHead.addr != some d
  | _ => false

/-- The collector is in the chain where the walk of `scan` has yet to look. -/
def Unwalked (chain : List CollectorId) (d : CollectorId) : Pc → Prop
  | .knownEpoch _ current | .scan _ _ _ current => Ahead chain d current
  | .scanNext _ _ _ x state => Ahead chain d (some x) ∧ (x = d → state.invalid = true)
  | .unlink _ _ _ x next => x = d ∨ After chain d x next
  | _ => False

/-- An obsolete collector in the chain will be found. -/
def Pending (w : Process) (g : Ghost) (d : CollectorId) : Prop :=
  Marked w.base ∨ (∃ t, marker w t = true) ∨ ∃ t, Unwalked g.chain d (w.base.pc t)

/-! ## The mark -/

/-- A step of the collector keeps the mark, unless it locks the chain for a scan. -/
theorem marked_base (h : Marked b) (hm : Proofs.Move b t act b') :
    Marked b' ∨ ∃ c, b.pc t = .lockChain c ∧ b'.pc t = .knownEpoch c b'.chainHead.addr := by
  cases hm with
  | lock c hpc => exact .inr ⟨c, hpc, Function.update_self _ _ _⟩
  | unlock c hpc =>
    refine .inl (.inl ?_)
    show (if b.chainHead.tag = .first then Tag.none else .second) = .second
    rcases h with h | h <;> rw [h] <;> rfl
  | markScanEnforced tag hpc hf hb hn =>
    refine .inl ?_
    rcases h with h | h
    · exact .inl (hn (by rw [h]; nofun) (by rw [h]; nofun))
    · exact .inr (hb h)
  | allocDone c p hpc hp =>
    subst hp
    exact .inl h
  | _ => exact .inl h

/-- A thread that declares a collector obsolete in `suspend()` will set the mark. -/
theorem invalid_back (hm : Proofs.Move b t act b') (hi : Invalid b' d) :
    Invalid b d ∨ b'.pc t = .markScanEnforced := by
  have hback : ∀ (f : CollectorId → Collector) (c : CollectorId) (k : Collector),
      (Function.update f c k d).state.invalid = true →
        (k.state.invalid = true → (f c).state.invalid = true) → (f d).state.invalid = true := by
    intro f c k hd hk
    by_cases hdc : d = c
    · rw [hdc] at hd ⊢
      rw [Function.update_self] at hd
      exact hk hd
    · rwa [Function.update_of_ne hdc] at hd
  cases hm with
  | suspend => exact .inr (Function.update_self _ _ _)
  | user c f hu hn hf hk =>
    refine .inl (hback b.collectors c _ hi fun h => ?_)
    rwa [hk] at h
  | unlinkMid c known p e next =>
    have hp := hback (b.modify p fun k => { k with nextLink := next }).collectors c _ hi fun h => h
    exact .inl (hback b.collectors p _ hp fun h => h)
  | allocBegin => exact .inl (hback b.collectors b.nextCollector _ hi fun h => (by cases h))
  | publishSame c e | publishQuiet c e | publishRotate c e | setInactive c =>
    exact .inl (hback b.collectors c _ hi fun h => (by cases h))
  | allocRetry c | allocDone c | load c | drainDone c | endScan c | endQuiet c | lockFail c | unlock c
    | collect c | unlinkHead c => exact .inl (hback b.collectors c _ hi fun h => h)
  | drainCollector c e => exact .inl (hback b.collectors e _ hi fun h => h)
  | drainInst | destructor | lock | knownEpoch | store | scanOwn | scanLoad | nextInvalid
    | nextBreak | nextPass | unlinkFail | markScanEnforced | suspendNone => exact .inl hi

/-- A thread that declares a collector obsolete will set the mark. -/
theorem invalid_or_marker {a : Process.Act} (hm : Move w t a w') (hi : Invalid w'.base d) :
    Invalid w.base d ∨ marker w' t = true := by
  rcases hm.cases_aside with ⟨act, b', hb, rfl⟩ | ⟨-, -, rfl⟩ | ⟨-, ha⟩
  · refine (invalid_back hb hi).imp_right fun hpc => ?_
    unfold marker
    rw [show (afterBase w t act b').base.pc t = .markScanEnforced from hpc]
    rfl
  · refine .inr ?_
    unfold marker
    rw [exit_stage, Function.update_self]
    exact Bool.or_true _
  · refine .inl ?_
    unfold Invalid at hi
    rwa [show (w'.base.collectors d).state = (w.base.collectors d).state from
      congrArg Prod.fst (ha.core d)] at hi

/-- `mark_scan_enforced` sets the mark. -/
theorem marked_markScanEnforced (b : World) : Marked b.markScanEnforced := by
  unfold Marked World.markScanEnforced
  cases htag : b.chainHead.tag with
  | none => exact .inl rfl
  | first => exact .inr rfl
  | second => exact .inl htag
  | both => exact .inr htag

/-- A thread in `clear_chain` outside of the destructors runs no user code. -/
theorem user_of_marking {s : Stage} (h : marking s = true) : s.user = false := by
  cases s with
  | unused | live | dropping | clearDropping => cases h
  | lockChain | walk | walkNext | free | drop | unlockChain | markScanEnforced | clear | clearDrop
    | done => rfl

/-- A thread that will set the mark sets it, or goes on, or takes the chain. -/
theorem marker_step {a : Process.Act} (hm : Move w t a w') (hk : marker w t = true) :
    marker w' t = true ∨ Marked w'.base ∨ w'.base.chainHead.addr = none := by
  have hself : ∀ {s : Stage} (x : Process), marking s = true → marker (x.goto t s) t = true := by
    intro s x hs
    unfold marker
    rw [Process.goto_stage, Function.update_self, hs]
    exact Bool.or_true _
  unfold marker at hk
  rw [Bool.or_eq_true, beq_iff_eq] at hk
  rcases hk with hpc | hk
  · have hidle : w.base.pc t ≠ .idle := by
      rw [hpc]
      nofun
    obtain ⟨act, hs⟩ := hm.base_of_busy hidle
    have hp := (proceed_of_step hs hidle (by rw [hpc]; nofun)).2
    unfold World.proceed at hp
    rw [hpc] at hp
    rw [← Option.some.inj hp]
    exact .inr (.inl (marked_markScanEnforced w.base))
  · cases hm with
    | base act b hu ha hb => cases hu.symm.trans (user_of_marking hk)
    | lockFail temp hs | lock temp hs | walkStop temp d head hs | walkPass temp d head hs
      | walkNext temp d head hs | takeFail temp head hs => exact .inl (hself _ rfl)
    | take temp head hs hpc hh => exact .inr (.inr rfl)
    | unlock temp cleared hs =>
      cases cleared with
      | false => exact .inl (hself _ rfl)
      | true =>
        rw [hs] at hk
        cases hk
    | mark temp hs => exact .inr (.inl (marked_markScanEnforced w.base))
    | loopDone running destructor finished hl hs | loopInst running destructor finished hl i rest hs
      | loopCollector running destructor finished hl d rest hs
      | loopReturn running destructor finished hl rest hs =>
      rw [hs] at hk
      cases hl <;> cases hk
    | exit ha hs | free temp d hs | freeDone temp hs | clear temp hs | done temp hs =>
      rw [hs] at hk
      cases hk

/-- A step keeps the mark, unless it locks the chain. -/
theorem marked_step {a : Process.Act} (hm : Move w t a w') (hk : Marked w.base) :
    Marked w'.base ∨ marker w' t = true ∨
      ∃ c, w.base.pc t = .lockChain c ∧ w'.base.pc t = .knownEpoch c w'.base.chainHead.addr := by
  cases hm with
  | base act b hu ha hs =>
    exact (marked_base hk (Proofs.move_of_step hs)).imp_right .inr
  | exit ha hs =>
    refine .inl ?_
    unfold Marked
    rw [exit_chainHead]
    exact hk
  | lock temp hs hpc hf hb =>
    refine .inr (.inl ?_)
    unfold marker
    rw [Process.goto_stage, Function.update_self]
    exact Bool.or_true _
  | unlock temp cleared hs =>
    refine .inl (.inl ?_)
    show (if w.base.chainHead.tag = .first then Tag.none else .second) = .second
    rcases hk with hk | hk <;> rw [hk] <;> rfl
  | mark temp hs => exact .inl (marked_markScanEnforced w.base)
  | lockFail | walkStop | walkPass | walkNext | take | takeFail | free | freeDone | loopDone
    | loopInst | loopCollector | loopReturn | clear | done => exact .inl hk

/-! ## The walk -/

/-- A collector that is pushed is in front of the walk. -/
theorem Unwalked.frame {chain : List CollectorId} {pc : Pc} (h : Unwalked chain d pc)
    (pre : List CollectorId) : Unwalked (pre ++ chain) d pc := by
  cases pc with
  | knownEpoch o current => exact Ahead.frame h pre
  | scan o known prev current => exact Ahead.frame h pre
  | scanNext o known prev x state => exact ⟨h.1.frame pre, h.2⟩
  | unlink o known prev x next => exact h.imp_right fun ha => ha.frame pre
  | idle | alloc | newGuard | drain | destructor | lockChain | unlockChain | setInactive
    | markScanEnforced => exact h

/-- A walk that has collectors ahead holds the lock. -/
theorem walking_of_unwalked {chain : List CollectorId} {pc : Pc} (h : Unwalked chain d pc) :
    walking pc = true := by
  cases pc with
  | knownEpoch | scan | scanNext | unlink => rfl
  | idle | alloc | newGuard | drain | destructor | lockChain | unlockChain | setInactive
    | markScanEnforced => exact h.elim

/-- A step of the walk that leaves nothing behind has the obsolete collectors that stay in
the chain still ahead. -/
theorem Unwalked.step (hu : Unwalked g.chain d (w.base.pc t)) (h : Inv w g)
    (hg : GhostStep w t g g') (hne : ∀ x, Cutting w.base t x → g' ≠ g)
    (hm : Proofs.Move w.base t act b') (hi : Invalid w.base d) (hd : d ∈ g'.chain)
    (hab : abandoning w.base t = false) : Unwalked g'.chain d (b'.pc t) := by
  have hw := walking_of_unwalked hu
  have hlinked := h.chain.linked
  have hcases := hg.of_locking h (locking_of_walking hw)
  have hsame : (∀ o known prev x next, w.base.pc t ≠ .unlink o known prev x next) → g' = g := by
    intro hno
    rcases hcases with heq | ⟨-, -, x, -, ⟨o, known, prev, next, hpc, -⟩, -⟩
    · exact heq
    · exact absurd hpc (hno o known prev x next)
  have hself : ∀ (x : World) (pc : Pc), (x.goto t pc).pc t = pc := fun x pc =>
    Function.update_self _ _ _
  -- The collector at hand is taken out of the chain, so that it is not the one.
  have hcut : ∀ {o known prev x next}, w.base.pc t = .unlink o known prev x next →
      Cutting w.base t x → Ahead g'.chain d next := by
    intro o known prev x next hpc hx
    rw [hpc] at hu
    rcases hcases with heq | ⟨front, rest, e, hc, ⟨o', known', prev', next', hpc', -⟩, hc'⟩
    · exact absurd heq (hne x hx)
    · cases hpc.symm.trans hpc'
      have hnodup : (front ++ x :: rest).Nodup := hc ▸ (List.nodup_append.mp h.chain.nodup).1
      rw [hc] at hu
      rw [hc'] at hd ⊢
      rcases hu with rfl | ha
      · exact absurd hd (List.nodup_cons.mp (List.nodup_middle.mp hnodup)).1
      · exact ha.cut hnodup
  cases hm with
  | knownEpoch o current hpc =>
    rw [hpc] at hu
    rw [hself, hsame (by rw [hpc]; exact nofun)]
    exact hu
  | scanOwn o known prev hpc =>
    have ho : o ≠ d := by
      rintro rfl
      cases hi.symm.trans (h.owning.owns (show own (w.base.pc t) = some o by rw [hpc]; rfl)).2.1
    rw [hpc] at hu
    rw [hself, hsame (by rw [hpc]; exact nofun)]
    exact (Ahead.after hu hlinked ho).ahead
  | scanLoad o known prev x hpc hx =>
    rw [hpc] at hu
    rw [hself, hsame (by rw [hpc]; exact nofun)]
    exact ⟨hu, fun he => he ▸ hi⟩
  | nextInvalid o known prev x state hpc hv =>
    rw [hpc] at hu
    rw [hself, hsame (by rw [hpc]; exact nofun)]
    by_cases hx : x = d
    · exact .inl hx
    · exact .inr (hu.1.after hlinked hx)
  | nextPass o known prev x state hpc hv hp =>
    rw [hpc] at hu
    rw [hself, hsame (by rw [hpc]; exact nofun)]
    have hx : x ≠ d := fun hx => (by cases hv.symm.trans (hu.2 hx))
    exact (hu.1.after hlinked hx).ahead
  | nextBreak o known prev x state hpc hv hk =>
    unfold abandoning at hab
    rw [hpc] at hab
    simp [hv, hk.1, hk.2] at hab
  | unlinkFail o known x next hpc hx =>
    unfold abandoning at hab
    rw [hpc] at hab
    simp [hx] at hab
  | store o known prev hpc =>
    rw [hpc] at hu
    obtain ⟨front, rest, -, hcur, hmem⟩ := hu
    rw [List.head?_eq_none_iff.mp hcur.symm] at hmem
    cases hmem
  | unlinkHead o known x next hpc hx =>
    rw [hself]
    exact hcut hpc ⟨o, known, none, next, hpc, fun _ => hx⟩
  | unlinkMid o known p x next hpc =>
    rw [hself]
    exact hcut hpc ⟨o, known, some p, next, hpc, nofun⟩
  | allocBegin hpc | allocRetry o p hpc | allocDone o p hpc | publishSame o e hpc
    | publishQuiet o e hpc | publishRotate o e hpc | drainDone o hpc | drainInst o i rest hpc
    | drainCollector o x rest hpc | destructor o rest hpc | endScan o hpc | endQuiet o u hpc
    | lockFail o hpc | lock o hpc | unlock o hpc | setInactive o hpc
    | markScanEnforced tag hpc =>
    rw [hpc] at hw
    cases hw
  | load o hu' | user o f hu' | collect o hu' | suspendNone ha o hu' | suspend o hu' =>
    rcases Owning.user_cases hu' with ⟨hpc, -⟩ | ⟨rest, hpc⟩ <;> rw [hpc] at hw <;> cases hw

/-- No obsolete collector in the chain is forgotten. -/
def Requested (w : Process) (g : Ghost) : Prop := ∀ d ∈ g.chain, Invalid w.base d → Pending w g d

/-- The condition on a step: when it leaves an obsolete collector behind, the mark is set
again, or will be, or no obsolete collector is linked. -/
def Careful (w : Process) (t : Tid) : Prop :=
  abandoning w.base t = true → w.base.chainHead.tag = .both ∨ (∃ t', marker w t' = true) ∨
    ∀ d, InChain w.base d → ¬Invalid w.base d

/-- A careful step forgets no obsolete collector. -/
theorem Requested.step {a : Process.Act} (hr : Requested w g) (h : Inv w g) (h' : Inv w' g')
    (hg : GhostStep w t g g') (hm : Move w t a w') (hab : Careful w t) : Requested w' g' := by
  intro d hd hi'
  have hempty : w'.base.chainHead.addr ≠ none := by
    intro hn
    have hl := h'.chain.linked
    rw [hn] at hl
    rw [hl.eq_nil] at hd
    cases hd
  have hmarker : ∀ {t'}, marker w t' = true → Pending w' g' d := by
    intro t' hk
    by_cases ht : t' = t
    · subst ht
      rcases marker_step hm hk with hk | hk | hk
      · exact .inr (.inl ⟨t', hk⟩)
      · exact .inl hk
      · exact absurd hk hempty
    · refine .inr (.inl ⟨t', ?_⟩)
      unfold marker at hk ⊢
      rwa [hm.stage_of_ne ht, hm.pc_of_ne ht]
  have hmarked : Marked w.base → Pending w' g' d := by
    intro hk
    rcases marked_step hm hk with hk | hk | ⟨c, -, hpc⟩
    · exact .inl hk
    · exact .inr (.inl ⟨t, hk⟩)
    · -- The scan that takes the mark away has the whole chain ahead.
      refine .inr (.inr ⟨t, ?_⟩)
      rw [hpc]
      exact ⟨[], g'.chain, rfl, h'.chain.linked.head_eq, hd⟩
  rcases invalid_or_marker hm hi' with hi | hk
  · rcases hg.mem hd with hold | hpc
    · rcases hr d hold hi with hk | ⟨t', hk⟩ | ⟨t', hu⟩
      · exact hmarked hk
      · exact hmarker hk
      · have hw := walking_of_unwalked hu
        by_cases ht : t' = t
        · subst ht
          cases hb : abandoning w.base t' with
          | true =>
            rcases hab hb with hk | ⟨t₁, hk⟩ | hno
            · exact hmarked (.inr hk)
            · exact hmarker hk
            · exact absurd hi (hno d ((inChain_iff h).mpr hold))
          | false =>
            obtain ⟨act, hs⟩ := hm.base_of_busy fun hpc => (by rw [hpc] at hw; cases hw)
            refine .inr (.inr ⟨t', hu.step h hg (fun x hx heq => ?_) (Proofs.move_of_step hs)
              hi hd hb⟩)
            exact chain_ne_of_cutting h hm hx (heq ▸ h'.chain.linked)
        · have hlocks : locks w t' = true := by
            unfold locks
            rw [locking_of_walking hw]
            rfl
          obtain ⟨pre, hpre⟩ := hg.of_other h hlocks fun he => ht he.symm
          refine .inr (.inr ⟨t', ?_⟩)
          rw [hpre, hm.pc_of_ne ht]
          exact hu.frame pre
    · -- A collector under preparation is not obsolete.
      exact absurd (Owning.holds_of_alloc hpc) (holds_ne_of_invalid h.owning hi)
  · exact .inr (.inl ⟨t, hk⟩)

/-- A thread that will set the mark has a request to finish. -/
theorem requesting_of_marker (h : marker w t = true) : requesting w t = true := by
  unfold marker at h
  unfold requesting
  rw [Bool.or_eq_true] at h ⊢
  refine h.imp_right fun hs => ?_
  cases hst : w.stage t with
  | lockChain | walk | walkNext | unlockChain | markScanEnforced => rfl
  | _ =>
    rw [hst] at hs
    cases hs

/-- No request for a scan is lost in a run of careful steps: when the chain is unlocked and
no thread has a request to finish, the mark is set if an obsolete collector is linked. -/
theorem mark_of_invalid {w : Process} (h : Run Process.step (fun w a => Careful w a.tid) .init w)
    (hl : ¬Locked w.base) (hr : ∀ t, requesting w t = false) {d : CollectorId}
    (hd : InChain w.base d) (hi : Invalid w.base d) : w.base.chainHead.tag = .second := by
  obtain ⟨g, hg, hreq⟩ : ∃ g, Inv w g ∧ Requested w g := by
    refine h.invariant (fun w => ∃ g, Inv w g ∧ Requested w g) ⟨_, inv_init, nofun⟩ ?_
    rintro x a x' ⟨g, hg, hreq⟩ hp hs
    have hm := move_of_step hs
    obtain ⟨g', hg', hghost⟩ := hg.step hm
    exact ⟨g', hg', hreq.step hg hg' hghost hm hp⟩
  rcases hreq d ((inChain_iff hg).mp hd) hi with hk | ⟨t, hk⟩ | ⟨t, hu⟩
  · exact hk.resolve_right fun hb => hl (.inr hb)
  · cases (hr t).symm.trans (requesting_of_marker hk)
  · refine absurd (hg.locked t ?_) hl
    unfold locks
    rw [locking_of_walking (walking_of_unwalked hu)]
    rfl

/-- A thread that takes no step stays where it is. -/
theorem idle_of_run {n : Nat} {w : Process} (h : Run Process.step (fun _ a => a.tid < n) .init w)
    {t : Tid} (ht : n ≤ t) : w.base.pc t = .idle ∧ w.stage t = .unused := by
  refine h.invariant (fun w => w.base.pc t = .idle ∧ w.stage t = .unused) ⟨rfl, rfl⟩ ?_
  rintro x a x' ⟨hpc, hs⟩ ha hstep
  have hne : t ≠ a.tid := fun he => Nat.lt_irrefl _ (Nat.lt_of_lt_of_le ha (he ▸ ht))
  have hm := move_of_step hstep
  rw [hm.pc_of_ne hne, hm.stage_of_ne hne]
  exact ⟨hpc, hs⟩

/-- Who has a request to finish, in a run of the threads below `n`. -/
theorem not_requesting_of_run {n : Nat} {w : Process}
    (h : Run Process.step (fun _ a => a.tid < n) .init w)
    (hn : (List.range n).all (fun t => !requesting w t) = true) (t : Tid) :
    requesting w t = false := by
  by_cases ht : t < n
  · simpa using List.all_eq_true.mp hn t (List.mem_range.mpr ht)
  · obtain ⟨hpc, hs⟩ := idle_of_run h (Nat.le_of_not_lt ht)
    unfold requesting
    rw [hpc, hs]
    rfl

/-- For the concrete runs below: a thread retires an instance and suspends. -/
def suspending (t : Tid) : List Action :=
  [⟨t, .newGuard⟩, ⟨t, .proceed⟩, ⟨t, .collect⟩, ⟨t, .endGuard⟩, ⟨t, .proceed⟩,
    ⟨t, .passGarbage⟩, ⟨t, .proceed⟩]

/-- A thread that suspends leaves its collector and the mark. -/
theorem mark_of_invalid_suspended : ∃ w : Process, Invalid w.base 0 ∧ InChain w.base 0 ∧
    w.base.chainHead.tag = .second := by
  have h : (exec Process.step (fun w a => a.tid < 1 && !abandoning w.base a.tid) .init
      (steps (register 0 ++ suspending 0))).any (fun w => (w.base.collectors 0).state.invalid &&
        w.base.chainHead.tag == .second && w.base.chainHead.addr == some 0 &&
        (w.base.collectors 0).nextLink == none &&
        (List.range 1).all fun t => !requesting w t) = true := by
    decide
  obtain ⟨w, hw, h⟩ := Run.of_exec_any h
  simp only [Bool.and_eq_true, beq_iff_eq] at h
  obtain ⟨⟨⟨⟨hi, htag⟩, haddr⟩, hnext⟩, hall⟩ := h
  have hin : InChain w.base 0 := ⟨[0], ⟨haddr, hnext⟩, List.mem_cons_self⟩
  refine ⟨w, hi, hin, mark_of_invalid (hw.mono fun x a hx hab => ?_) ?_
    (not_requesting_of_run (hw.mono fun x a hx => ?_) hall) hin hi⟩
  · simp [hab] at hx
  · unfold Locked
    rw [htag]
    simp
  · simp only [Bool.and_eq_true, decide_eq_true_eq] at hx
    exact hx.1

/-- A thread suspends, and a scan stops at the guard of another one before it has found the
obsolete collector. The mark is lost. -/
theorem scan_request_lost : ∃ w : Process, ∃ d, Run Process.step (fun _ _ => True) .init w ∧
    ¬Locked w.base ∧ (∀ t, requesting w t = false) ∧ InChain w.base d ∧ Invalid w.base d ∧
      w.base.chainHead.tag ≠ .second := by
  have h : (exec Process.step (fun _ a => decide (a.tid < 3)) .init (steps (register 0 ++ register 1 ++
      register 2 ++ [⟨1, .newGuard⟩, ⟨1, .proceed⟩] ++ scanning 2 ++ proceed 2 10 ++ suspending 0 ++
      scanning 2 ++ proceed 2 7))).any (fun w => (w.base.collectors 0).state.invalid &&
        w.base.chainHead == ⟨some 2, .none⟩ && (w.base.collectors 2).nextLink == some 1 &&
        (w.base.collectors 1).nextLink == some 0 && (w.base.collectors 0).nextLink == none &&
        (List.range 3).all fun t => !requesting w t) = true := by
    decide +kernel
  obtain ⟨w, hw, h⟩ := Run.of_exec_any h
  simp only [Bool.and_eq_true, beq_iff_eq] at h
  obtain ⟨⟨⟨⟨⟨hi, hhead⟩, h₂⟩, h₁⟩, h₀⟩, hall⟩ := h
  refine ⟨w, 0, hw.mono fun _ _ _ => trivial, ?_,
    not_requesting_of_run (hw.mono fun _ _ hx => of_decide_eq_true hx) hall,
    ⟨[2, 1, 0], ⟨by rw [hhead], h₂, h₁, h₀⟩, by simp⟩, hi, ?_⟩
  · unfold Locked
    rw [hhead]
    simp
  · rw [hhead]
    nofun

end Sdd.Proofs.Exit
