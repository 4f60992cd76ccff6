import Sdd.Proofs.Exit.Obsolete

/-!
# `Sdd.Proofs.Exit.Integrity`: the chain of collectors

What the invariant of `Sdd.Proofs.Exit.Chain` says about the links in memory, without the
ghost state. `InChain` is reachability from `chain_head`, `Linking` and `Unlinking` are the
writes that put a collector into the chain and take collectors out of it.
`chain_integrity` is the result.
-/

set_option autoImplicit false

namespace Sdd.Proofs.Exit

open Process (Stage)
open Sdd.Collector Sdd.Lib

variable {t : Tid} {act : Act} {w w' : Process} {g g' : Ghost} {c d : CollectorId}

/-- The collector is reachable from `chain_head`. -/
def InChain (b : World) (c : CollectorId) : Prop :=
  ∃ l, Linked (nextLinks b) b.chainHead.addr l ∧ c ∈ l

/-- The next step of the thread is the write in `alloc` that puts the collector into the
chain. -/
def Linking (w : Process) (t : Tid) (c : CollectorId) : Prop :=
  w.base.pc t = .alloc c w.base.chainHead

/-- The next step of the thread is a write that takes the collector out of the chain: in
`scan` it takes this one, in `clear_chain` all that are linked. -/
def Unlinking (w : Process) (t : Tid) (d : CollectorId) : Prop :=
  Cutting w.base t d ∨
    InChain w.base d ∧ ∃ temp, w.stage t = .walk temp w.base.chainHead.addr none

/-- The next step of the thread is `unlock_chain`. -/
def Unlocking (w : Process) (t : Tid) : Prop :=
  (∃ c, w.base.pc t = .unlockChain c) ∨ ∃ temp cleared, w.stage t = .unlockChain temp cleared

/-- The ghost state lists the collectors that are reachable. -/
theorem inChain_iff (h : Inv w g) : InChain w.base c ↔ c ∈ g.chain := by
  constructor
  · rintro ⟨l, hl, hc⟩
    rwa [hl.unique h.chain.linked] at hc
  · exact fun hc => ⟨g.chain, h.chain.linked, hc⟩

/-! ## The lock -/

/-- Only `unlock_chain` releases the lock, in the thread that holds it. -/
theorem unlocking_of_release {a : Process.Act} (hm : Move w t a w') (hl : Locked w.base)
    (hl' : ¬Locked w'.base) : Unlocking w t ∧ locks w t = true := by
  cases hm with
  | base act b hu ha hs =>
    cases lockEffect (Proofs.move_of_step hs) with
    | same hlock hlocked => exact absurd (hlocked.mpr hl) hl'
    | acquire c hpc hfree => exact absurd hl hfree
    | release c hpc =>
      refine ⟨.inl ⟨c, hpc⟩, ?_⟩
      unfold locks
      rw [hpc]
      rfl
  | exit ha hs hpc =>
    refine absurd ?_ hl'
    unfold Locked
    rw [exit_chainHead]
    exact hl
  | lock temp hs hpc hf hb => exact absurd hl fun h => h.elim hf hb
  | unlock temp cleared hs hpc =>
    refine ⟨.inr ⟨temp, cleared, hs⟩, ?_⟩
    unfold locks
    rw [hs]
    exact Bool.or_true _
  | mark temp hs hpc =>
    refine absurd ?_ hl'
    show Locked w.base.markScanEnforced
    rcases hl with htag | htag <;>
      · unfold Locked World.markScanEnforced
        rw [htag]
        simp [htag]
  | lockFail | walkStop | walkPass | walkNext | take | takeFail | free | freeDone | loopDone
    | loopInst | loopCollector | loopReturn | clear | done => exact absurd hl hl'

/-! ## Links -/

/-- A collector gets into the chain by `alloc` only. -/
theorem GhostStep.mem (hg : GhostStep w t g g') (hc : c ∈ g'.chain) :
    c ∈ g.chain ∨ w.base.pc t = .alloc c w.base.chainHead := by
  cases hg with
  | keep | free => exact .inl hc
  | take => cases hc
  | cut front rest e hchain hi hl =>
    refine .inl ?_
    rw [hchain]
    exact (List.Sublist.append_left (List.sublist_cons_self e rest) front).subset hc
  | push d hpc =>
    rcases List.mem_cons.mp hc with rfl | hc
    · exact .inr hpc
    · exact .inl hc

/-- A collector that leaves the chain is obsolete, and a write takes it out. -/
theorem unlinking_of_gone (hg : GhostStep w t g g') (h : Inv w g) (hd : d ∈ g.chain)
    (hd' : d ∉ g'.chain) : Unlinking w t d ∧ Invalid w.base d := by
  cases hg with
  | keep => exact absurd hd hd'
  | push c hpc => exact absurd (List.mem_cons_of_mem c hd) hd'
  | cut front rest e hc hi hl =>
    have hde : d = e := by
      rw [hc] at hd
      by_contra hne
      refine hd' ?_
      simpa [hne] using hd
    exact hde ▸ ⟨.inl hl, hi⟩
  | take hi hf hs => exact ⟨.inr ⟨(inChain_iff h).mpr hd, hs⟩, hi d hd⟩
  | free e rest hf hl => exact absurd hd hd'

/-- The write in `scan` that takes a collector out of the chain changes the chain. -/
theorem chain_ne_of_cutting {a : Process.Act} (h : Inv w g) (hm : Move w t a w')
    (hd : Cutting w.base t d) : ¬Linked (nextLinks w'.base) w'.base.chainHead.addr g.chain := by
  intro hl'
  obtain ⟨c, known, prev, next, hpc, hh⟩ := hd
  have hwalks := h.walks t
  rw [hpc] at hwalks
  obtain ⟨front, rest, hc, hb, hn, hi, hdc⟩ := hwalks
  have hl := h.chain.linked
  have hnodup : g.chain.Nodup := (List.nodup_append.mp h.chain.nodup).1
  rw [hc] at hl hl' hnodup
  have hidle : w.base.pc t ≠ .idle := by
    rw [hpc]
    nofun
  obtain ⟨act, hs⟩ := hm.base_of_busy hidle
  have hbase : w.base.proceed t = some w'.base := (proceed_of_step hs hidle (by rw [hpc]; nofun)).2
  unfold World.proceed at hbase
  rw [hpc] at hbase
  refine head_ne_of_nodup hnodup (hn.symm.trans ?_)
  have hw : w.base.unlink t c known prev d next = w'.base := Option.some.inj hbase
  unfold World.unlink at hw
  cases prev with
  | none =>
    have hhead := hh rfl
    obtain rfl : front = [] := front_eq_nil hl hnodup hhead
    rw [if_pos hhead] at hw
    have haddr : w'.base.chainHead.addr = next := by rw [← hw]; rfl
    exact haddr.symm.trans hl'.head_eq
  | some p =>
    obtain ⟨f, rfl⟩ := hb p rfl
    rw [List.append_assoc] at hl'
    have hlink : nextLinks w'.base p = next := by
      rw [← hw]
      exact (nextLinks_cutMid p).trans (Function.update_self _ _ _)
    exact hlink.symm.trans (next_eq_head hl')

/-- The write in `clear_chain` that takes the chain leaves it empty. -/
theorem chainHead_of_taking {a : Process.Act} {temp : CollectorId} (hm : Move w t a w')
    (hs : w.stage t = .walk temp w.base.chainHead.addr none) : w'.base.chainHead.addr = none := by
  cases hm with
  | take temp' head hs' hpc hh => rfl
  | takeFail temp' head hs' hpc hh =>
    cases hs.symm.trans hs'
    exact absurd rfl hh
  | base act b hu ha hb =>
    rw [hs] at hu
    cases hu
  | loopDone running destructor finished hl hs' | loopInst running destructor finished hl i rest hs'
    | loopCollector running destructor finished hl e rest hs'
    | loopReturn running destructor finished hl rest hs' =>
    cases hl <;> cases hs.symm.trans hs'
  | exit ha hs' | lockFail temp' hs' | lock temp' hs' | walkStop temp' e head hs'
    | walkPass temp' e head hs' | walkNext temp' e head hs' | free temp' e hs'
    | freeDone temp' hs' | unlock temp' cleared hs' | mark temp' hs' | clear temp' hs'
    | done temp' hs' => cases hs.symm.trans hs'

/-- The write in `scan` takes the collector out of the chain. -/
theorem GhostStep.of_cutting {a : Process.Act} (hg : GhostStep w t g g') (h : Inv w g)
    (h' : Inv w' g') (hm : Move w t a w') (hd : Cutting w.base t d) :
    ∃ front rest, g.chain = front ++ d :: rest ∧ g'.chain = front ++ rest ∧
      g'.freeing = g.freeing := by
  have hne := chain_ne_of_cutting h hm hd
  obtain ⟨o, known, prev, next, hpc, -⟩ := hd
  have hapart : holding (w.stage t) = false := h.apart t (by rw [hpc]; rfl)
  cases hg with
  | keep => exact absurd h'.chain.linked hne
  | push c' hpc' => cases hpc.symm.trans hpc'
  | cut front rest e hc hi hl =>
    obtain ⟨o', known', prev', next', hpc', -⟩ := hl
    cases hpc.symm.trans hpc'
    exact ⟨front, rest, hc, rfl, rfl⟩
  | take hi hf hs =>
    obtain ⟨temp, hs⟩ := hs
    rw [hs] at hapart
    cases hapart
  | free e rest' hf hs =>
    obtain ⟨temp, hs⟩ := hs
    rw [hs] at hapart
    cases hapart

/-- A write that takes a collector out of the chain finds it there, and it is gone
afterwards. -/
theorem gone_of_unlinking {a : Process.Act} (h : Inv w g) (h' : Inv w' g')
    (hg : GhostStep w t g g') (hm : Move w t a w') (hd : Unlinking w t d) :
    d ∈ g.chain ∧ d ∉ g'.chain := by
  rcases hd with hcut | ⟨hin, temp, hs⟩
  · obtain ⟨front, rest, hc, hc', -⟩ := hg.of_cutting h h' hm hcut
    have hnodup : g.chain.Nodup := (List.nodup_append.mp h.chain.nodup).1
    rw [hc] at hnodup
    rw [hc, hc']
    exact ⟨List.mem_append_right front List.mem_cons_self,
      (List.nodup_cons.mp (List.nodup_middle.mp hnodup)).1⟩
  · refine ⟨(inChain_iff h).mp hin, ?_⟩
    have hl' := h'.chain.linked
    rw [chainHead_of_taking hm hs] at hl'
    rw [hl'.eq_nil]
    exact List.not_mem_nil

/-! ## Runs -/

/-- A collector that is linked stays in the chain until it is obsolete. -/
def Kept (c : CollectorId) (w : Process) : Prop :=
  ∃ g, Inv w g ∧ c < w.base.nextCollector ∧ (c ∈ g.chain ∨ Invalid w.base c)

/-- A collector that was linked and is not in the chain any more. -/
def Gone (c : CollectorId) (w : Process) : Prop :=
  ∃ g, Inv w g ∧ c ∉ g.chain ∧ c < w.base.nextCollector ∧ ∀ t p, w.base.pc t ≠ .alloc c p

/-- Collectors are only allocated. -/
theorem nextCollector_le {a : Process.Act} (hm : Move w t a w') :
    w.base.nextCollector ≤ w'.base.nextCollector := by
  rcases hm.cases_aside with ⟨act, b', hb, rfl⟩ | ⟨-, -, rfl⟩ | ⟨-, ha⟩
  · exact hb.nextCollector_le
  · rw [exit_nextCollector]
    exact Nat.le_succ _
  · exact Nat.le_of_eq ha.next.symm

/-- An obsolete collector stays obsolete. -/
theorem invalid_step {a : Process.Act} (h : Inv w g) (hm : Move w t a w')
    (hc : c < w.base.nextCollector) (hi : Invalid w.base c) : Invalid w'.base c := by
  rcases hm.cases_aside with ⟨act, b', hb, rfl⟩ | ⟨-, -, rfl⟩ | ⟨-, ha⟩
  · exact invalid_stays h.owning hb hc hi
  · exact exit_invalid w t hc hi
  · unfold Invalid
    rw [show (w'.base.collectors c).state = (w.base.collectors c).state from
      congrArg Prod.fst (ha.core c)]
    exact hi

theorem Kept.step {a : Process.Act} (h : Kept c w) (hm : Move w t a w') : Kept c w' := by
  obtain ⟨g, hg, hlt, hc⟩ := h
  obtain ⟨g', hg', hghost⟩ := hg.step hm
  refine ⟨g', hg', Nat.lt_of_lt_of_le hlt (nextCollector_le hm), ?_⟩
  rcases hc with hc | hi
  · by_cases hc' : c ∈ g'.chain
    · exact .inl hc'
    · exact .inr (invalid_step hg hm hlt (unlinking_of_gone hghost hg hc hc').2)
  · exact .inr (invalid_step hg hm hlt hi)

/-- Nobody prepares a collector that exists. -/
theorem alloc_of_step {a : Process.Act} (hm : Move w t a w') {t' : Tid} {p : Ptr CollectorId}
    (hpc : w'.base.pc t' = .alloc c p) :
    (∃ q, w.base.pc t' = .alloc c q) ∨ c = w.base.nextCollector := by
  rcases hm.cases_aside with ⟨act, b', hb, rfl⟩ | ⟨-, -, rfl⟩ | ⟨-, ha⟩
  · by_cases ht : t' = t
    · subst ht
      exact (alloc_back hb hpc).imp_right And.right
    · exact .inl ⟨p, (hb.pc_of_ne ht).symm.trans hpc⟩
  · rw [exit_pc] at hpc
    exact .inl ⟨p, hpc⟩
  · exact .inl ⟨p, (congrFun ha.pc t').symm.trans hpc⟩

theorem Gone.step {a : Process.Act} (h : Gone c w) (hm : Move w t a w') : Gone c w' := by
  obtain ⟨g, hg, hc, hlt, hno⟩ := h
  obtain ⟨g', hg', hghost⟩ := hg.step hm
  refine ⟨g', hg', fun hc' => ?_, Nat.lt_of_lt_of_le hlt (nextCollector_le hm),
    fun t' p hpc => ?_⟩
  · rcases hghost.mem hc' with hold | hpc
    · exact hc hold
    · exact hno t _ hpc
  · rcases alloc_of_step hm hpc with ⟨q, hq⟩ | rfl
    · exact hno t' q hq
    · exact Nat.lt_irrefl _ hlt

/-- The write in `alloc` gives the thread its collector, in the chain. -/
theorem kept_of_linking (h : Inv w g) (hl : Linking w t c)
    (hs : w.step ⟨t, .base .proceed⟩ = some w') : Kept c w' := by
  have hm := move_of_step hs
  obtain ⟨g', hg', -⟩ := h.step hm
  obtain ⟨hb, hstage⟩ := base_of_step hs
  have hlocal : w'.base.localCollector t = some c := by
    have hp : w.base.proceed t = some w'.base := hb
    unfold World.proceed at hp
    rw [show w.base.pc t = .alloc c w.base.chainHead from hl] at hp
    rw [← Option.some.inj ((if_pos rfl).symm.trans hp)]
    exact Function.update_self _ _ _
  have htemp' : (w'.stage t).temp = (w.stage t).temp := by
    rw [hstage, Function.update_self, used_temp]
  refine ⟨g', hg', Nat.lt_of_lt_of_le (h.owning.fresh t c (Owning.holds_of_alloc hl))
    (nextCollector_le hm), .inl ?_⟩
  rcases hg'.chain.mem t c hlocal with hc | htemp
  · exact hc
  · -- A thread with a temporary collector does not allocate one.
    refine absurd hl (h.temps.noAlloc t ?_ c _)
    rw [← htemp', htemp]
    nofun

/-- A step that takes a collector out of the chain. -/
theorem gone_of_step {a : Process.Act} (h : Inv w g) (hm : Move w t a w') (hd : Unlinking w t d) :
    InChain w.base d ∧ Invalid w.base d ∧ Gone d w' := by
  obtain ⟨g', hg', hghost⟩ := h.step hm
  obtain ⟨hin, hout⟩ := gone_of_unlinking h hg' hghost hm hd
  have hlt : d < w.base.nextCollector := h.chain.fresh d (List.mem_append_left _ hin)
  refine ⟨(inChain_iff h).mpr hin, (unlinking_of_gone hghost h hin hout).2, g', hg', hout,
    Nat.lt_of_lt_of_le hlt (nextCollector_le hm), fun t' p hpc => ?_⟩
  rcases alloc_of_step hm hpc with ⟨q, hq⟩ | rfl
  · exact h.chain.preparing t' d q hq (List.mem_append_left _ hin)
  · exact Nat.lt_irrefl _ hlt

/-- The integrity of the chain of collectors. In every state that a run reaches:

* at most one thread holds the lock, and a step that releases it is the `unlock_chain` of
  that thread;
* the chain is finite and no collector occurs twice;
* a collector that `alloc` links is reachable from `chain_head` from then on, until it is
  obsolete;
* a collector leaves the chain exactly by the writes that take it out; then it is obsolete,
  and it never gets back, so that no other write takes it out. -/
theorem chain_integrity {w : Process} (h : Run Process.step (fun _ _ => True) .init w) :
    (∀ t t', locks w t = true → locks w t' = true → t = t') ∧
    (∀ a w', w.step a = some w' → Locked w.base → ¬Locked w'.base →
      Unlocking w a.tid ∧ locks w a.tid = true) ∧
    (∃ l, Linked (nextLinks w.base) w.base.chainHead.addr l ∧ l.Nodup) ∧
    (∀ t c w' w'', Linking w t c → w.step ⟨t, .base .proceed⟩ = some w' →
      Run Process.step (fun _ _ => True) w' w'' → ¬Invalid w''.base c → InChain w''.base c) ∧
    (∀ a d w', w.step a = some w' → InChain w.base d → ¬InChain w'.base d →
      Unlinking w a.tid d) ∧
    (∀ a d w' w'', w.step a = some w' → Unlinking w a.tid d →
      Run Process.step (fun _ _ => True) w' w'' →
        InChain w.base d ∧ Invalid w.base d ∧ ¬InChain w''.base d ∧
          ∀ t, ¬Unlinking w'' t d) := by
  obtain ⟨g, hg⟩ := inv_of_run h
  refine ⟨hg.unique, fun a w' hs => unlocking_of_release (move_of_step hs),
    ⟨g.chain, hg.chain.linked, (List.nodup_append.mp hg.chain.nodup).1⟩, ?_, ?_, ?_⟩
  · intro t c w' w'' hl hs hr hi
    obtain ⟨g'', hg'', -, hc⟩ := hr.invariant (Kept c) (kept_of_linking hg hl hs)
      fun x a x' hk _ hs' => hk.step (move_of_step hs')
    exact (inChain_iff hg'').mpr (hc.resolve_right hi)
  · intro a d w' hs hd hd'
    obtain ⟨g', hg', hghost⟩ := hg.step (move_of_step hs)
    exact (unlinking_of_gone hghost hg ((inChain_iff hg).mp hd) fun hc =>
      hd' ((inChain_iff hg').mpr hc)).1
  · intro a d w' w'' hs hd hr
    obtain ⟨hin, hi, hgone⟩ := gone_of_step hg (move_of_step hs) hd
    obtain ⟨g'', hg'', hout, -⟩ := hr.invariant (Gone d) hgone
      fun x a x' hk _ hs' => hk.step (move_of_step hs')
    have hno : ¬InChain w''.base d := fun hc => hout ((inChain_iff hg'').mp hc)
    refine ⟨hin, hi, hno, fun t hu => hno ?_⟩
    rcases hu with ⟨c, known, prev, next, hpc, -⟩ | ⟨hc, -⟩
    · have hwalks := hg''.walks t
      rw [hpc] at hwalks
      obtain ⟨front, rest, hc, -⟩ := hwalks
      refine (inChain_iff hg'').mpr ?_
      rw [hc]
      exact List.mem_append_right front List.mem_cons_self
    · exact hc

/-- A thread suspends, and the scan of another one takes its collector out of the chain. -/
theorem chain_integrity_suspended : ∃ w w' : Process, w.step ⟨1, .base .proceed⟩ = some w' ∧
    Invalid w.base 0 ∧ InChain w.base 0 ∧ ¬InChain w'.base 0 := by
  have h : (exec Process.step (fun _ _ => true) .init (steps (register 0 ++ [⟨0, .newGuard⟩,
      ⟨0, .proceed⟩, ⟨0, .collect⟩, ⟨0, .endGuard⟩, ⟨0, .proceed⟩, ⟨0, .passGarbage⟩,
      ⟨0, .proceed⟩] ++ register 1 ++ scanning 1 ++ proceed 1 5))).any (fun w =>
        w.base.pc 1 == .unlink 1 ⟨.default, false, false⟩ (some 1) 0 none &&
        (w.step ⟨1, .base .proceed⟩).isSome) = true := by
    decide
  obtain ⟨w, hw, h⟩ := Run.of_exec_any h
  rw [Bool.and_eq_true, Option.isSome_iff_exists] at h
  obtain ⟨hpc, w', hs⟩ := h
  have hun : Unlinking w 1 0 := .inl ⟨1, _, some 1, none, of_decide_eq_true hpc, nofun⟩
  obtain ⟨-, -, -, -, -, hall⟩ := chain_integrity (hw.mono fun _ _ _ => trivial)
  obtain ⟨hin, hi, hout, -⟩ := hall ⟨1, .base .proceed⟩ 0 w' w' hs hun .refl
  exact ⟨w, w', hs, hi, hin, hout⟩

end Sdd.Proofs.Exit
