import Sdd.Proofs.Exit.Chain

/-!
# `Sdd.Proofs.Exit.Stages`: the steps of the exit path

The steps of `CollectorAnchor::drop` keep the invariant of `Sdd.Proofs.Exit.Chain`. Most of
them do not touch what the invariant speaks of (`Quiet`); the others take the chain, free
a collector, or begin or end the exit path. `step` puts them together with the steps of the
collector.
-/

set_option autoImplicit false

namespace Sdd.Proofs.Exit

open Process (Stage)
open Sdd.Collector Sdd.Lib

variable {b b' : World} {t : Tid} {act : Act} {w : Process} {g g' : Ghost}

/-- A write outside of the cores keeps what the threads know of their collectors. -/
theorem owning_congr (h : Owning b) (hpc : b'.pc = b.pc)
    (hlocal : b'.localCollector = b.localCollector) (hnext : b'.nextCollector = b.nextCollector)
    (hcore : ∀ c, core (b'.collectors c) = core (b.collectors c)) : Owning b' := by
  have hholds : ∀ t', holds b' t' = holds b t' := by
    intro t'
    unfold holds
    rw [hpc, hlocal]
  refine ⟨fun t' c hl => ?_, fun c hc => ?_, fun t' hl => ?_, fun t₁ t₂ c h₁ h₂ => ?_,
    fun t' c hc => ?_⟩
  · rw [hlocal] at hl
    obtain ⟨hv, ho⟩ := h.registered t' c hl
    have hs : (b'.collectors c).state = (b.collectors c).state := congrArg Prod.fst (hcore c)
    rw [hs, hpc]
    exact ⟨hv, ho.congr (hcore c)⟩
  · have hs : (b'.collectors c).state = (b.collectors c).state := congrArg Prod.fst (hcore c)
    have ha : (b'.collectors c).announcement = (b.collectors c).announcement :=
      congrArg (·.2.1) (hcore c)
    rw [hs] at hc ⊢
    rw [ha]
    exact h.announced c hc
  · rw [hlocal] at hl
    rw [hpc]
    exact (h.unregistered t' hl).congr fun c _ _ => hcore c
  · rw [hholds] at h₁ h₂
    exact h.inj t₁ t₂ c h₁ h₂
  · rw [hholds] at hc
    rw [hnext]
    exact h.fresh t' c hc

/-- What a step of the exit path does to the lock. -/
inductive StageLock (w : Process) (t : Tid) (b' : World) (s : Stage) : Prop where
  | same (hl : holding s = holding (w.stage t)) (hlocked : Locked b' ↔ Locked w.base)
  | acquire (hfree : ¬Locked w.base) (hlocked : Locked b') (hs : holding (w.stage t) = false)
  | release (hl : holding (w.stage t) = true) (hs : holding s = false)

/-- The process after a step of the exit path. -/
def afterExit (w : Process) (t : Tid) (b' : World) (s : Stage) (freed : List CollectorId) :
    Process :=
  ⟨b', Function.update w.stage t s, freed⟩

variable {s : Stage} {freed : List CollectorId}

/-- The thread is at the given stage. -/
theorem afterExit_self : (afterExit w t b' s freed).stage t = s := Function.update_self _ _ _

/-- The other threads are at the stages where they were. -/
theorem afterExit_of_ne {t' : Tid} (ht : t' ≠ t) :
    (afterExit w t b' s freed).stage t' = w.stage t' := Function.update_of_ne ht _ _

/-- A step of the exit path keeps the lock of one thread. -/
theorem lock_exit (freed : List CollectorId) (h : Inv w g) (hpc : w.base.pc t = .idle)
    (hpcs : b'.pc = w.base.pc)
    (hl : StageLock w t b' s) :
    (∀ t', locks (afterExit w t b' s freed) t' = true → Locked b') ∧
    (∀ t₁ t₂, locks (afterExit w t b' s freed) t₁ = true →
      locks (afterExit w t b' s freed) t₂ = true → t₁ = t₂) ∧
    (∀ t', locking (b'.pc t') = true → holding ((afterExit w t b' s freed).stage t') = false) := by
  have hother : ∀ t', t' ≠ t → locks (afterExit w t b' s freed) t' = locks w t' := by
    intro t' ht
    unfold locks
    rw [afterExit_of_ne ht, show (afterExit w t b' s freed).base = b' from rfl, hpcs]
  have hself : locks (afterExit w t b' s freed) t = holding s := by
    unfold locks
    rw [afterExit_self, show (afterExit w t b' s freed).base = b' from rfl, hpcs, hpc]
    rfl
  have hold : locks w t = holding (w.stage t) := by
    unfold locks
    rw [hpc]
    rfl
  have hapart : ∀ t', locking (b'.pc t') = true →
      holding ((afterExit w t b' s freed).stage t') = false := by
    intro t' ht'
    rw [hpcs] at ht'
    have ht : t' ≠ t := by
      rintro rfl
      rw [hpc] at ht'
      cases ht'
    rw [afterExit_of_ne ht]
    exact h.apart t' ht'
  cases hl with
  | same hl hlocked =>
    have hsame : ∀ t', locks (afterExit w t b' s freed) t' = locks w t' := by
      intro t'
      by_cases ht : t' = t
      · rw [ht, hself, hl, hold]
      · exact hother t' ht
    exact ⟨fun t' ht' => hlocked.mpr (h.locked t' (hsame t' ▸ ht')), fun t₁ t₂ h₁ h₂ =>
      h.unique t₁ t₂ (hsame t₁ ▸ h₁) (hsame t₂ ▸ h₂), hapart⟩
  | acquire hfree hlocked hs =>
    have honly : ∀ t', locks (afterExit w t b' s freed) t' = true → t' = t := by
      intro t' ht'
      by_contra ht
      rw [hother t' ht] at ht'
      exact hfree (h.locked t' ht')
    exact ⟨fun _ _ => hlocked, fun t₁ t₂ h₁ h₂ => (honly t₁ h₁).trans (honly t₂ h₂).symm, hapart⟩
  | release hl hs =>
    have hnone : ∀ t', locks (afterExit w t b' s freed) t' = false := by
      intro t'
      by_cases ht : t' = t
      · rw [ht, hself, hs]
      · rw [hother t' ht]
        cases hlt : locks w t' with
        | false => rfl
        | true => exact absurd (h.unique t' t hlt (hold.trans hl)) ht
    refine ⟨fun t' ht' => ?_, fun t₁ t₂ h₁ _ => ?_, hapart⟩
    · cases (hnone t').symm.trans ht'
    · cases (hnone t₁).symm.trans h₁

/-- A step of the exit path keeps the invariant, if it keeps what the threads know of their
collectors, the chain, and the place where the thread itself stands. -/
theorem Inv.of_exit (h : Inv w g) (hpc : w.base.pc t = .idle) (hpcs : b'.pc = w.base.pc)
    (howning : Owning b') (htemps : Temps (afterExit w t b' s freed))
    (hchain : Chain (afterExit w t b' s freed) g') (hl : StageLock w t b' s)
    (hinv : ∀ d ∈ g.chain, Invalid w.base d → Invalid b' d)
    (hlinks : ∀ d ∈ g.freeing, nextLinks b' d = nextLinks w.base d)
    (hg : g' = g ∨ holding (w.stage t) = true) (hstands : StandsAt b' g' s) :
    Inv (afterExit w t b' s freed) g' := by
  obtain ⟨hlocked, hunique, hapart⟩ := lock_exit freed h hpc hpcs hl
  have hlocks : holding (w.stage t) = true → locks w t = true := fun hh => by
    unfold locks
    rw [hh, Bool.or_true]
  refine ⟨howning, htemps, hchain, hlocked, hunique, hapart, fun t' => ?_, fun t' => ?_⟩
  · show WalksAt b' g'.chain (b'.pc t')
    rw [hpcs]
    rcases hg with rfl | hh
    · exact (h.walks t').frame [] hinv
    · by_cases ht : t' = t
      · rw [ht, hpc]
        trivial
      · exact walksAt_of_not_locking (h.locks_unique (hlocks hh) ht).1
  · by_cases ht : t' = t
    · rw [ht, afterExit_self]
      exact hstands
    · rw [afterExit_of_ne ht]
      rcases hg with rfl | hh
      · exact (h.stands t').frame [] rfl rfl hinv hlinks
      · exact standsAt_of_not_holding (h.locks_unique (hlocks hh) ht).2

/-- The temporary collectors after a step of the exit path that keeps them. -/
theorem temps_exit (h : Inv w g) (hpc : w.base.pc t = .idle) (hpcs : b'.pc = w.base.pc)
    (hlocal : b'.localCollector = w.base.localCollector)
    (hnext : b'.nextCollector = w.base.nextCollector) (htemp : s.temp = (w.stage t).temp) :
    Temps (afterExit w t b' s freed) := by
  have hsame : ∀ t', ((afterExit w t b' s freed).stage t').temp = (w.stage t').temp := by
    intro t'
    by_cases ht : t' = t
    · rw [ht, afterExit_self, htemp]
    · rw [afterExit_of_ne ht]
  have hholds : ∀ t', holds b' t' = holds w.base t' := by
    intro t'
    unfold holds
    rw [hpcs, hlocal]
  refine ⟨fun t' c hc => ?_, fun t₁ t₂ c h₁ h₂ => ?_, fun t₁ t₂ c h₁ h₂ => ?_, fun t' c hc => ?_,
    fun t' hq => ?_, fun t' htp c p hp => ?_⟩
  · rw [hsame] at hc
    show c < b'.nextCollector
    rw [hnext]
    exact h.temps.fresh t' c hc
  · rw [hsame] at h₁ h₂
    exact h.temps.inj t₁ t₂ c h₁ h₂
  · rw [hsame] at h₁
    exact h.temps.held t₁ t₂ c h₁ ((hholds t₂).symm.trans h₂)
  · rw [hsame] at hc
    show b'.localCollector t' = some c ∨ b'.localCollector t' = none
    rw [hlocal]
    exact h.temps.own t' c hc
  · show b'.pc t' = .idle
    rw [hpcs]
    by_cases ht : t' = t
    · rw [ht, hpc]
    · rw [afterExit_of_ne ht] at hq
      exact h.temps.quiet t' hq
  · rw [hsame] at htp
    exact h.temps.noAlloc t' htp c p ((congrFun hpcs t').symm.trans hp)

/-- The chain after a step of the exit path that keeps it, or frees a collector. -/
theorem chain_exit (h : Inv w g) (hpcs : b'.pc = w.base.pc)
    (hlocal : b'.localCollector = w.base.localCollector)
    (hnext : b'.nextCollector = w.base.nextCollector) (htemp : s.temp = (w.stage t).temp)
    (haddr : b'.chainHead.addr = w.base.chainHead.addr)
    (hlinks : ∀ d, nextLinks b' d = nextLinks w.base d)
    (hstate : ∀ d, (b'.collectors d).state = (w.base.collectors d).state)
    {freeing' : List CollectorId} (hsub : freeing'.Sublist g.freeing)
    (hidle : (∀ t', freeing ((afterExit w t b' s freed).stage t') = false) → freeing' = []) :
    Chain (afterExit w t b' s freed) ⟨g.chain, freeing'⟩ := by
  have hsublist : (g.chain ++ freeing').Sublist (g.chain ++ g.freeing) := hsub.append_left _
  have hsame : ∀ t', ((afterExit w t b' s freed).stage t').temp = (w.stage t').temp := by
    intro t'
    by_cases ht : t' = t
    · rw [ht, afterExit_self, htemp]
    · rw [afterExit_of_ne ht]
  refine ⟨?_, hsublist.nodup h.chain.nodup, fun t' c hc => ?_, fun c hc => ?_,
    fun t' c p hp hc => ?_, fun t' c ht hc => ?_, fun c hc => ?_, hidle⟩
  · show Linked (nextLinks b') b'.chainHead.addr g.chain
    rw [haddr]
    exact h.chain.linked.congr fun d _ => hlinks d
  · rw [hsame]
    exact h.chain.mem t' c ((congrFun hlocal t').symm.trans hc)
  · show c < b'.nextCollector
    rw [hnext]
    exact h.chain.fresh c (hsublist.subset hc)
  · exact h.chain.preparing t' c p ((congrFun hpcs t').symm.trans hp) (hsublist.subset hc)
  · rw [hsame] at ht
    exact h.chain.temp t' c ht (hsublist.subset hc)
  · show (b'.collectors c).state.invalid = true
    rw [hstate]
    exact h.chain.invalid c (hsub.subset hc)

/-- The world of the collector keeps everything that the invariant speaks of, apart from
the tag of `chain_head`. -/
structure Quiet (b b' : World) : Prop where
  pc : b'.pc = b.pc
  local_eq : b'.localCollector = b.localCollector
  next : b'.nextCollector = b.nextCollector
  addr : b'.chainHead.addr = b.chainHead.addr
  core : ∀ c, core (b'.collectors c) = core (b.collectors c)
  links : ∀ d, nextLinks b' d = nextLinks b d

/-- Nothing changes. -/
theorem Quiet.refl (b : World) : Quiet b b := ⟨rfl, rfl, rfl, rfl, fun _ => rfl, fun _ => rfl⟩

/-- A collector that is dropped keeps its core and its link. -/
theorem Quiet.cleared (b : World) (d : CollectorId) : Quiet b (b.modify d .cleared) :=
  ⟨rfl, rfl, rfl, rfl, fun _ => core_modify d _ rfl, nextLinks_modify rfl⟩

/-- The state words stay. -/
theorem Quiet.state (h : Quiet b b') (d : CollectorId) :
    (b'.collectors d).state = (b.collectors d).state := congrArg Prod.fst (h.core d)

/-- A step of the exit path that is quiet in the collector, and keeps the chain or frees a
collector of it. -/
theorem Inv.of_quiet (h : Inv w g) (hpc : w.base.pc t = .idle) (hq : Quiet w.base b')
    (htemp : s.temp = (w.stage t).temp) (hl : StageLock w t b' s) {freeing' : List CollectorId}
    (hsub : freeing'.Sublist g.freeing)
    (hf : freeing' = g.freeing ∨ holding (w.stage t) = true)
    (hidle : freeing s = false → freeing (w.stage t) = true → freeing' = [])
    (hstands : StandsAt b' ⟨g.chain, freeing'⟩ s) :
    Inv (afterExit w t b' s freed) ⟨g.chain, freeing'⟩ := by
  refine h.of_exit hpc hq.pc (owning_congr h.owning hq.pc hq.local_eq hq.next hq.core)
    (temps_exit h hpc hq.pc hq.local_eq hq.next htemp)
    (chain_exit h hq.pc hq.local_eq hq.next htemp hq.addr hq.links hq.state hsub ?_) hl
    (fun d _ hi => ?_) (fun d _ => hq.links d) (hf.imp_left fun he => by rw [he]) hstands
  · intro hall
    have hs : freeing s = false := by
      have hself := hall t
      rwa [afterExit_self] at hself
    cases hft : freeing (w.stage t) with
    | true => exact hidle hs hft
    | false =>
      have hnil : g.freeing = [] := h.chain.idle fun t' => by
        by_cases ht : t' = t
        · rw [ht, hft]
        · rw [← hall t', afterExit_of_ne ht]
      exact List.eq_nil_of_subset_nil (hnil ▸ hsub.subset)
  · unfold Invalid
    rw [hq.state]
    exact hi

/-- The same, when nothing is freed. -/
theorem Inv.of_quiet_same (h : Inv w g) (hpc : w.base.pc t = .idle) (hq : Quiet w.base b')
    (htemp : s.temp = (w.stage t).temp) (hl : StageLock w t b' s)
    (hidle : freeing s = freeing (w.stage t) ∨ freeing (w.stage t) = false)
    (hstands : StandsAt b' g s) : Inv (afterExit w t b' s freed) g := by
  refine h.of_quiet hpc hq htemp hl (.refl _) (.inl rfl) (fun hs hft => ?_) hstands
  rcases hidle with hidle | hidle
  · cases (hs.symm.trans hidle).trans hft
  · cases hidle.symm.trans hft

/-- Two places of the exit path that the invariant does not tell apart. -/
structure Alike (s s' : Stage) : Prop where
  temp : s'.temp = s.temp
  holding : holding s' = holding s
  freeing : freeing s' = freeing s
  stands : ∀ b g, StandsAt b g s → StandsAt b g s'

/-- A quiet step between two places that are alike. -/
theorem Inv.of_alike (h : Inv w g) (hpc : w.base.pc t = .idle) (hq : Quiet w.base b')
    (hlocked : Locked b' ↔ Locked w.base) (ha : Alike (w.stage t) s) :
    Inv (afterExit w t b' s freed) g := by
  refine h.of_quiet_same hpc hq ha.temp (.same ha.holding hlocked) (.inl ha.freeing)
    (ha.stands _ _ ?_)
  refine (h.stands t).frame [] rfl rfl (fun d _ hi => ?_) fun d _ => hq.links d
  unfold Invalid
  rw [hq.state]
  exact hi

section loop
variable {running destructor : List Garbage → Stage} {finished : Stage}

/-- The loop goes on to the next instance. -/
theorem Loop.running_alike (hl : Loop running destructor finished) (l r : List Garbage) :
    Alike (running l) (running r) := by
  cases hl with
  | chain temp next => exact ⟨rfl, rfl, rfl, fun _ _ h => h⟩
  | temp temp => exact ⟨rfl, rfl, rfl, fun _ _ h => h⟩

/-- The loop calls a destructor. -/
theorem Loop.destructor_alike (hl : Loop running destructor finished) (l r : List Garbage) :
    Alike (running l) (destructor r) := by
  cases hl with
  | chain temp next => exact ⟨rfl, rfl, rfl, fun _ _ h => h⟩
  | temp temp => exact ⟨rfl, rfl, rfl, fun _ _ h => h⟩

/-- A destructor returns to the loop. -/
theorem Loop.return_alike (hl : Loop running destructor finished) (l r : List Garbage) :
    Alike (destructor l) (running r) := by
  cases hl with
  | chain temp next => exact ⟨rfl, rfl, rfl, fun _ _ h => h⟩
  | temp temp => exact ⟨rfl, rfl, rfl, fun _ _ h => h⟩

/-- The loop is done. -/
theorem Loop.finished_alike (hl : Loop running destructor finished) (l : List Garbage) :
    Alike (running l) finished := by
  cases hl with
  | chain temp next => exact ⟨rfl, rfl, rfl, fun _ _ h => h⟩
  | temp temp => exact ⟨rfl, rfl, rfl, fun _ _ h => h⟩

end loop

/-- `clear_chain` takes the whole chain: every collector in it was seen to be obsolete, and
nothing was pushed in front. -/
theorem all_invalid_of_take (h : Inv w g) {temp : CollectorId} {head : Option CollectorId}
    (hs : w.stage t = .walk temp head none) (hh : w.base.chainHead.addr = head) :
    ∀ c ∈ g.chain, Invalid w.base c := by
  have hstands := h.stands t
  rw [hs] at hstands
  obtain ⟨front, seen, rest, hc, hhead, hcur, hi⟩ := hstands
  have hrest : rest = [] := List.head?_eq_none_iff.mp hcur.symm
  subst hrest
  rw [List.append_nil] at hc hhead
  have hlinked := h.chain.linked
  have hnodup : g.chain.Nodup := (List.nodup_append.mp h.chain.nodup).1
  cases seen with
  | nil =>
    rw [hh, hhead] at hlinked
    rw [hlinked.eq_nil]
    exact nofun
  | cons d seen =>
    rw [hc] at hlinked hnodup ⊢
    obtain rfl : front = [] := front_eq_nil hlinked hnodup (hh.trans hhead)
    exact hi

/-- `clear_chain` takes the whole chain. -/
theorem inv_take (h : Inv w g) {temp : CollectorId} {head : Option CollectorId}
    (hs : w.stage t = .walk temp head none) (hpc : w.base.pc t = .idle)
    (hh : w.base.chainHead.addr = head) :
    Inv (afterExit w t { w.base with chainHead := ⟨none, w.base.chainHead.tag⟩ }
      (.free temp head) w.freed) ⟨[], g.chain⟩ ∧ g.freeing = [] := by
  have hall := all_invalid_of_take h hs hh
  have hholding : holding (w.stage t) = true := by
    rw [hs]
    rfl
  have hlocks : locks w t = true := by
    unfold locks
    rw [hholding, Bool.or_true]
  have hnil : g.freeing = [] := h.chain.idle fun t' => by
    by_cases ht : t' = t
    · rw [ht, hs]
      rfl
    · cases hf : freeing (w.stage t') with
      | false => rfl
      | true =>
        exact absurd (holding_of_freeing hf) (by rw [(h.locks_unique hlocks ht).2]; exact nofun)
  have htemp : ∀ t', ((afterExit w t { w.base with chainHead := ⟨none, w.base.chainHead.tag⟩ }
      (.free temp head) w.freed).stage t').temp = (w.stage t').temp := by
    intro t'
    by_cases ht : t' = t
    · rw [ht, afterExit_self, hs]
      rfl
    · rw [afterExit_of_ne ht]
  have hsub : ∀ c, c ∈ [] ++ g.chain → c ∈ g.chain ++ g.freeing :=
    fun c hc => List.mem_append_left _ hc
  refine ⟨h.of_exit hpc rfl (owning_congr h.owning rfl rfl rfl fun _ => rfl)
    (temps_exit h hpc rfl rfl rfl (by rw [hs]; rfl)) ?_ (.same (by rw [hs]; rfl) .rfl)
    (fun _ _ hi => hi) (fun _ _ => rfl) (.inr hholding) ?_, hnil⟩
  · refine ⟨rfl, (List.nodup_append.mp h.chain.nodup).1, fun t' c hc => ?_,
      fun c hc => h.chain.fresh c (hsub c hc), fun t' c p hp hc =>
        h.chain.preparing t' c p hp (hsub c hc), fun t' c ht hc => ?_, hall, fun hno => ?_⟩
    · rw [htemp]
      rcases h.chain.mem t' c hc with hmem | htm
      · exact absurd (hall c hmem) (not_invalid_of_local h.owning hc)
      · exact .inr htm
    · rw [htemp] at ht
      exact h.chain.temp t' c ht (hsub c hc)
    · have hself := hno t
      rw [afterExit_self] at hself
      cases hself
  · show Linked _ head g.chain
    rw [← hh]
    exact h.chain.linked

/-! ## The beginning and the end of the exit path -/

/-- What the collectors are after a thread has begun to exit. -/
theorem exit_collectors (w : Process) (t : Tid) (d : CollectorId) :
    (w.exit t).base.collectors d =
      if d = w.base.nextCollector then Process.tempCollector
      else if w.base.localCollector t = some d then
        { w.base.collectors d with state := { (w.base.collectors d).state with invalid := true } }
      else w.base.collectors d := by
  show (Function.update _ _ Process.tempCollector : CollectorId → Collector) d = _
  by_cases hd : d = w.base.nextCollector
  · rw [if_pos hd, hd]
    cases w.base.localCollector t <;> exact Function.update_self _ _ _
  · rw [if_neg hd]
    cases hl : w.base.localCollector t with
    | none =>
      rw [if_neg nofun]
      exact Function.update_of_ne hd _ _
    | some c =>
      refine (Function.update_of_ne hd _ _).trans ?_
      rw [World.modify_collectors]
      by_cases hdc : d = c
      · rw [hdc, Function.update_self, if_pos rfl]
      · rw [Function.update_of_ne hdc, if_neg fun h => hdc (Option.some.inj h).symm]

/-- The exit path has places of its own, apart from those of the collector. -/
theorem exit_pc (w : Process) (t : Tid) : (w.exit t).base.pc = w.base.pc := by
  unfold Process.exit
  cases w.base.localCollector t <;> rfl

/-- The temporary collector takes the place of the own one. -/
theorem exit_localCollector (w : Process) (t : Tid) : (w.exit t).base.localCollector =
    Function.update w.base.localCollector t (some w.base.nextCollector) := by
  unfold Process.exit
  cases w.base.localCollector t <;> rfl

/-- One collector is allocated. -/
theorem exit_nextCollector (w : Process) (t : Tid) :
    (w.exit t).base.nextCollector = w.base.nextCollector + 1 := by
  unfold Process.exit
  cases w.base.localCollector t <;> rfl

/-- The chain is not touched before it is locked. -/
theorem exit_chainHead (w : Process) (t : Tid) :
    (w.exit t).base.chainHead = w.base.chainHead := by
  unfold Process.exit
  cases w.base.localCollector t <;> rfl

/-- The thread goes on with the lock of the chain. -/
theorem exit_stage (w : Process) (t : Tid) : (w.exit t).stage =
    Function.update w.stage t (.lockChain w.base.nextCollector) := rfl

/-- The links of the collectors that exist are not written. -/
theorem exit_links (w : Process) (t : Tid) {d : CollectorId} (hd : d ≠ w.base.nextCollector) :
    nextLinks (w.exit t).base d = nextLinks w.base d := by
  unfold nextLinks
  rw [exit_collectors, if_neg hd]
  split <;> rfl

/-- An obsolete collector stays obsolete. -/
theorem exit_invalid (w : Process) (t : Tid) {d : CollectorId} (hd : d < w.base.nextCollector)
    (hi : Invalid w.base d) : Invalid (w.exit t).base d := by
  unfold Invalid
  rw [exit_collectors, if_neg (Nat.ne_of_lt hd)]
  split
  · rfl
  · exact hi

/-- A thread that begins to exit has its temporary collector, and the other threads have
what they had. -/
theorem owning_exit (h : Owning w.base) (hpc : w.base.pc t = .idle) : Owning (w.exit t).base := by
  have hpcs := exit_pc w t
  have hlocals := exit_localCollector w t
  have hself : (w.exit t).base.localCollector t = some w.base.nextCollector := by
    rw [hlocals, Function.update_self]
  have hlocal : ∀ t', t' ≠ t → (w.exit t).base.localCollector t' = w.base.localCollector t' := by
    intro t' ht
    rw [hlocals, Function.update_of_ne ht]
  have hholds : ∀ t', t' ≠ t → holds (w.exit t).base t' = holds w.base t' := by
    intro t' ht
    unfold holds
    rw [hpcs, hlocal t' ht]
  have hholds_self : holds (w.exit t).base t = some w.base.nextCollector := by
    rw [Owning.holds_of_idle (.inl ((congrFun hpcs t).trans hpc)), hself]
  -- What another thread holds is not written.
  have hsame : ∀ t' d, t' ≠ t → holds w.base t' = some d →
      (w.exit t).base.collectors d = w.base.collectors d := by
    intro t' d ht hd
    rw [exit_collectors, if_neg (Nat.ne_of_lt (h.fresh t' d hd)),
      if_neg fun hl => ht (h.inj t' t d hd (h.holds_of_local hl))]
  refine ⟨fun t' c hl => ?_, fun c hc => ?_, fun t' hl => ?_, fun t₁ t₂ c h₁ h₂ => ?_,
    fun t' c hc => ?_⟩
  · by_cases ht : t' = t
    · subst ht
      cases hself.symm.trans hl
      rw [hpcs, hpc, exit_collectors, if_pos rfl]
      exact ⟨rfl, fun _ => rfl, fun _ => rfl⟩
    · rw [hlocal t' ht] at hl
      rw [hpcs, hsame t' c ht (h.holds_of_local hl)]
      exact h.registered t' c hl
  · rw [exit_collectors] at hc ⊢
    split at hc
    · cases hc
    · rename_i hne
      rw [if_neg hne]
      split at hc
      · rename_i hl
        rw [if_pos hl]
        exact h.announced c hc
      · rename_i hl
        rw [if_neg hl]
        exact h.announced c hc
  · have ht : t' ≠ t := by
      rintro rfl
      cases hself.symm.trans hl
    rw [hlocal t' ht] at hl
    rw [hpcs]
    exact (h.unregistered t' hl).congr fun c p hp =>
      congrArg core (hsame t' c ht (Owning.holds_of_alloc hp))
  · by_cases ht₁ : t₁ = t <;> by_cases ht₂ : t₂ = t
    · rw [ht₁, ht₂]
    · rw [ht₁, hholds_self] at h₁
      cases h₁
      rw [hholds t₂ ht₂] at h₂
      exact absurd (h.fresh t₂ _ h₂) (Nat.lt_irrefl _)
    · rw [ht₂, hholds_self] at h₂
      cases h₂
      rw [hholds t₁ ht₁] at h₁
      exact absurd (h.fresh t₁ _ h₁) (Nat.lt_irrefl _)
    · rw [hholds t₁ ht₁] at h₁
      rw [hholds t₂ ht₂] at h₂
      exact h.inj t₁ t₂ c h₁ h₂
  · rw [exit_nextCollector]
    by_cases ht : t' = t
    · rw [ht, hholds_self] at hc
      cases hc
      exact Nat.lt_succ_self _
    · rw [hholds t' ht] at hc
      exact Nat.lt_succ_of_lt (h.fresh t' c hc)

/-- A thread begins to exit. -/
theorem inv_exit (h : Inv w g) (hs : w.stage t = .live) (hpc : w.base.pc t = .idle) :
    Inv (w.exit t) g := by
  -- Only the thread `t` changes its place, and a temporary collector is allocated that nobody has
  -- yet.
  have hpcs := exit_pc w t
  have hstage := exit_stage w t
  have hself : (w.exit t).stage t = .lockChain w.base.nextCollector := by
    rw [hstage, Function.update_self]
  have hother : ∀ t', t' ≠ t → (w.exit t).stage t' = w.stage t' := fun t' ht => by
    rw [hstage, Function.update_of_ne ht]
  have hlocal : ∀ t', t' ≠ t → (w.exit t).base.localCollector t' = w.base.localCollector t' := by
    intro t' ht
    rw [exit_localCollector, Function.update_of_ne ht]
  have hholds : ∀ t', t' ≠ t → holds (w.exit t).base t' = holds w.base t' := by
    intro t' ht
    unfold holds
    rw [hpcs, hlocal t' ht]
  -- The temporary collector of `t` is the new one, and the others keep theirs.
  have htemp : ∀ t' c, ((w.exit t).stage t').temp = some c →
      t' = t ∧ c = w.base.nextCollector ∨ t' ≠ t ∧ (w.stage t').temp = some c := by
    intro t' c hc
    by_cases ht : t' = t
    · rw [ht, hself] at hc
      exact .inl ⟨ht, (Option.some.inj hc).symm⟩
    · rw [hother t' ht] at hc
      exact .inr ⟨ht, hc⟩
  have hfresh : ∀ c ∈ g.chain ++ g.freeing, c ≠ w.base.nextCollector := by
    rintro c hc rfl
    exact Nat.lt_irrefl _ (h.chain.fresh _ hc)
  have hinv : ∀ d ∈ g.chain, Invalid w.base d → Invalid (w.exit t).base d := fun d hd =>
    exit_invalid w t (h.chain.fresh d (List.mem_append_left _ hd))
  have hlinks : ∀ d ∈ g.chain ++ g.freeing,
      nextLinks (w.exit t).base d = nextLinks w.base d := fun d hd => exit_links w t (hfresh d hd)
  have hexit : w.exit t = afterExit w t (w.exit t).base (.lockChain w.base.nextCollector) w.freed :=
    rfl
  rw [hexit]
  -- The parts of the invariant, one after the other: the temporary collectors, the chain, and the
  -- lock.
  refine h.of_exit hpc hpcs (owning_exit h.owning hpc) ?_ ?_ (.same (by rw [hs]; rfl) ?_)
    hinv (fun d hd => hlinks d (List.mem_append_right _ hd)) (.inl rfl) trivial
  · refine ⟨fun t' c hc => ?_, fun t₁ t₂ c h₁ h₂ => ?_, fun t₁ t₂ c h₁ h₂ => ?_, fun t' c hc => ?_,
      fun t' hq => ?_, fun t' htp c p hp => ?_⟩
    · show c < (w.exit t).base.nextCollector
      rw [exit_nextCollector]
      rcases htemp t' c hc with ⟨-, rfl⟩ | ⟨-, hc⟩
      · exact Nat.lt_succ_self _
      · exact Nat.lt_succ_of_lt (h.temps.fresh t' c hc)
    -- Two threads with the same temporary collector: it is the new one for both, or for neither.
    · rcases htemp t₁ c h₁ with ⟨ht₁, rfl⟩ | ⟨ht₁, h₁⟩ <;>
        rcases htemp t₂ _ h₂ with ⟨ht₂, hc₂⟩ | ⟨ht₂, h₂⟩
      · rw [ht₁, ht₂]
      · exact absurd (h.temps.fresh t₂ _ h₂) (Nat.lt_irrefl _)
      · exact absurd (hc₂ ▸ h.temps.fresh t₁ c h₁) (Nat.lt_irrefl _)
      · exact h.temps.inj t₁ t₂ c h₁ h₂
    · have hh : holds (w.exit t).base t₂ = some c := h₂
      -- Nobody else has the new collector in its hands.
      rcases htemp t₁ c h₁ with ⟨ht₁, rfl⟩ | ⟨ht₁, h₁⟩
      · by_contra hne
        rw [hholds t₂ (fun e => hne (e.trans ht₁.symm))] at hh
        exact absurd (h.owning.fresh t₂ _ hh) (Nat.lt_irrefl _)
      · by_cases ht₂ : t₂ = t
        · rw [ht₂, Owning.holds_of_idle (.inl ((congrFun hpcs t).trans hpc)),
            exit_localCollector, Function.update_self] at hh
          cases hh
          exact absurd (h.temps.fresh t₁ _ h₁) (Nat.lt_irrefl _)
        · rw [hholds t₂ ht₂] at hh
          exact h.temps.held t₁ t₂ c h₁ hh
    · show (w.exit t).base.localCollector t' = some c ∨ (w.exit t).base.localCollector t' = none
      rcases htemp t' c hc with ⟨rfl, rfl⟩ | ⟨ht, hc⟩
      · rw [exit_localCollector, Function.update_self]
        exact .inl rfl
      · rw [hlocal t' ht]
        exact h.temps.own t' c hc
    · show (w.exit t).base.pc t' = .idle
      rw [hpcs]
      by_cases ht : t' = t
      · rw [ht, hpc]
      · rw [afterExit_of_ne ht] at hq
        exact h.temps.quiet t' hq
    · have hp' : w.base.pc t' = .alloc c p := (congrFun hpcs t').symm.trans hp
      have ht : t' ≠ t := by
        rintro rfl
        cases hpc.symm.trans hp'
      rw [afterExit_of_ne ht] at htp
      exact h.temps.noAlloc t' htp c p hp'
  · refine ⟨?_, h.chain.nodup, fun t' c hc => ?_, fun c hc => ?_, fun t' c p hp => ?_,
      fun t' c ht hc => ?_, fun c hc => ?_, fun hf => ?_⟩
    · show Linked (nextLinks (w.exit t).base) (w.exit t).base.chainHead.addr g.chain
      rw [exit_chainHead]
      exact h.chain.linked.congr fun d hd => hlinks d (List.mem_append_left _ hd)
    · have hc : (w.exit t).base.localCollector t' = some c := hc
      by_cases ht : t' = t
      · rw [ht, afterExit_self]
        rw [ht, exit_localCollector, Function.update_self] at hc
        exact .inr hc
      · rw [afterExit_of_ne ht]
        rw [hlocal t' ht] at hc
        exact h.chain.mem t' c hc
    · show c < (w.exit t).base.nextCollector
      rw [exit_nextCollector]
      exact Nat.lt_succ_of_lt (h.chain.fresh c hc)
    · exact h.chain.preparing t' c p ((congrFun hpcs t').symm.trans hp)
    · rcases htemp t' c ht with ⟨-, rfl⟩ | ⟨-, htc⟩
      · exact hfresh _ hc rfl
      · exact h.chain.temp t' c htc hc
    · exact exit_invalid w t (h.chain.fresh c (List.mem_append_right _ hc)) (h.chain.invalid c hc)
    · refine h.chain.idle fun t' => ?_
      by_cases ht : t' = t
      · rw [ht, hs]
        rfl
      · rw [← hf t', afterExit_of_ne ht]
  · unfold Locked
    rw [exit_chainHead]

/-- The exit path ends: the thread has no collector any more. -/
theorem inv_done (h : Inv w g) {temp : CollectorId} (hs : w.stage t = .clear temp)
    (hpc : w.base.pc t = .idle) :
    Inv (afterExit w t { w.base with
      localCollector := Function.update w.base.localCollector t none } .done freed) g := by
  have hlocal : ∀ t', t' ≠ t → Function.update w.base.localCollector t none t' =
      w.base.localCollector t' := fun t' ht => Function.update_of_ne ht _ _
  have hnone : Function.update w.base.localCollector t none t = none := Function.update_self _ _ _
  -- The thread has no collector any more; the others keep theirs.
  have hback : ∀ t' c, holds { w.base with
      localCollector := Function.update w.base.localCollector t none } t' = some c →
        t' ≠ t ∧ holds w.base t' = some c := by
    intro t' c hc
    have ht : t' ≠ t := by
      rintro rfl
      have hl := Owning.holds_of_idle (w := { w.base with
        localCollector := Function.update w.base.localCollector t' none }) (t := t') (.inl hpc)
      cases hnone.symm.trans (hl.symm.trans hc)
    refine ⟨ht, ?_⟩
    simp only [holds, hlocal t' ht] at hc ⊢
    exact hc
  have htemp : ∀ t' c, ((afterExit w t { w.base with
      localCollector := Function.update w.base.localCollector t none } .done
        freed).stage t').temp = some c → t' ≠ t ∧ (w.stage t').temp = some c := by
    intro t' c hc
    have ht : t' ≠ t := by
      rintro rfl
      rw [afterExit_self] at hc
      cases hc
    rw [afterExit_of_ne ht] at hc
    exact ⟨ht, hc⟩
  -- The parts of the invariant: the owners, the temporary collectors, and the chain.
  refine h.of_exit hpc rfl ?_ ?_ ?_ (.same (by rw [hs]; rfl) .rfl) (fun _ _ hi => hi)
    (fun _ _ => rfl) (.inl rfl) trivial
  · refine ⟨fun t' c hl => ?_, h.owning.announced, fun t' hl => ?_, fun t₁ t₂ c h₁ h₂ => ?_,
      fun t' c hc => h.owning.fresh t' c (hback t' c hc).2⟩
    · have ht : t' ≠ t := by
        rintro rfl
        cases hnone.symm.trans hl
      exact h.owning.registered t' c ((hlocal t' ht).symm.trans hl)
    · by_cases ht : t' = t
      · rw [ht]
        show Unregistered w.base.collectors (w.base.pc t)
        rw [hpc]
        trivial
      · exact h.owning.unregistered t' ((hlocal t' ht).symm.trans hl)
    · exact h.owning.inj t₁ t₂ c (hback t₁ c h₁).2 (hback t₂ c h₂).2
  · refine ⟨fun t' c hc => h.temps.fresh t' c (htemp t' c hc).2,
      fun t₁ t₂ c h₁ h₂ => h.temps.inj t₁ t₂ c (htemp t₁ c h₁).2 (htemp t₂ c h₂).2,
      fun t₁ t₂ c h₁ h₂ => h.temps.held t₁ t₂ c (htemp t₁ c h₁).2 (hback t₂ c h₂).2,
      fun t' c hc => ?_, fun t' hq => ?_, fun t' htp c p hp => ?_⟩
    · show Function.update w.base.localCollector t none t' = some c ∨
        Function.update w.base.localCollector t none t' = none
      rw [hlocal t' (htemp t' c hc).1]
      exact h.temps.own t' c (htemp t' c hc).2
    · show w.base.pc t' = .idle
      by_cases ht : t' = t
      · rw [ht, hpc]
      · rw [afterExit_of_ne ht] at hq
        exact h.temps.quiet t' hq
    · have ht : t' ≠ t := by
        rintro rfl
        cases hpc.symm.trans hp
      rw [afterExit_of_ne ht] at htp
      exact h.temps.noAlloc t' htp c p hp
  · refine ⟨h.chain.linked, h.chain.nodup, fun t' c hc => ?_, h.chain.fresh, h.chain.preparing,
      fun t' c ht => h.chain.temp t' c (htemp t' c ht).2, h.chain.invalid, fun hf => ?_⟩
    · have ht : t' ≠ t := by
        rintro rfl
        cases hnone.symm.trans hc
      rw [afterExit_of_ne ht]
      exact h.chain.mem t' c ((hlocal t' ht).symm.trans hc)
    · refine h.chain.idle fun t' => ?_
      by_cases ht : t' = t
      · rw [ht, hs]
        rfl
      · rw [← hf t', afterExit_of_ne ht]

/-- Every move keeps the invariant. -/
theorem Inv.step {w' : Process} {a : Process.Act} (h : Inv w g) (hm : Move w t a w') :
    ∃ g', Inv w' g' ∧ GhostStep w t g g' := by
  have hkeep : ∀ {b'' : World} {s' : Stage} {l : List CollectorId},
      Inv (afterExit w t b'' s' l) g → ∃ g', Inv (afterExit w t b'' s' l) g' ∧
        GhostStep w t g g' := fun hi => ⟨g, hi, .keep⟩
  have hstands := h.stands t
  -- Most steps are quiet and lead to a stage that the invariant does not tell apart. The others
  -- lock or unlock the chain, walk over it, take it, or free what was taken.
  cases hm with
  | base act b hu ha hs => exact inv_base h hu ha (Proofs.move_of_step hs)
  | exit ha hs hpc => exact ⟨g, inv_exit h hs hpc, .keep⟩
  | lockFail temp hs hpc =>
    exact hkeep (h.of_alike hpc (.refl _) .rfl
      (by rw [hs]; exact ⟨rfl, rfl, rfl, fun _ _ _ => trivial⟩))
  | lock temp hs hpc hf hb =>
    refine hkeep (h.of_quiet_same hpc ⟨rfl, rfl, rfl, rfl, fun _ => rfl, fun _ => rfl⟩
      (by rw [hs]; rfl) (.acquire (fun hl => hl.elim hf hb) (.inl rfl) (by rw [hs]; rfl))
      (.inl (by rw [hs]; rfl)) ⟨[], [], g.chain, rfl, h.chain.linked.head_eq,
        h.chain.linked.head_eq, nofun⟩)
  | walkStop temp d head hs hpc hv =>
    exact hkeep (h.of_alike hpc (.refl _) .rfl
      (by rw [hs]; exact ⟨rfl, rfl, rfl, fun _ _ _ => trivial⟩))
  | walkPass temp d head hs hpc hv =>
    -- The collector is obsolete, so that the walk passes it.
    rw [hs] at hstands
    obtain ⟨front, seen, rest, hc, hh, hcur, hi⟩ := hstands
    cases rest with
    | nil => cases hcur
    | cons e rest =>
      cases hcur
      exact hkeep (h.of_quiet_same hpc (.refl _) (by rw [hs]; rfl) (.same (by rw [hs]; rfl) .rfl)
        (.inl (by rw [hs]; rfl)) ⟨front, seen, rest, hc, hh, hv, hi⟩)
  | walkNext temp d head hs hpc =>
    rw [hs] at hstands
    -- The walk goes on behind the collector that it has passed.
    obtain ⟨front, seen, rest, hc, hh, hd, hi⟩ := hstands
    refine hkeep (h.of_quiet_same hpc (.refl _) (by rw [hs]; rfl) (.same (by rw [hs]; rfl) .rfl)
      (.inl (by rw [hs]; rfl)) ⟨front, seen ++ [d], rest, ?_, ?_, ?_, ?_⟩)
    · rw [hc, List.append_assoc]
      rfl
    · rw [hh, List.append_assoc]
      rfl
    · have hlinked := h.chain.linked
      rw [hc, ← List.append_assoc] at hlinked
      exact next_eq_head hlinked
    · intro x hx
      rcases List.mem_append.mp hx with hx | hx
      · exact hi x hx
      · rw [List.mem_singleton.mp hx]
        exact hd
  | take temp head hs hpc hh =>
    obtain ⟨hi, hnil⟩ := inv_take h hs hpc hh
    exact ⟨_, hi, .take (all_invalid_of_take h hs hh) hnil ⟨temp, hh ▸ hs⟩⟩
  | takeFail temp head hs hpc hh =>
    exact hkeep (h.of_alike hpc (.refl _) .rfl
      (by rw [hs]; exact ⟨rfl, rfl, rfl, fun _ _ _ => trivial⟩))
  | free temp d hs hpc =>
    -- The next collector of the list is freed, and the rest stays linked.
    rw [hs] at hstands
    obtain ⟨rest, hf, hrest⟩ := Linked.eq_cons hstands
    refine ⟨⟨g.chain, rest⟩, ?_, .free d rest hf ⟨temp, hs⟩⟩
    refine h.of_quiet hpc (.cleared _ d) (by rw [hs]; rfl)
      (.same (by rw [hs]; rfl) .rfl) (hf ▸ List.sublist_cons_self d rest)
      (.inr (by rw [hs]; rfl)) nofun ?_
    exact hrest.congr fun x _ => nextLinks_modify rfl x
  | freeDone temp hs hpc =>
    -- Nothing is left of what was taken.
    rw [hs] at hstands
    have hnil : g.freeing = [] := Linked.eq_nil hstands
    refine hkeep ?_
    have hi : Inv (afterExit w t w.base (.unlockChain temp true) w.freed) ⟨g.chain, g.freeing⟩ :=
      h.of_quiet hpc (.refl _) (by rw [hs]; rfl) (.same (by rw [hs]; rfl) .rfl) (.refl _)
        (.inl rfl) (fun _ _ => hnil) trivial
    exact hi
  | loopDone running destructor finished hl hs hpc =>
    exact hkeep (h.of_alike hpc (.refl _) .rfl (by rw [hs]; exact hl.finished_alike []))
  | loopInst running destructor finished hl i rest hs hpc =>
    exact hkeep (h.of_alike hpc ⟨rfl, rfl, rfl, rfl, fun _ => rfl, fun _ => rfl⟩ .rfl
      (by rw [hs]; exact hl.destructor_alike _ rest))
  | loopCollector running destructor finished hl d rest hs hpc =>
    exact hkeep (h.of_alike hpc (.cleared _ d) .rfl (by rw [hs]; exact hl.running_alike _ _))
  | loopReturn running destructor finished hl rest hs hpc =>
    exact hkeep (h.of_alike hpc (.refl _) .rfl (by rw [hs]; exact hl.return_alike rest rest))
  | unlock temp cleared hs hpc =>
    refine hkeep (h.of_quiet_same hpc
      ⟨rfl, rfl, rfl, rfl, fun _ => rfl, fun _ => rfl⟩ ?_ (.release (by rw [hs]; rfl) ?_) ?_ ?_)
    · rw [hs]
      cases cleared <;> rfl
    · cases cleared <;> rfl
    · rw [hs]
      exact .inr rfl
    · cases cleared <;> trivial
  | mark temp hs hpc =>
    refine hkeep (h.of_alike hpc ?_ ?_
      (by rw [hs]; exact ⟨rfl, rfl, rfl, fun _ _ _ => trivial⟩))
    · unfold World.markScanEnforced
      cases w.base.chainHead.tag <;> exact ⟨rfl, rfl, rfl, rfl, fun _ => rfl, fun _ => rfl⟩
    · unfold Locked World.markScanEnforced
      cases htag : w.base.chainHead.tag <;> simp [htag]
  | clear temp hs hpc hg =>
    exact hkeep (h.of_alike hpc (.cleared _ temp) .rfl
      (by rw [hs]; exact ⟨rfl, rfl, rfl, fun _ _ _ => trivial⟩))
  | done temp hs hpc hg => exact hkeep (inv_done h hs hpc)

/-! ## What the exit path leaves alone -/

/-- A step of the exit path, apart from its beginning, keeps the places of the threads in
the collector, the global epoch and the cores. -/
structure Aside (b b' : World) : Prop where
  pc : b'.pc = b.pc
  epoch : b'.epoch = b.epoch
  next : b'.nextCollector = b.nextCollector
  core : ∀ c, core (b'.collectors c) = core (b.collectors c)

/-- A move is a step of the collector, or the beginning of the exit path, or it is aside. -/
theorem Move.cases_aside {w' : Process} {a : Process.Act} (hm : Move w t a w') :
    (∃ act b', Proofs.Move w.base t act b' ∧ w' = afterBase w t act b') ∨
      (a = .exit ∧ w.base.pc t = .idle ∧ w' = w.exit t) ∨
      (w.base.pc t = .idle ∧ Aside w.base w'.base) := by
  have hsame : ∀ b' : World, b'.collectors = w.base.collectors → b'.pc = w.base.pc →
      b'.epoch = w.base.epoch → b'.nextCollector = w.base.nextCollector → Aside w.base b' :=
    fun b' hk hp he hn => ⟨hp, he, hn, fun c => by rw [hk]⟩
  have hcleared : ∀ d : CollectorId, Aside w.base (w.base.modify d .cleared) :=
    fun d => ⟨rfl, rfl, rfl, fun c => core_modify d c rfl⟩
  cases hm with
  | base act b hu ha hs => exact .inl ⟨act, b, Proofs.move_of_step hs, rfl⟩
  | exit ha hs hpc => exact .inr (.inl ⟨ha, hpc, rfl⟩)
  | free temp d hs hpc => exact .inr (.inr ⟨hpc, hcleared d⟩)
  | loopCollector running destructor finished hl d rest hs hpc =>
    exact .inr (.inr ⟨hpc, hcleared d⟩)
  | clear temp hs hpc => exact .inr (.inr ⟨hpc, hcleared temp⟩)
  | mark temp hs hpc =>
    refine .inr (.inr ⟨hpc, hsame w.base.markScanEnforced ?_ ?_ ?_ ?_⟩) <;>
      · unfold World.markScanEnforced
        cases w.base.chainHead.tag <;> rfl
  | lockFail temp hs hpc | lock temp hs hpc | walkStop temp d head hs hpc
    | walkPass temp d head hs hpc | walkNext temp d head hs hpc | take temp head hs hpc
    | takeFail temp head hs hpc | freeDone temp hs hpc
    | loopDone running destructor finished hl hs hpc
    | loopInst running destructor finished hl i rest hs hpc
    | loopReturn running destructor finished hl rest hs hpc | unlock temp cleared hs hpc
    | done temp hs hpc => exact .inr (.inr ⟨hpc, hsame _ rfl rfl rfl rfl⟩)

/-- A move of `t` leaves the other threads where they stand in the collector. -/
theorem Move.pc_of_ne {w' : Process} {a : Process.Act} (hm : Move w t a w') {t' : Tid}
    (ht : t' ≠ t) : w'.base.pc t' = w.base.pc t' := by
  rcases hm.cases_aside with ⟨act, b', hb, rfl⟩ | ⟨-, -, rfl⟩ | ⟨-, ha⟩
  · exact hb.pc_of_ne ht
  · rw [exit_pc]
  · rw [ha.pc]

end Sdd.Proofs.Exit
