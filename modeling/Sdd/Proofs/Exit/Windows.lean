import Sdd.Proofs.Collector.Epochs
import Sdd.Proofs.Exit.Ownership
import Sdd.Proofs.Exit.Pins

/-!
# `Sdd.Proofs.Exit.Windows`: how far the epoch moves under a guard

With thread exit and `suspend()` the global epoch still advances at most once while a collector
announces an epoch, if the steps of the collector are timely. `Window c v e` says that `c`
announces `v` since a moment when the global epoch was `e`. `windows_of_run` says that every
announced epoch has a window, and `Window.step` that a step keeps it.

`orderly` is what is asked of the runs. A destructor that runs while its thread exits must not call
the collector: what it retires, and the obsolete collectors that its scan finds, would be dropped
by `clear_for_drop` at once.
-/

set_option autoImplicit false

namespace Sdd.Proofs.Exit

open Sdd.Collector Sdd.Lib
open Process (Stage)

variable {t r : Tid} {w w' : Process} {g g' : Ghost} {c : CollectorId} {v e : Epoch}

/-- The steps of the collector are timely, and no thread that exits takes one. -/
def orderly (w : Process) (a : Process.Action) : Bool :=
  match a.act with
  | .base _ => timely w.base a.tid && (w.stage a.tid).temp.isNone
  | .exit | .proceed => true

/-- A run that is orderly. -/
abbrev OrderlyRun : Process → Process → Prop := Run Process.step fun w a => orderly w a

/-! ## The exit path -/

/-- The collector is dropped next: `epoch_updated` or the exit path has it. -/
def Taken (w : Process) (t : Tid) (d : CollectorId) : Prop :=
  .collector d ∈ pendingGarbage (w.base.pc t) ∨ .collector d ∈ exitGarbage (w.stage t) ∨
    (∃ temp, w.stage t = .free temp (some d)) ∨ (w.stage t).temp = some d

/-- The announcement and the lists of a collector. -/
def generations (k : Collector) : Epoch × List Garbage × List Garbage × List Garbage :=
  (k.announcement, k.previousInstanceLink, k.currentInstanceLink, k.nextInstanceLink)

theorem guardAlive_exit : (w.exit t).base.guardAlive t = false := by
  unfold World.guardAlive
  rw [exit_localCollector, Function.update_self]
  simp only
  rw [exit_collectors, if_pos rfl]
  rfl

/-- A step of the exit path leaves alone the places of the threads in the collector, the epoch, and
the collectors that it does not drop. -/
structure Leaves (w : Process) (t : Tid) (w' : Process) : Prop where
  pc : w'.base.pc = w.base.pc
  epoch : w'.base.epoch = w.base.epoch
  generations : ∀ d, d < w.base.nextCollector → ¬Taken w t d →
    generations (w'.base.collectors d) = generations (w.base.collectors d)
  state : ∀ d v, (w'.base.collectors d).state = ⟨v, false, false⟩ →
    (w.base.collectors d).state = ⟨v, false, false⟩
  guard : w'.base.guardAlive t = true → (w.stage t).temp ≠ none ∧ w.base.guardAlive t = true

/-- A step that writes no collector. -/
theorem Leaves.same (htemp : (w.stage t).temp ≠ none) (hpc : w'.base.pc = w.base.pc)
    (hepoch : w'.base.epoch = w.base.epoch) (hcoll : w'.base.collectors = w.base.collectors)
    (hlocal : w'.base.localCollector t = w.base.localCollector t ∨
      w'.base.localCollector t = none) : Leaves w t w' where
  pc := hpc
  epoch := hepoch
  generations d _ _ := by rw [hcoll]
  state d v h := by rwa [hcoll] at h
  guard h := by
    refine ⟨htemp, ?_⟩
    unfold World.guardAlive at h ⊢
    rw [hcoll] at h
    rcases hlocal with hl | hl
    · rwa [hl] at h
    · rw [hl] at h
      cases h

/-- A step that drops the collector `d`. -/
theorem Leaves.cleared (htemp : (w.stage t).temp ≠ none) {d : CollectorId} (hd : Taken w t d)
    (hbase : w'.base = w.base.modify d .cleared) : Leaves w t w' where
  pc := by rw [hbase]; rfl
  epoch := by rw [hbase]; rfl
  generations x _ hx := by
    have hne : x ≠ d := fun h => hx (h ▸ hd)
    rw [hbase, World.modify_collectors, Function.update_of_ne hne]
  state x v hx := by
    rw [hbase, World.modify_collectors] at hx
    by_cases hxd : x = d
    · subst hxd
      rwa [Function.update_self] at hx
    · rwa [Function.update_of_ne hxd] at hx
  -- Clearing a collector writes none of what a guard depends on.
  guard h := by
    have hcore : ∀ x, core (w'.base.collectors x) = core (w.base.collectors x) := fun x => by
      rw [hbase]
      exact core_modify d x rfl
    have hlocal : w'.base.localCollector = w.base.localCollector := by
      rw [hbase]
      rfl
    have hreaders : ∀ x, (w'.base.collectors x).numReaders = (w.base.collectors x).numReaders :=
      fun x => congrArg (·.2.2) (hcore x)
    have hstate : ∀ x, (w'.base.collectors x).state = (w.base.collectors x).state :=
      fun x => congrArg (·.1) (hcore x)
    refine ⟨htemp, ?_⟩
    unfold World.guardAlive at h ⊢
    simpa only [hlocal, hreaders, hstate] using h

theorem leaves_exit : Leaves w t (w.exit t) where
  pc := exit_pc w t
  epoch := by
    unfold Process.exit
    cases w.base.localCollector t <;> rfl
  generations d hd _ := by
    rw [exit_collectors, if_neg (Nat.ne_of_lt hd)]
    split <;> rfl
  state d v hd := by
    rw [exit_collectors] at hd
    split at hd
    · cases hd
    · split at hd
      · exact nomatch congrArg (·.invalid) hd
      · exact hd
  guard h := by
    rw [guardAlive_exit] at h
    cases h

/-- The loops that drop garbage. -/
theorem leaves_dropNext {running destructor : List Garbage → Stage} {finished : Stage}
    {l : List Garbage} (htemp : (w.stage t).temp ≠ none) (hl : exitGarbage (w.stage t) = l) :
    Leaves w t (w.dropNext t running destructor finished l) := by
  match l, hl with
  | [], _ => exact .same htemp rfl rfl rfl (.inl rfl)
  | .inst i :: rest, _ => exact .same htemp rfl rfl rfl (.inl rfl)
  | .collector d :: rest, hl =>
    exact .cleared htemp (.inr (.inl (by rw [hl]; exact List.mem_cons_self))) rfl

/-- Only a thread that exits proceeds. -/
theorem temp_of_proceed (h : w.proceed t = some w') : (w.stage t).temp ≠ none := by
  unfold Process.proceed at h
  split at h <;> rename_i hs
  · cases h
  · cases h
  · cases h
  all_goals
    rw [hs]
    nofun

theorem leaves_proceed (h : w.proceed t = some w') : Leaves w t w' := by
  have htemp := temp_of_proceed h
  unfold Process.proceed at h
  -- The stages come in the order in which the exit goes through them.
  split at h
  · cases h
  · cases h
  · cases h
  · cases h
    unfold Process.lockChain
    split <;> exact .same htemp rfl rfl rfl (.inl rfl)
  · rename_i temp head current hs
    cases h
    cases current <;>
      · unfold Process.walk
        simp only
        split <;> exact .same htemp rfl rfl rfl (.inl rfl)
  · cases h
    exact .same htemp rfl rfl rfl (.inl rfl)
  · rename_i temp current hs
    cases h
    cases current with
    | none => exact .same htemp rfl rfl rfl (.inl rfl)
    | some d => exact .cleared htemp (.inr (.inr (.inl ⟨temp, hs⟩))) rfl
  · rename_i hs
    cases h
    exact leaves_dropNext htemp (by rw [hs]; rfl)
  · cases h
    exact .same htemp rfl rfl rfl (.inl rfl)
  · cases h
    exact .same htemp rfl rfl rfl (.inl rfl)
  · cases h
    refine .same htemp ?_ ?_ ?_ (.inl ?_) <;>
      · simp only [Process.goto_base, Process.withBase_base]
        unfold World.markScanEnforced
        cases w.base.chainHead.tag <;> rfl
  · rename_i temp hs
    cases h
    unfold Process.clear
    split
    · exact .same htemp rfl rfl rfl (.inr (Function.update_self _ _ _))
    · exact .cleared htemp (.inr (.inr (.inr (by rw [hs]; rfl)))) rfl
  · rename_i hs
    cases h
    exact leaves_dropNext htemp (by rw [hs]; rfl)
  · cases h
    exact .same htemp rfl rfl rfl (.inl rfl)

theorem temp_used (s : Stage) (act : Collector.Act) : (Process.used s act).temp = s.temp := by
  cases s <;> cases act <;> rfl

/-- A step of an orderly run is a timely step of the collector of a thread that does not exit, or
a step of the exit path. -/
theorem orderly_cases {a : Process.Action} (ho : orderly w a = true) (hs : w.step a = some w') :
    (∃ act, Proofs.Move w.base a.tid act w'.base ∧ timely w.base a.tid = true ∧
        (w.stage a.tid).temp = none ∧ (w'.stage a.tid).temp = none) ∨
      (w.base.pc a.tid = .idle ∧ Leaves w a.tid w') := by
  obtain ⟨t, act⟩ := a
  cases act with
  | base act =>
    unfold orderly at ho
    simp only [Bool.and_eq_true, Option.isNone_iff_eq_none] at ho
    obtain ⟨hb, hstage⟩ := base_of_step hs
    refine .inl ⟨act, Proofs.move_of_step hb, ho.1, ho.2, ?_⟩
    rw [hstage, Function.update_self]
    exact (temp_used _ act).trans ho.2
  | exit =>
    obtain ⟨hst, h⟩ := Option.ite_none_right_eq_some.mp hs
    cases h
    exact .inr ⟨hst.2, leaves_exit⟩
  | proceed =>
    obtain ⟨hpc, h⟩ := Option.ite_none_right_eq_some.mp hs
    exact .inr ⟨hpc, leaves_proceed h⟩

/-! ## Steps of the collector -/

variable {b b' : World} {act : Act}

/-- The epoch is stored at the end of a scan only. -/
theorem epoch_cases (hm : Proofs.Move b t act b') : b'.epoch = b.epoch ∨
    ∃ o known prev, b.pc t = .scan o known prev none ∧ b'.epoch = known.epoch.next := by
  cases hm with
  | store o known prev hpc => exact .inr ⟨o, known, prev, hpc, rfl⟩
  | allocBegin | allocRetry | allocDone | load | publishSame | publishQuiet | publishRotate
    | drainDone | drainInst | drainCollector | destructor | user | endScan | endQuiet | lockFail
    | lock | knownEpoch | scanOwn | scanLoad | nextInvalid | nextBreak | nextPass | unlinkHead
    | unlinkFail | unlinkMid | unlock | setInactive | markScanEnforced | collect | suspendNone
    | suspend => exact .inl rfl

/-- A walk goes on, or it begins at the head of the chain. -/
theorem walking_cases (hm : Proofs.Move b t act b') (hw' : walking (b'.pc t) = true) :
    b'.epoch = b.epoch ∧
      (walking (b.pc t) = true ∨ ∃ o, b'.pc t = .knownEpoch o b'.chainHead.addr) := by
  have hgoto : ∀ {x : World} {pc : Pc},
      walking ((x.goto t pc).pc t) = true → walking pc = true := by
    intro x pc h
    rwa [World.goto_pc, Function.update_self] at h
  cases hm with
  | knownEpoch o current hpc | scanOwn o known prev hpc | scanLoad o known prev d hpc
    | nextInvalid o known prev d state hpc | nextPass o known prev d state hpc
    | unlinkHead o known d next hpc | unlinkFail o known d next hpc
    | unlinkMid o known p d next hpc => exact ⟨rfl, .inl (by rw [hpc]; rfl)⟩
  | lock o hpc => exact ⟨rfl, .inr ⟨o, Function.update_self _ _ _⟩⟩
  | user o f hu | collect o hu | suspendNone ha o hu =>
    rcases Owning.user_cases hu with ⟨hpc, -⟩ | ⟨rest, hpc⟩ <;>
      · change walking (b.pc t) = true at hw'
        rw [hpc] at hw'
        cases hw'
  | allocBegin | allocRetry | allocDone | load | publishSame | publishQuiet | publishRotate
    | drainDone | drainInst | drainCollector | destructor | endScan | endQuiet | lockFail | store
    | nextBreak | unlock | setInactive | markScanEnforced | suspend => cases hgoto hw'

/-- A collector becomes active when its thread publishes an epoch. -/
theorem publishing_of_active (hm : Proofs.Move b t act b')
    (hs : (b'.collectors c).state = ⟨v, false, false⟩) :
    (b.collectors c).state = ⟨v, false, false⟩ ∨ b.pc t = .newGuard c v := by
  have hkeep : ∀ (f : CollectorId → Collector) (d : CollectorId) (k : Collector),
      (Function.update f d k c).state = ⟨v, false, false⟩ →
      (k.state = ⟨v, false, false⟩ → k.state = (f d).state) → (f c).state = ⟨v, false, false⟩ := by
    intro f d k hk hd
    by_cases hcd : c = d
    · subst hcd
      rw [Function.update_self] at hk
      exact (hd hk).symm.trans hk
    · rwa [Function.update_of_ne hcd] at hk
  -- Only new_guard announces an epoch with an active state, and it announces its own.
  have hpublish : ∀ (d : CollectorId) (e : Epoch) (k : Collector), b.pc t = .newGuard d e →
      k.state = ⟨e, false, false⟩ →
      (Function.update b.collectors d k c).state = ⟨v, false, false⟩ →
      (b.collectors c).state = ⟨v, false, false⟩ ∨ b.pc t = .newGuard c v := by
    intro d e k hpc hk hs
    by_cases hcd : c = d
    · subst hcd
      rw [Function.update_self, hk] at hs
      cases hs
      exact .inr hpc
    · rw [Function.update_of_ne hcd] at hs
      exact .inl hs
  cases hm with
  | allocBegin => exact .inl (hkeep _ b.nextCollector _ hs fun h => by cases h)
  | allocRetry d | allocDone d | load d | drainDone d | endScan d | endQuiet d | lockFail d
    | unlock d | collect d | unlinkHead d => exact .inl (hkeep _ d _ hs fun _ => rfl)
  | publishSame d e hpc | publishQuiet d e hpc | publishRotate d e hpc =>
    exact hpublish d e _ hpc rfl hs
  | drainCollector d x => exact .inl (hkeep _ x _ hs fun _ => rfl)
  | user d f hu hn hf hk => exact .inl (hkeep _ d _ hs fun _ => by rw [hk])
  | unlinkMid d known p x next =>
    exact .inl (hkeep _ p _ (hkeep _ d _ hs fun _ => rfl) fun _ => rfl)
  | setInactive d => exact .inl (hkeep _ d _ hs fun h => by cases h)
  | suspend d => exact .inl (hkeep _ d _ hs fun h => nomatch congrArg (·.invalid) h)
  | drainInst | destructor | lock | knownEpoch | store | scanOwn | scanLoad | nextInvalid
    | nextBreak | nextPass | unlinkFail | markScanEnforced | suspendNone => exact .inl hs

/-! ## Windows -/

/-- The collector `c` announces `v` since a moment when the global epoch was `e`. The epoch has
advanced at most once since, and a scan that does not look at `c` any more either knows the epoch
`v` or was in progress at that moment. -/
structure Window (c : CollectorId) (v e : Epoch) (w : Process) (g : Ghost) : Prop where
  chain : c ∈ g.chain
  state : (w.base.collectors c).state = ⟨v, false, false⟩
  notAhead : v ≠ e.next
  epoch : w.base.epoch = e ∨ w.base.epoch = e.next
  walks : ∀ t, walking (w.base.pc t) = true → Seen c v g.chain (w.base.pc t) ∨ w.base.epoch = e

theorem Window.active (h : Window c v e w g) : Active c w :=
  ⟨congrArg (·.inactive) h.state, congrArg (·.invalid) h.state⟩

/-- As long as `c` is active, a step moves the epoch at most from `e` to `e.next`. -/
theorem Window.epoch_step (h : Window c v e w g) {a : Process.Action} (ho : orderly w a = true)
    (hs : w.step a = some w') :
    w'.base.epoch = w.base.epoch ∨ w.base.epoch = e ∧ w'.base.epoch = e.next := by
  rcases orderly_cases ho hs with ⟨act, hm, htimely, -⟩ | ⟨-, hl⟩
  · rcases epoch_cases hm with he | ⟨o, known, prev, hpc, he⟩
    · exact .inl he
    · -- A store inside the window leads to `e` or to `e.next`.
      have hk : w.base.epoch = known.epoch ∨ w.base.epoch = known.epoch.next := by
        simpa [timely, hpc] using htimely
      have hseen := h.walks a.tid (by rw [hpc]; rfl)
      rw [hpc] at hseen
      rcases hseen with (hv | ⟨-, front, rest, -, hcur, hmem⟩) | he₀
      · rw [he, hv]
        rw [hv] at hk
        rcases h.epoch with he₀ | he₀ <;> rcases hk with hk | hk
        · exact .inr ⟨he₀, by rw [← hk, he₀]⟩
        · exact .inl hk.symm
        · exact absurd (hk.symm.trans he₀) h.notAhead
        · exact .inl hk.symm
      · rw [List.head?_eq_none_iff.mp hcur.symm] at hmem
        cases hmem
      · rw [he]
        rcases hk with hk | hk
        · exact .inr ⟨he₀, by rw [← hk, he₀]⟩
        · exact .inl hk.symm
  · exact .inl hl.epoch

/-- A step keeps the window of a collector that stays active. -/
theorem Window.step (h : Window c v e w g) (hg : Inv w g) {a : Process.Action}
    (ho : orderly w a = true) (hs : w.step a = some w') (hghost : GhostStep w a.tid g g')
    (ha : Active c w') (hg' : Inv w' g') : Window c v e w' g' := by
  have hm := move_of_step hs
  obtain ⟨hc, hstate⟩ := announces_step hg h.chain h.state hm hghost ha
  refine ⟨hc, hstate, h.notAhead, ?_, fun r hr => ?_⟩
  -- The epoch of the window stays, or it moves on to the successor.
  · rcases h.epoch_step ho hs with he | ⟨-, he⟩
    · rw [he]
      exact h.epoch
    · exact .inr he
  · by_cases hrt : r = a.tid
    -- The thread that scans is the one that has moved.
    · subst hrt
      rcases orderly_cases ho hs with ⟨act, hb, -⟩ | ⟨hpc, hl⟩
      · obtain ⟨he, hwalk | ⟨o, hpc'⟩⟩ := walking_cases hb hr
        · rcases h.walks _ hwalk with hseen | he₀
          · exact .inl (hseen.step hg hghost hb h.state hwalk hr)
          · exact .inr (he.trans he₀)
        · -- The scan has the whole chain ahead.
          rw [hpc']
          exact .inl ⟨[], g'.chain, rfl, hg'.chain.linked.head_eq, hc⟩
      · rw [hl.pc, hpc] at hr
        cases hr
    -- The scan of another thread is where it was, perhaps with new collectors in front.
    · rw [hm.pc_of_ne hrt] at hr ⊢
      have hlocks : locks w r = true := by
        unfold locks
        rw [locking_of_walking hr]
        rfl
      rcases h.walks r hr with hseen | he₀
      · obtain ⟨pre, hpre⟩ := hghost.of_other hg hlocks fun h => hrt h.symm
        rw [hpre]
        exact .inl (hseen.frame pre)
      · -- Another thread cannot store while this one has the lock.
        refine .inr (Eq.trans ?_ he₀)
        rcases orderly_cases ho hs with ⟨act, hb, -⟩ | ⟨-, hl⟩
        · refine (epoch_cases hb).resolve_right ?_
          rintro ⟨o, known, prev, hpc, -⟩
          have hlocking := (hg.locks_unique hlocks fun h => hrt h.symm).1
          rw [hpc] at hlocking
          cases hlocking
        · exact hl.epoch

/-- A collector comes into the chain when it was prepared. -/
theorem GhostStep.mem_back (hghost : GhostStep w t g g') (hc : c ∈ g'.chain) :
    c ∈ g.chain ∨ ∃ p, w.base.pc t = .alloc c p := by
  cases hghost with
  | keep => exact .inl hc
  | push d hpc =>
    rcases List.mem_cons.mp hc with rfl | hc
    · exact .inr ⟨_, hpc⟩
    · exact .inl hc
  | cut front rest d hchain =>
    rw [hchain]
    rcases List.mem_append.mp hc with hc | hc
    · exact .inl (List.mem_append_left _ hc)
    · exact .inl (List.mem_append_right _ (List.mem_cons_of_mem d hc))
  | take => cases hc
  | free => exact .inl hc

/-- Every registered collector that announces an epoch has a window. -/
def Windows (w : Process) (g : Ghost) : Prop :=
  ∀ c v, c ∈ g.chain → (w.base.collectors c).state = ⟨v, false, false⟩ → ∃ e, Window c v e w g

theorem Windows.step (h : Windows w g) (hg : Inv w g) {a : Process.Action}
    (ho : orderly w a = true) (hs : w.step a = some w') (hghost : GhostStep w a.tid g g')
    (hg' : Inv w' g') : Windows w' g' := by
  intro c v hc hstate
  have ha : Active c w' := ⟨congrArg (·.inactive) hstate, congrArg (·.invalid) hstate⟩
  by_cases hold : c ∈ g.chain ∧ (w.base.collectors c).state = ⟨v, false, false⟩
  · obtain ⟨e, hw⟩ := h c v hold.1 hold.2
    exact ⟨e, hw.step hg ho hs hghost ha hg'⟩
  -- A window opens with new_guard, which finds the epoch it has loaded.
  · rcases orderly_cases ho hs with ⟨act, hb, htimely, -⟩ | ⟨hpc, hl⟩
    · rcases publishing_of_active hb hstate with hsame | hpc
      · -- A collector that is prepared is inactive.
        rcases hghost.mem_back hc with hc' | ⟨p, hpc⟩
        · exact absurd ⟨hc', hsame⟩ hold
        · have hcore := hg.owning.unregistered _ (hg.owning.local_of_alloc hpc)
          rw [hpc] at hcore
          have hnew : (w.base.collectors c).state = Collector.new.state := congrArg (·.1) hcore
          cases hsame.symm.trans hnew
      · have he : w'.base.epoch = w.base.epoch := by
          refine (epoch_cases hb).resolve_right ?_
          rintro ⟨o, known, prev, hpc', -⟩
          cases hpc.symm.trans hpc'
        refine ⟨w.base.epoch, hc, hstate, ?_, .inl he, fun r _ => .inr he⟩
        simpa [timely, hpc] using htimely
    · have hsame := hl.state c v hstate
      rcases hghost.mem_back hc with hc' | ⟨p, hpc'⟩
      · exact absurd ⟨hc', hsame⟩ hold
      · cases hpc.symm.trans hpc'

/-- In an orderly run every announced epoch has a window. -/
theorem windows_of_run (h : OrderlyRun .init w) : ∃ g, Inv w g ∧ Owned w g ∧ Windows w g := by
  refine h.invariant (fun w => ∃ g, Inv w g ∧ Owned w g ∧ Windows w g)
    ⟨_, inv_init, owned_init, fun c v hc => by cases hc⟩ ?_
  rintro x a x' ⟨g, hg, howned, hw⟩ ho hs
  obtain ⟨g', hg', hghost⟩ := hg.step (move_of_step hs)
  exact ⟨g', hg', howned.step hg hg' hghost (move_of_step hs), hw.step hg ho hs hghost hg'⟩

end Sdd.Proofs.Exit
