import Sdd.Proofs.Exit.Integrity

/-!
# `Sdd.Proofs.Exit.Pins`: a guard pins the epoch

As long as a registered collector announces an epoch, a scan that began meanwhile stores the
next one or nothing. The walk of such a scan has the collector ahead of it until it gets
there (`Ahead`). Then it has seen the announced epoch, and goes on only if that is the epoch
it knows (`Seen`). A scan that knows another epoch never gets to the end of the chain.
-/

set_option autoImplicit false

namespace Sdd.Proofs.Exit

open Process (Stage)
open Sdd.Collector Sdd.Lib

variable {t : Tid} {act : Act} {w w' : Process} {g g' : Ghost} {b b' : World}
  {c : CollectorId} {s : Epoch}

/-- The collector announces an epoch, and is not obsolete. -/
def Active (c : CollectorId) (w : Process) : Prop :=
  (w.base.collectors c).state.inactive = false ∧ (w.base.collectors c).state.invalid = false

/-- A run in which every state has a property. -/
def While (Q : Process → Prop) (w w' : Process) : Prop :=
  Run Process.step (fun x _ => Q x) w w' ∧ Q w'

/-- The collector is in the chain from `current` on. -/
def Ahead (chain : List CollectorId) (c : CollectorId) (current : Option CollectorId) : Prop :=
  ∃ front rest, chain = front ++ rest ∧ current = rest.head? ∧ c ∈ rest

/-- The collector is in the chain after `d`, from `next` on. -/
def After (chain : List CollectorId) (c d : CollectorId) (next : Option CollectorId) : Prop :=
  ∃ front rest, chain = front ++ d :: rest ∧ next = rest.head? ∧ c ∈ rest

/-- What the walk of `scan` knows of a collector that announces `s`: it is still ahead, or
the walk knows the same epoch. -/
def Seen (c : CollectorId) (s : Epoch) (chain : List CollectorId) : Pc → Prop
  | .knownEpoch _ current => Ahead chain c current
  | .scan o known _ current => known.epoch = s ∨ o ≠ c ∧ Ahead chain c current
  | .scanNext o known _ d state => known.epoch = s ∨ o ≠ c ∧ Ahead chain c (some d) ∧
      (d = c → state = ⟨s, false, false⟩)
  | .unlink o known _ d next => known.epoch = s ∨ o ≠ c ∧ After chain c d next
  | _ => True

/-- A collector that is pushed is in front of the walk. -/
theorem Ahead.frame {chain : List CollectorId} {current : Option CollectorId}
    (h : Ahead chain c current) (pre : List CollectorId) : Ahead (pre ++ chain) c current := by
  obtain ⟨front, rest, hc, hcur, hmem⟩ := h
  exact ⟨pre ++ front, rest, by rw [hc, List.append_assoc], hcur, hmem⟩

theorem After.frame {chain : List CollectorId} {d : CollectorId} {next : Option CollectorId}
    (h : After chain c d next) (pre : List CollectorId) : After (pre ++ chain) c d next := by
  obtain ⟨front, rest, hc, hn, hmem⟩ := h
  exact ⟨pre ++ front, rest, by rw [hc, List.append_assoc], hn, hmem⟩

theorem Seen.frame {chain : List CollectorId} {pc : Pc} (h : Seen c s chain pc)
    (pre : List CollectorId) : Seen c s (pre ++ chain) pc := by
  cases pc with
  | knownEpoch o current => exact Ahead.frame h pre
  | scan o known prev current => exact h.imp_right fun ⟨ho, ha⟩ => ⟨ho, ha.frame pre⟩
  | scanNext o known prev d state =>
    exact h.imp_right fun ⟨ho, ha, hd⟩ => ⟨ho, ha.frame pre, hd⟩
  | unlink o known prev d next => exact h.imp_right fun ⟨ho, ha⟩ => ⟨ho, ha.frame pre⟩
  | idle | alloc | newGuard | drain | destructor | lockChain | unlockChain | setInactive
    | markScanEnforced => trivial

/-- What follows a collector in the chain that is not the one. -/
theorem Ahead.after {chain : List CollectorId} {p : Option CollectorId} {d : CollectorId}
    (h : Ahead chain c (some d)) (hl : Linked (nextLinks b) p chain) (hd : d ≠ c) :
    After chain c d (b.collectors d).nextLink := by
  obtain ⟨front, rest, hc, hcur, hmem⟩ := h
  cases rest with
  | nil => cases hcur
  | cons e rest =>
    cases hcur
    exact ⟨front, rest, hc, next_eq_head (hc ▸ hl),
      (List.mem_cons.mp hmem).resolve_left fun he => hd he.symm⟩

/-- The walk goes on after a collector that stays in the chain. -/
theorem After.ahead {chain : List CollectorId} {d : CollectorId} {next : Option CollectorId}
    (h : After chain c d next) : Ahead chain c next := by
  obtain ⟨front, rest, hc, hn, hmem⟩ := h
  exact ⟨front ++ [d], rest, by rw [hc, List.append_assoc]; rfl, hn, hmem⟩

/-- The walk goes on after a collector that was taken out of the chain. -/
theorem After.cut {front rest : List CollectorId} {d : CollectorId} {next : Option CollectorId}
    (h : After (front ++ d :: rest) c d next) (hn : (front ++ d :: rest).Nodup) :
    Ahead (front ++ rest) c next := by
  obtain ⟨front', rest', hc, hnext, hmem⟩ := h
  have hd : d ∉ front' ++ rest' := by
    rw [hc] at hn
    exact (List.nodup_cons.mp (List.nodup_middle.mp hn)).1
  obtain ⟨rfl, -, rfl⟩ := (List.append_cons_inj_of_notMem (fun h => hd (List.mem_append_left _ h))
    fun h => hd (List.mem_append_right _ h)).mp hc.symm
  exact ⟨front', rest', rfl, hnext, hmem⟩

/-- What a step of the thread that holds the lock in `scan` does to the chain. -/
theorem GhostStep.of_locking (hg : GhostStep w t g g') (h : Inv w g)
    (hl : locking (w.base.pc t) = true) : g' = g ∨ ∃ front rest d, g.chain = front ++ d :: rest ∧
      Cutting w.base t d ∧ g'.chain = front ++ rest := by
  have hno := h.apart t hl
  cases hg with
  | keep => exact .inl rfl
  | push d hpc =>
    rw [hpc] at hl
    cases hl
  | cut front rest d hc hi hcut => exact .inr ⟨front, rest, d, hc, hcut, rfl⟩
  | take hi hf hs =>
    obtain ⟨temp, hs⟩ := hs
    rw [hs] at hno
    cases hno
  | free d rest hf hs =>
    obtain ⟨temp, hs⟩ := hs
    rw [hs] at hno
    cases hno

/-- While a thread holds the lock, the others push collectors only. -/
theorem GhostStep.of_other (hg : GhostStep w t g g') (h : Inv w g) {t' : Tid}
    (hl : locks w t' = true) (ht : t ≠ t') : ∃ pre, g'.chain = pre ++ g.chain := by
  obtain ⟨hlock, hhold⟩ := h.locks_unique hl ht
  cases hg with
  | keep => exact ⟨[], rfl⟩
  | push d hpc => exact ⟨[d], rfl⟩
  | cut front rest d hc hi hcut =>
    obtain ⟨o, known, prev, next, hpc, -⟩ := hcut
    rw [hpc] at hlock
    cases hlock
  | take hi hf hs =>
    obtain ⟨temp, hs⟩ := hs
    rw [hs] at hhold
    cases hhold
  | free d rest hf hs =>
    obtain ⟨temp, hs⟩ := hs
    rw [hs] at hhold
    cases hhold

/-- A step of the walk keeps what it knows of a collector that announces `s`. -/
theorem Seen.step (hs : Seen c s g.chain (w.base.pc t)) (h : Inv w g)
    (hg : GhostStep w t g g') (hm : Proofs.Move w.base t act b')
    (hk : (w.base.collectors c).state = ⟨s, false, false⟩) (hw : walking (w.base.pc t) = true)
    (hw' : walking (b'.pc t) = true) : Seen c s g'.chain (b'.pc t) := by
  have hlinked := h.chain.linked
  have hcases := hg.of_locking h (locking_of_walking hw)
  have hsame : (∀ o known prev d next, w.base.pc t ≠ .unlink o known prev d next) → g' = g := by
    intro hno
    rcases hcases with heq | ⟨-, -, d, -, ⟨o, known, prev, next, hpc, -⟩, -⟩
    · exact heq
    · exact absurd hpc (hno o known prev d next)
  have hself : ∀ (x : World) (pc : Pc), (x.goto t pc).pc t = pc := fun x pc =>
    Function.update_self _ _ _
  -- After an obsolete collector the walk goes on, whether it was taken out or not.
  have hunlink : ∀ {o known prev d next}, w.base.pc t = .unlink o known prev d next →
      known.epoch = s ∨ o ≠ c ∧ Ahead g'.chain c next := by
    intro o known prev d next hpc
    rw [hpc] at hs
    refine hs.imp_right fun ⟨ho, ha⟩ => ⟨ho, ?_⟩
    rcases hcases with rfl | ⟨front, rest, e, hc, ⟨o', known', prev', next', hpc', -⟩, hc'⟩
    · exact ha.ahead
    · cases hpc.symm.trans hpc'
      rw [hc']
      rw [hc] at ha
      exact ha.cut (hc ▸ (List.nodup_append.mp h.chain.nodup).1)
  cases hm with
  | knownEpoch o current hpc =>
    rw [hpc] at hs
    rw [hself, hsame (by rw [hpc]; exact nofun)]
    by_cases ho : o = c
    · rw [ho, hk]
      exact .inl rfl
    · exact .inr ⟨ho, hs⟩
  | scanOwn o known prev hpc =>
    rw [hpc] at hs
    rw [hself, hsame (by rw [hpc]; exact nofun)]
    exact hs.imp_right fun ⟨ho, ha⟩ => ⟨ho, (ha.after hlinked ho).ahead⟩
  | scanLoad o known prev d hpc hd =>
    rw [hpc] at hs
    rw [hself, hsame (by rw [hpc]; exact nofun)]
    exact hs.imp_right fun ⟨ho, ha⟩ => ⟨ho, ha, fun he => he ▸ hk⟩
  | nextInvalid o known prev d state hpc hi =>
    rw [hpc] at hs
    rw [hself, hsame (by rw [hpc]; exact nofun)]
    refine hs.imp_right fun ⟨ho, ha, hd⟩ => ⟨ho, ha.after hlinked fun he => ?_⟩
    rw [hd he] at hi
    cases hi
  | nextPass o known prev d state hpc hi hp =>
    rw [hpc] at hs
    rw [hself, hsame (by rw [hpc]; exact nofun)]
    rcases hs with he | ⟨ho, ha, hd⟩
    · exact .inl he
    · by_cases hdc : d = c
      · -- The walk has reached the collector, and goes on: it knows the same epoch.
        rcases hp with hp | hp
        · rw [hd hdc] at hp
          cases hp
        · rw [← hp, hd hdc]
          exact .inl rfl
      · exact .inr ⟨ho, (ha.after hlinked hdc).ahead⟩
  | unlinkHead o known d next hpc hd | unlinkFail o known d next hpc hd
    | unlinkMid o known p d next hpc =>
    rw [hself]
    exact hunlink hpc
  | store o known prev hpc | nextBreak o known prev d state hpc =>
    rw [hself] at hw'
    cases hw'
  | allocBegin hpc | allocRetry o p hpc | allocDone o p hpc | publishSame o e hpc
    | publishQuiet o e hpc | publishRotate o e hpc | drainDone o hpc | drainInst o i rest hpc
    | drainCollector o d rest hpc | destructor o rest hpc | endScan o hpc | endQuiet o u hpc
    | lockFail o hpc | lock o hpc | unlock o hpc | setInactive o hpc
    | markScanEnforced tag hpc =>
    rw [hpc] at hw
    cases hw
  | load o hu | user o f hu | collect o hu | suspendNone ha o hu | suspend o hu =>
    rcases Owning.user_cases hu with ⟨hpc, -⟩ | ⟨rest, hpc⟩ <;> rw [hpc] at hw <;> cases hw

/-- An active collector keeps its state byte while it is active. -/
theorem state_step {a : Process.Act} (h : Inv w g) (hm : Move w t a w') (hc : c ∈ g.chain)
    (ha : Active c w) (ha' : Active c w') :
    (w'.base.collectors c).state = (w.base.collectors c).state := by
  have hlt : c < w.base.nextCollector := h.chain.fresh c (List.mem_append_left _ hc)
  rcases hm.cases_aside with ⟨act, b', hb, rfl⟩ | ⟨-, -, rfl⟩ | ⟨-, has⟩
  · rcases h.owning.state_of_active hb hlt ha.1 with hs | hi | hv
    · exact hs
    · cases ha'.1.symm.trans hi
    · cases ha'.2.symm.trans hv
  · have hv := ha'.2
    rw [exit_collectors, if_neg (Nat.ne_of_lt hlt)] at hv ⊢
    by_cases hl : w.base.localCollector t = some c
    · rw [if_pos hl] at hv
      cases hv
    · rw [if_neg hl]
  · exact congrArg Prod.fst (has.core c)

/-- The collector is registered, and announces `s`. -/
def Announces (c : CollectorId) (s : Epoch) (w : Process) : Prop :=
  ∃ g, Inv w g ∧ c ∈ g.chain ∧ (w.base.collectors c).state = ⟨s, false, false⟩

/-- The collector announces `s`, and the walk of the thread has it ahead or knows `s`. -/
def Walked (c : CollectorId) (s : Epoch) (t : Tid) (w : Process) : Prop :=
  ∃ g, Inv w g ∧ c ∈ g.chain ∧ (w.base.collectors c).state = ⟨s, false, false⟩ ∧
    Seen c s g.chain (w.base.pc t)

/-- A registered collector announces the same epoch while it is active. -/
theorem announces_step {a : Process.Act} (h : Inv w g) (hc : c ∈ g.chain)
    (hs : (w.base.collectors c).state = ⟨s, false, false⟩) (hm : Move w t a w')
    (hg : GhostStep w t g g') (ha' : Active c w') :
    c ∈ g'.chain ∧ (w'.base.collectors c).state = ⟨s, false, false⟩ := by
  have ha : Active c w := ⟨congrArg (·.inactive) hs, congrArg (·.invalid) hs⟩
  refine ⟨?_, (state_step h hm hc ha ha').trans hs⟩
  by_contra hc'
  cases ha.2.symm.trans (unlinking_of_gone hg h hc hc').2

theorem Announces.step {a : Process.Act} (h : Announces c s w) (hm : Move w t a w')
    (ha' : Active c w') : Announces c s w' := by
  obtain ⟨g, hg, hc, hs⟩ := h
  obtain ⟨g', hg', hghost⟩ := hg.step hm
  exact ⟨g', hg', announces_step hg hc hs hm hghost ha'⟩

theorem Walked.step {a : Process.Act} {t' : Tid} (h : Walked c s t w) (hm : Move w t' a w')
    (hw : walking (w.base.pc t) = true) (hw' : walking (w'.base.pc t) = true)
    (ha' : Active c w') : Walked c s t w' := by
  obtain ⟨g, hg, hc, hs, hseen⟩ := h
  obtain ⟨g', hg', hghost⟩ := hg.step hm
  obtain ⟨hc', hs'⟩ := announces_step hg hc hs hm hghost ha'
  refine ⟨g', hg', hc', hs', ?_⟩
  have hidle : w.base.pc t ≠ .idle := fun hpc => by
    rw [hpc] at hw
    cases hw
  by_cases ht : t' = t
  · subst ht
    rcases hm.cases_aside with ⟨act, b', hb, rfl⟩ | ⟨-, hpc, -⟩ | ⟨hpc, -⟩
    · exact hseen.step hg hghost hb hs hw hw'
    · exact absurd hpc hidle
    · exact absurd hpc hidle
  · have hlocks : locks w t = true := by
      unfold locks
      rw [locking_of_walking hw]
      rfl
    obtain ⟨pre, hpre⟩ := hghost.of_other hg hlocks ht
    rw [hpre, hm.pc_of_ne fun h => ht h.symm]
    exact hseen.frame pre

/-- What holds at the beginning and is kept by a step between two states with a property,
holds at the end. -/
theorem While.invariant {Q I : Process → Prop} (h : While Q w w') (h₀ : I w)
    (hstep : ∀ x a x', I x → Q x → Q x' → x.step a = some x' → I x') : I w' := by
  obtain ⟨hr, hq⟩ := h
  induction hr with
  | refl => exact h₀
  | tail a hr hp hs ih => exact hstep _ a _ (ih hp) hp hq hs

theorem While.first {Q : Process → Prop} (h : While Q w w') : Q w := by
  rcases h.1.eq_or_head with rfl | ⟨a, x, hq, -⟩
  · exact h.2
  · exact hq

/-- The publication in `new_guard`. -/
theorem state_of_publish (hpc : w.base.pc t = .newGuard c s)
    (hs : w.step ⟨t, .base .proceed⟩ = some w') :
    (w'.base.collectors c).state = ⟨s, false, false⟩ := by
  have hp : w.base.proceed t = some w'.base := (base_of_step hs).1
  unfold World.proceed at hp
  rw [hpc] at hp
  rw [← Option.some.inj hp]
  unfold World.publish
  simp only [World.modify_collectors, Function.update_self]
  split
  · simp
  · split <;> simp [Collector.rotate]

/-- A scan that acquires the lock has the whole chain ahead. -/
theorem walked_of_lock {d : CollectorId} (h : Announces c s w) (ha' : Active c w')
    (hpc : w.base.pc t = .lockChain d) (hs : w.step ⟨t, .base .proceed⟩ = some w')
    (hw : walking (w'.base.pc t) = true) : Walked c s t w' := by
  obtain ⟨g', hg', hc', hk'⟩ := h.step (move_of_step hs) ha'
  refine ⟨g', hg', hc', hk', ?_⟩
  have hp : w.base.lockChain t d = w'.base := by
    have hp : w.base.proceed t = some w'.base := (base_of_step hs).1
    unfold World.proceed at hp
    rw [hpc] at hp
    exact Option.some.inj hp
  have hlinked := hg'.chain.linked
  unfold World.lockChain at hp
  split at hp
  · rw [← hp, World.scanned, World.goto_pc, Function.update_self] at hw
    cases hw
  · rw [← hp] at hlinked ⊢
    rw [World.goto_pc, Function.update_self]
    exact ⟨[], g'.chain, rfl, hlinked.head_eq, hc'⟩

/-- The store at the end of the walk. -/
theorem epoch_of_storing (h : Walked c s t w) (hst : storing w.base t = true)
    (hs : w.step ⟨t, .base .proceed⟩ = some w') : w'.base.epoch = s.next := by
  obtain ⟨g, hg, hc, hk, hseen⟩ := h
  unfold storing at hst
  split at hst
  · rename_i o known prev hpc
    have hp : w.base.proceed t = some w'.base := (base_of_step hs).1
    unfold World.proceed at hp
    rw [hpc] at hp hseen
    rw [← Option.some.inj hp]
    rcases hseen with he | ⟨-, front, rest, -, hcur, hmem⟩
    · exact congrArg Epoch.next he
    · rw [List.head?_eq_none_iff.mp hcur.symm] at hmem
      cases hmem
  · cases hst

/-- A guard pins the epoch. The collector `c` is registered by `alloc` (`w₀` to `w₁`). Its
thread publishes `s` in `new_guard` (`w₂` to `w₃`), and it stays active and not obsolete. A
thread acquires the chain lock in `scan` meanwhile (`w₄` to `w₅`), and the walk goes on from
there. If the scan stores to the global epoch meanwhile (`w₆` to `w₇`), it stores the
successor of `s`. -/
theorem guard_pins_epoch {w₀ w₁ w₂ w₃ w₄ w₅ w₆ w₇ : Process} {t₀ r t : Tid} {c d : CollectorId}
    {s : Epoch} (h₀ : Run Process.step (fun _ _ => True) .init w₀) (hl : Linking w₀ t₀ c)
    (hs₀ : w₀.step ⟨t₀, .base .proceed⟩ = some w₁)
    (h₁ : Run Process.step (fun _ _ => True) w₁ w₂) (hp : w₂.base.pc r = .newGuard c s)
    (hs₂ : w₂.step ⟨r, .base .proceed⟩ = some w₃) (h₃ : While (Active c) w₃ w₄)
    (hpc : w₄.base.pc t = .lockChain d) (hs₄ : w₄.step ⟨t, .base .proceed⟩ = some w₅)
    (h₅ : While (fun x => Active c x ∧ walking (x.base.pc t) = true) w₅ w₆)
    (hst : storing w₆.base t = true) (hs₆ : w₆.step ⟨t, .base .proceed⟩ = some w₇) :
    w₇.base.epoch = s.next := by
  obtain ⟨g₀, hg₀⟩ := inv_of_run h₀
  have hkept : Kept c w₂ := h₁.invariant (Kept c) (kept_of_linking hg₀ hl hs₀)
    fun x a x' hk _ hs => hk.step (move_of_step hs)
  have hk := state_of_publish hp hs₂
  obtain ⟨g₃, hg₃, -, hc⟩ := hkept.step (move_of_step hs₂)
  have hnot : ¬Invalid w₃.base c := by
    unfold Invalid
    rw [hk]
    nofun
  have h₄ : Announces c s w₄ := h₃.invariant ⟨g₃, hg₃, hc.resolve_right hnot, hk⟩
    fun x a x' hx _ ha' hs => hx.step (move_of_step hs) ha'
  have hlock : Walked c s t w₅ := walked_of_lock h₄ h₅.first.1 hpc hs₄ h₅.first.2
  exact epoch_of_storing (h₅.invariant hlock fun x a x' hx hq hq' hs =>
    hx.step (move_of_step hs) hq.2 hq'.2 hq'.1) hst hs₆

/-- A thread has a guard, and the scan of another one stores the next epoch. -/
theorem guard_pins_epoch_reader : ∃ w w' : Process, storing w.base 1 = true ∧
    w.step ⟨1, .base .proceed⟩ = some w' ∧ w'.base.epoch = Epoch.default.next := by
  let active : Process → Bool := fun w =>
    !(w.base.collectors 0).state.inactive && !(w.base.collectors 0).state.invalid
  have hactive : ∀ {w}, active w = true → Active 0 w := fun h => by
    simpa [active, Active] using h
  have h : (exec Process.step (fun _ _ => true) .init (steps [⟨0, .alloc⟩])).any (fun w₀ =>
      w₀.base.pc 0 == .alloc 0 w₀.base.chainHead &&
      (w₀.step ⟨0, .base .proceed⟩).any fun w₁ =>
      (exec Process.step (fun _ _ => true) w₁ (steps (register 1 ++ [⟨0, .newGuard⟩]))).any fun w₂ =>
      w₂.base.pc 0 == .newGuard 0 .default && (w₂.step ⟨0, .base .proceed⟩).any fun w₃ =>
      (exec Process.step (fun x _ => active x) w₃ (steps (scanning 1))).any fun w₄ =>
      (active w₄ && w₄.base.pc 1 == .lockChain 1) && (w₄.step ⟨1, .base .proceed⟩).any fun w₅ =>
      (exec Process.step (fun x _ => active x && walking (x.base.pc 1)) w₅
        (steps (proceed 1 4))).any fun w₆ =>
      ((active w₆ && walking (w₆.base.pc 1)) && storing w₆.base 1) &&
      (w₆.step ⟨1, .base .proceed⟩).isSome) = true := by
    decide
  obtain ⟨w₀, h₀, h⟩ := Run.of_exec_any h
  rw [Bool.and_eq_true, Option.any_eq_true] at h
  obtain ⟨hl, w₁, hs₀, h⟩ := h
  obtain ⟨w₂, h₁, h⟩ := Run.of_exec_any h
  rw [Bool.and_eq_true, Option.any_eq_true] at h
  obtain ⟨hp, w₃, hs₂, h⟩ := h
  obtain ⟨w₄, h₃, h⟩ := Run.of_exec_any h
  rw [Bool.and_eq_true, Bool.and_eq_true, Option.any_eq_true] at h
  obtain ⟨⟨ha₄, hpc⟩, w₅, hs₄, h⟩ := h
  obtain ⟨w₆, h₅, h⟩ := Run.of_exec_any h
  rw [Bool.and_eq_true, Bool.and_eq_true, Bool.and_eq_true, Option.isSome_iff_exists] at h
  obtain ⟨⟨⟨ha₆, hw₆⟩, hst⟩, w₇, hs₆⟩ := h
  refine ⟨w₆, w₇, hst, hs₆, guard_pins_epoch (h₀.mono fun _ _ _ => trivial) (beq_iff_eq.mp hl)
    hs₀ (h₁.mono fun _ _ _ => trivial) (of_decide_eq_true hp) hs₂
    ⟨h₃.mono fun _ _ hx => hactive hx, hactive ha₄⟩ (of_decide_eq_true hpc) hs₄
    ⟨h₅.mono fun x _ hx => ?_, hactive ha₆, hw₆⟩ hst hs₆⟩
  rw [Bool.and_eq_true] at hx
  exact ⟨hactive hx.1, hx.2⟩

end Sdd.Proofs.Exit
