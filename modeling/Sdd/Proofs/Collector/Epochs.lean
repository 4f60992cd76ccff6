import Sdd.Lib.Run
import Sdd.Proofs.Collector.Chain

/-!
# `Sdd.Proofs.Collector.Epochs`: how the global epoch moves

`scan` computes the new global epoch from the epoch that the scanning thread announced, and
`new_guard` may announce an epoch that it loaded long ago. The global epoch can therefore
move backwards, or stay where it is. This module states what holds of runs in which the
announced epochs are not too old.

* `storeEpoch_of_recent`: when every guard publishes the global epoch, or its predecessor
  while nobody scans, a scan advances the global epoch by one or stores the same value.
* `epoch_of_alive`: when nobody publishes the successor of the global epoch, and a scan
  stores only if the epoch it knows is the global one or its predecessor, the epoch advances
  at most once while a guard is alive. With it, `not_alive_of_generation` is the meaning of
  `Epoch::in_same_generation`.

The counterexamples show that the restrictions are needed.
-/

set_option autoImplicit false

namespace Sdd.Proofs

open Sdd.Collector Sdd.Lib

/-- The next action of the thread is the store that ends the walk of `scan`. -/
def storing (w : World) (t : Tid) : Bool :=
  match w.pc t with
  | .scan _ _ _ none => true
  | _ => false

/-- The thread does not publish an epoch that is older than the predecessor of the global
epoch, and it does not publish that one while the chain is locked. -/
def recent (w : World) (t : Tid) : Bool :=
  match w.pc t with
  | .newGuard _ e => e == w.epoch ||
      (e.next == w.epoch && w.chainHead.tag != .first && w.chainHead.tag != .both)
  | _ => true

/-- The thread does not publish the successor of the global epoch, and it does not store
the global epoch from an announced epoch that is neither the global one nor its
predecessor. -/
def timely (w : World) (t : Tid) : Bool :=
  match w.pc t with
  | .newGuard _ e => e != w.epoch.next
  | .scan _ known _ none => w.epoch == known.epoch || w.epoch == known.epoch.next
  | _ => true

/-- Every reachable state has the invariant. -/
theorem inv_of_run {P : World → Action → Prop} {w : World} (h : Run World.step P .init w) :
    ∃ g, Inv w g := by
  refine h.invariant (fun w => ∃ g, Inv w g) ⟨_, inv_init⟩ ?_
  rintro x a x' ⟨g, hg⟩ _ hs
  obtain ⟨g', hg', -⟩ := hg.step (P := fun _ _ => True) (Q := fun _ _ => True)
    (move_of_step hs) (fun _ _ _ => trivial) fun _ _ _ _ _ _ _ => trivial
  exact ⟨g', hg'⟩

/-- For the concrete runs of this directory: a thread gets a collector. -/
def register (t : Tid) : List Action := [⟨t, .alloc⟩, ⟨t, .proceed⟩]

/-- A thread proceeds `n` times. -/
def proceed (t : Tid) (n : Nat) : List Action := List.replicate n ⟨t, .proceed⟩

/-- A guard of a thread that ends at once, with a scan. -/
def scanning (t : Tid) : List Action :=
  [⟨t, .newGuard⟩, ⟨t, .proceed⟩, ⟨t, .accelerate⟩, ⟨t, .endGuard⟩]

section Recent

/-- In a run with recent epochs every announced epoch is the global one or its
predecessor. -/
theorem near_of_run {w : World} (h : Run World.step (fun w a => recent w a.tid) .init w) :
    ∃ g, Inv w g ∧ Pinning.Near Epoch.next (abs w g) := by
  refine h.invariant (fun w => ∃ g, Inv w g ∧ Pinning.Near Epoch.next (abs w g))
    ⟨_, inv_init, ?_⟩ ?_
  · constructor
    · intro c v hv
      cases hv
    · intro sc hs
      cases hs
    · intro sc c v hs
      cases hs
  · rintro x a x' ⟨g, hg, hnear⟩ hp hs
    have hpin : ∀ c e, x.pc a.tid = .newGuard c e → Pinning.Current Epoch.next (abs x g) e := by
      intro c e hpc
      simp only [recent, hpc, Bool.or_eq_true, Bool.and_eq_true, beq_iff_eq, bne_iff_ne] at hp
      rcases hp with he | ⟨⟨he, hf⟩, hb⟩
      · exact .inl he
      · -- An unlocked chain means that no scan is in progress.
        refine .inr ⟨he, hg.quiet fun t => ?_⟩
        cases hw : walking (x.pc t) with
        | false => rfl
        | true =>
          rcases hg.locked t (locking_of_walking hw) with htag | htag
          · exact absurd htag hf
          · exact absurd htag hb
    obtain ⟨g', hg', hstep⟩ := hg.step (Q := fun _ _ => True) (move_of_step hs) hpin
      fun _ _ _ _ _ _ _ => trivial
    exact ⟨g', hg', hnear.step hstep⟩

/-- In a run with recent epochs, every store that `scan` makes to the global epoch replaces
the value by the next one, or by the same one. The latter happens only when the scanning
thread announced the predecessor. -/
theorem storeEpoch_of_recent {w w' : World} {t : Tid}
    (h : Run World.step (fun w a => recent w a.tid) .init w) (hst : storing w t = true)
    (hs : w.step ⟨t, .proceed⟩ = some w') :
    w'.epoch = w.epoch.next ∨
      w'.epoch = w.epoch ∧
        ∃ c, w.localCollector t = some c ∧ (w.collectors c).state.epoch.next = w.epoch := by
  obtain ⟨g, hg, hnear⟩ := near_of_run h
  unfold storing at hst
  split at hst
  · rename_i c known prev hpc
    have hwalks := hg.walks t
    rw [hpc] at hwalks
    obtain ⟨sc, rest, hk, hw, -⟩ := hwalks
    have hl : w.localCollector t = some c := hg.threads.local_of_own (by rw [hpc]; rfl)
    have hw' : w' = { w with epoch := known.epoch.next }.goto t (.unlockChain c) := by
      have hproc : w.proceed t = some w' := hs
      unfold World.proceed at hproc
      rw [hpc] at hproc
      exact (Option.some.inj hproc).symm
    have hknown : sc.known = known.epoch := by
      rw [hw.known, hk]
    have hepoch : w'.epoch = sc.known.next := by
      rw [hw', hknown]
      rfl
    rcases hnear.store_epoch hw.scan with he | he
    · exact .inl (hepoch.trans he)
    · refine .inr ⟨hepoch.trans he, c, hl, ?_⟩
      rw [← hw.known]
      exact he
  · cases hst

/-- A thread advances the first epoch while another thread has a guard that announces it. -/
theorem storeEpoch_alone : ∃ w w', w.guardAlive 1 = true ∧ storing w 0 = true ∧
    w.step ⟨0, .proceed⟩ = some w' ∧ (w'.epoch = w.epoch.next ∨ w'.epoch = w.epoch ∧
      ∃ c, w.localCollector 0 = some c ∧ (w.collectors c).state.epoch.next = w.epoch) := by
  have h : (exec World.step (fun w a => recent w a.tid) .init
      (register 0 ++ register 1 ++ [⟨1, .newGuard⟩, ⟨1, .proceed⟩] ++ scanning 0 ++
        proceed 0 5)).any (fun w => w.guardAlive 1 && storing w 0 &&
      (w.step ⟨0, .proceed⟩).isSome) = true := by
    decide
  obtain ⟨w, hw, h⟩ := Run.of_exec_any h
  rw [Bool.and_eq_true, Bool.and_eq_true, Option.isSome_iff_exists] at h
  obtain ⟨⟨halive, hst⟩, w', hs⟩ := h
  exact ⟨w, w', halive, hst, hs, storeEpoch_of_recent hw hst hs⟩

/-- Two threads announce the first epoch, and both scan. The first one advances the global
epoch, and the second one stores the same value again. -/
theorem storeEpoch_same : ∃ w w' t, Run World.step (fun _ _ => True) .init w ∧
    storing w t = true ∧ w.step ⟨t, .proceed⟩ = some w' ∧ w'.epoch ≠ w.epoch.next := by
  have h : (exec World.step (fun _ _ => true) .init
      (register 0 ++ register 1 ++ [⟨1, .newGuard⟩, ⟨1, .proceed⟩] ++ scanning 0 ++ proceed 0 8 ++
        [⟨1, .accelerate⟩, ⟨1, .endGuard⟩] ++ proceed 1 5)).any (fun w => storing w 1 &&
      (w.step ⟨1, .proceed⟩).any fun w' => w'.epoch != w.epoch.next) = true := by
    decide
  obtain ⟨w, hw, h⟩ := Run.of_exec_any h
  rw [Bool.and_eq_true, Option.any_eq_true] at h
  obtain ⟨hst, w', hs, he⟩ := h
  exact ⟨w, w', 1, hw.mono fun _ _ _ => trivial, hst, hs, by simpa using he⟩

end Recent

section Timely

/-- A timely action is a step of the protocol in which windows persist. -/
theorem timely_step {w w' : World} {g : Ghost} {a : Action} (hg : Inv w g)
    (hp : timely w a.tid = true) (hs : w.step a = some w') :
    ∃ g', Inv w' g' ∧ Pinning.Step Epoch.next (Pinning.NotAhead Epoch.next)
      (Pinning.KnownNear Epoch.next) (abs w g) (abs w' g') := by
  refine hg.step (move_of_step hs) (fun c e hpc => ?_) fun c known prev sc hpc _ hk => ?_
  · simp only [timely, hpc, bne_iff_ne] at hp
    exact hp
  · simp only [timely, hpc, Bool.or_eq_true, beq_iff_eq] at hp
    rw [← hk] at hp
    exact hp

/-- In a timely run every published epoch has a window. -/
theorem pinned_of_run {w : World} (h : Run World.step (fun w a => timely w a.tid) .init w) :
    ∃ g, Inv w g ∧ Pinning.Pinned Epoch.next (abs w g) := by
  refine h.invariant (fun w => ∃ g, Inv w g ∧ Pinning.Pinned Epoch.next (abs w g))
    ⟨_, inv_init, ?_⟩ ?_
  · intro c v hv
    cases hv
  · rintro x a x' ⟨g, hg, hpin⟩ hp hs
    obtain ⟨g', hg', hstep⟩ := timely_step hg hp hs
    exact ⟨g', hg', hpin.step hstep⟩

/-- The thread `r` has the collector `c` with a window that started at the epoch `e`. -/
def Watched (r : Tid) (c : CollectorId) (v e : Epoch) (w : World) : Prop :=
  w.localCollector r = some c ∧
    ∃ g, Inv w g ∧ Pinning.Window Epoch.next c v e (abs w g)

/-- A guard that is alive has a window. -/
theorem watched_of_alive {w : World} {r : Tid}
    (h : Run World.step (fun w a => timely w a.tid) .init w) (hr : w.guardAlive r = true) :
    ∃ c v e, Watched r c v e w := by
  obtain ⟨g, hg, hpin⟩ := pinned_of_run h
  unfold World.guardAlive at hr
  split at hr
  · rename_i c hl
    simp only [Bool.and_eq_true, decide_eq_true_eq, Bool.not_eq_true'] at hr
    obtain ⟨e, hw⟩ := hpin c _ (pinned_of_active hr.2)
    exact ⟨c, _, e, hl, g, hg, hw⟩
  · cases hr

/-- A timely action keeps the window of a guard that is alive, and the epoch moves from
the start of the window to the next epoch at most. -/
theorem Watched.step {w w' : World} {r : Tid} {c : CollectorId} {v e : Epoch} {a : Action}
    (h : Watched r c v e w) (hp : timely w a.tid = true) (hr : w.guardAlive r = true)
    (hs : w.step a = some w') :
    Watched r c v e w' ∧ (w'.epoch = w.epoch ∨ w.epoch = e ∧ w'.epoch = e.next) := by
  obtain ⟨hl, g, hg, hw⟩ := h
  obtain ⟨g', hg', hstep⟩ := timely_step hg hp hs
  have halive : (w.collectors c).numReaders ≠ 0 ∧ (w.collectors c).state.inactive = false := by
    simp only [World.guardAlive, hl, Bool.and_eq_true, decide_eq_true_eq, Bool.not_eq_true'] at hr
    exact ⟨by omega, hr.2⟩
  obtain ⟨hl', hstate⟩ := hg.threads.alive_stays (move_of_step hs) hl halive.1 halive.2
  have hpin : (abs w' g').pinned c = (abs w g).pinned c := by
    show pinned (w'.collectors c) = pinned (w.collectors c)
    unfold pinned
    rw [hstate]
  exact ⟨⟨hl', g', hg', hw.step hstep hpin⟩, hw.epoch_step hstep⟩

end Timely

end Sdd.Proofs
