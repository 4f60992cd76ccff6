import Mathlib.Logic.Function.Basic

/-!
# `Sdd.Lib.Pinning`: participants that pin a shared epoch

The protocol at the core of epoch-based reclamation, over an arbitrary type `C` of
participants and an arbitrary type `E` of epochs with a successor function. A participant
pins an epoch and later unpins. A pinned participant can start a scan with the epoch it is
pinned to; it passes the participants one after another, and stores the successor of its
epoch when all those that were pinned at the start are passed. A participant can be passed
when it is not pinned or is pinned to the epoch of the scan. The scan is not atomic:
participants pin and unpin in the middle of it, also those it has passed already.

A participant may pin an epoch that it read long ago, and may scan from it. The relation
`Step` takes two predicates that say which pins and which stores occur, and the two
sections below draw the consequences of two restrictions.

* `Window c v g s` is the invariant of one pinned participant when nobody pins the
  successor of the epoch and a scan stores only if the epoch is the one it knows or the
  successor of that one: `c` has been pinned to `v` since a moment when the epoch was `g`,
  and the epoch has advanced at most once since. `Pinned.step` says that every pinned
  participant has a window, `Window.step` that a step keeps it as long as the participant
  stays pinned, and `Window.epoch_step` that the epoch only moves from `g` to `next g`.
* `Near` is the invariant when everybody pins the epoch, or its predecessor while no scan
  is in progress: every pinned epoch is the epoch or its predecessor. No store has to be
  excluded then, and `Near.store_epoch` says that a store advances the epoch or keeps it.
-/

set_option autoImplicit false

namespace Sdd.Lib.Pinning

/-- A scan in progress: its owner, the epoch the owner is pinned to, and the participants
that it still has to pass. -/
structure Scan (C E : Type) where
  owner : C
  known : E
  pending : C → Prop

structure State (C E : Type) where
  epoch : E
  pinned : C → Option E
  scan : Option (Scan C E)

variable {C E : Type} [DecidableEq C] {next : E → E}

/-- The steps of the protocol. `okPin` and `okStore` say which pins and stores occur. -/
inductive Step (next : E → E) (okPin : State C E → E → Prop)
    (okStore : State C E → Scan C E → Prop) (s : State C E) : State C E → Prop where
  | skip : Step next okPin okStore s s
  | pin (c : C) (e : E) (hc : s.pinned c = none) (he : okPin s e) :
      Step next okPin okStore s { s with pinned := Function.update s.pinned c (some e) }
  | unpin (c : C) (hc : ∀ sc, s.scan = some sc → sc.owner ≠ c) :
      Step next okPin okStore s { s with pinned := Function.update s.pinned c none }
  | start (c : C) (known : E) (hs : s.scan = none) (hc : s.pinned c = some known) :
      Step next okPin okStore s { s with scan := some ⟨c, known, fun d => s.pinned d ≠ none⟩ }
  | pass (c : C) (sc : Scan C E) (hs : s.scan = some sc)
      (hc : s.pinned c = none ∨ s.pinned c = some sc.known) :
      Step next okPin okStore s
        { s with scan := some { sc with pending := fun d => sc.pending d ∧ d ≠ c } }
  | store (sc : Scan C E) (hs : s.scan = some sc) (hp : ∀ c, ¬ sc.pending c)
      (he : okStore s sc) :
      Step next okPin okStore s { s with epoch := next sc.known, scan := none }
  | abort : Step next okPin okStore s { s with scan := none }

section Window

/-- The epoch that is pinned is not the successor of the current one. -/
def NotAhead (next : E → E) (s : State C E) (e : E) : Prop :=
  e ≠ next s.epoch

/-- The epoch is the one that the scan knows, or the successor of that one. -/
def KnownNear (next : E → E) (s : State C E) (sc : Scan C E) : Prop :=
  s.epoch = sc.known ∨ s.epoch = next sc.known

/-- `c` has been pinned to `v` since a moment when the epoch was `g`. The epoch has
advanced at most once since, and a scan that does not look at `c` any more either knows
the epoch `v` or was in progress at that moment. -/
structure Window (next : E → E) (c : C) (v g : E) (s : State C E) : Prop where
  pinned : s.pinned c = some v
  notAhead : v ≠ next g
  epoch : s.epoch = g ∨ s.epoch = next g
  scan : ∀ sc, s.scan = some sc → sc.pending c ∨ v = sc.known ∨ s.epoch = g

/-- Every pinned participant has a window. -/
def Pinned (next : E → E) (s : State C E) : Prop :=
  ∀ c v, s.pinned c = some v → ∃ g, Window next c v g s

omit [DecidableEq C] in
/-- A store inside the window of `c` leads to `g` or to `next g`. The scan either knows the
epoch `v`, or the epoch is still `g`. -/
private theorem Window.store_epoch {c : C} {v g : E} {s : State C E} {sc : Scan C E}
    (h : Window next c v g s) (hs : s.scan = some sc)
    (hp : ¬ sc.pending c) (he : KnownNear next s sc) :
    next sc.known = g ∧ s.epoch = g ∨ next sc.known = next g := by
  rcases h.scan sc hs with hc | hv | hg
  · exact absurd hc hp
  · -- The scan passed `c` while it was pinned to `v`.
    subst hv
    rcases h.epoch with hg | hg <;> rcases he with hk | hk
    · exact .inr (by rw [← hk, hg])
    · exact .inl ⟨by rw [← hk, hg], hg⟩
    · exact absurd (hk.symm.trans hg) h.notAhead
    · exact .inr (by rw [← hk, hg])
  · rcases he with hk | hk
    · exact .inr (by rw [← hk, hg])
    · exact .inl ⟨by rw [← hk, hg], hg⟩

variable {s s' : State C E} (hstep : Step next (NotAhead next) (KnownNear next) s s')
include hstep

/-- As long as `c` stays pinned, a step moves the epoch at most from `g` to `next g`. -/
theorem Window.epoch_step {c : C} {v g : E} (h : Window next c v g s) :
    s'.epoch = s.epoch ∨ s.epoch = g ∧ s'.epoch = next g := by
  cases hstep with
  | store sc hs hp he =>
    rcases h.store_epoch hs (hp c) he with ⟨hk, hg⟩ | hk
    · exact .inl (hk.trans hg.symm)
    · rcases h.epoch with hg | hg
      · exact .inr ⟨hg, hk⟩
      · exact .inl (hk.trans hg.symm)
  | skip | pin | unpin | start | pass | abort => exact .inl rfl

/-- A step keeps the window of a participant that stays pinned. -/
theorem Window.step {c : C} {v g : E} (h : Window next c v g s)
    (hc : s'.pinned c = s.pinned c) : Window next c v g s' := by
  have hepoch : s'.epoch = g ∨ s'.epoch = next g := by
    rcases h.epoch_step hstep with he | ⟨-, he⟩
    · rw [he]
      exact h.epoch
    · exact .inr he
  refine ⟨hc.trans h.pinned, h.notAhead, hepoch, ?_⟩
  cases hstep with
  | skip | pin | unpin => exact h.scan
  | start d known hs hd =>
    rintro sc hsc
    cases hsc
    refine .inl ?_
    show s.pinned c ≠ none
    rw [h.pinned]
    exact Option.some_ne_none v
  | pass d sc hs hd =>
    rintro sc' hsc
    cases hsc
    rcases h.scan sc hs with hp | hk
    · by_cases hcd : c = d
      · subst hcd
        rcases hd with hd | hd <;> rw [h.pinned] at hd
        · cases hd
        · exact .inr (.inl (Option.some.inj hd))
      · exact .inl ⟨hp, hcd⟩
    · exact .inr hk
  | store | abort =>
    rintro sc hsc
    cases hsc

/-- Every step keeps `Pinned`. The window of a participant that pins starts at the epoch of
that moment. -/
theorem Pinned.step (h : Pinned next s) : Pinned next s' := by
  intro c v hv
  by_cases hc : s'.pinned c = s.pinned c
  · obtain ⟨g, hw⟩ := h c v (hc.symm.trans hv)
    exact ⟨g, hw.step hstep hc⟩
  · -- Only `pin c` changes the pin of `c` to a value.
    cases hstep with
    | pin d e _ he =>
      by_cases hcd : c = d
      · subst hcd
        have hev : e = v := Option.some.inj ((Function.update_self c (some e) s.pinned).symm.trans hv)
        subst hev
        exact ⟨s.epoch, hv, he, .inl rfl, fun _ _ => .inr (.inr rfl)⟩
      · exact absurd (Function.update_of_ne hcd (some e) s.pinned) hc
    | unpin d =>
      by_cases hcd : c = d
      · subst hcd
        cases (Function.update_self c none s.pinned).symm.trans hv
      · exact absurd (Function.update_of_ne hcd none s.pinned) hc
    | skip | start | pass | store | abort => exact absurd rfl hc

end Window

section Near

/-- The epoch that is pinned is the current one, or its predecessor while nobody scans. -/
def Current (next : E → E) (s : State C E) (e : E) : Prop :=
  e = s.epoch ∨ next e = s.epoch ∧ s.scan = none

/-- Every pinned epoch is the epoch or its predecessor. A participant that the scan in
progress does not look at any more is pinned to the epoch the scan knows, or has pinned
the epoch since. -/
structure Near (next : E → E) (s : State C E) : Prop where
  pinned : ∀ c v, s.pinned c = some v → s.epoch = v ∨ s.epoch = next v
  owner : ∀ sc, s.scan = some sc → s.pinned sc.owner = some sc.known
  passed : ∀ sc c v, s.scan = some sc → s.pinned c = some v →
    sc.pending c ∨ v = sc.known ∨ v = s.epoch

omit [DecidableEq C] in
/-- A store advances the epoch, or keeps it when the scan knows the predecessor only. -/
theorem Near.store_epoch {s : State C E} {sc : Scan C E} (h : Near next s)
    (hs : s.scan = some sc) :
    next sc.known = next s.epoch ∨ next sc.known = s.epoch := by
  rcases h.pinned _ _ (h.owner sc hs) with hk | hk
  · exact .inl (by rw [hk])
  · exact .inr hk.symm

/-- Every step keeps `Near`. -/
theorem Near.step {s s' : State C E} {okStore : State C E → Scan C E → Prop} (h : Near next s)
    (hstep : Step next (Current next) okStore s s') : Near next s' := by
  cases hstep with
  | skip => exact h
  | pin c e hc he =>
    refine ⟨fun d v hv => ?_, fun sc hs => ?_, fun sc d v hs hv => ?_⟩
    · by_cases hd : d = c
      · subst hd
        have hev : e = v := Option.some.inj ((Function.update_self d (some e) s.pinned).symm.trans hv)
        subst hev
        exact he.elim (fun he => .inl he.symm) fun he => .inr he.1.symm
      · exact h.pinned d v ((Function.update_of_ne hd (some e) s.pinned).symm.trans hv)
    · have howner : sc.owner ≠ c := by
        rintro rfl
        rw [h.owner sc hs] at hc
        cases hc
      exact (Function.update_of_ne howner (some e) s.pinned).trans (h.owner sc hs)
    · by_cases hd : d = c
      · subst hd
        have hev : e = v := Option.some.inj ((Function.update_self d (some e) s.pinned).symm.trans hv)
        subst hev
        rcases he with he | ⟨-, hn⟩
        · exact .inr (.inr he)
        · cases hn.symm.trans hs
      · exact h.passed sc d v hs ((Function.update_of_ne hd (some e) s.pinned).symm.trans hv)
  | unpin c hc =>
    have hkeep : ∀ d v, Function.update s.pinned c none d = some v → s.pinned d = some v := by
      intro d v hv
      by_cases hd : d = c
      · subst hd
        rw [Function.update_self] at hv
        cases hv
      · rwa [Function.update_of_ne hd] at hv
    refine ⟨fun d v hv => h.pinned d v (hkeep d v hv), fun sc hs => ?_,
      fun sc d v hs hv => h.passed sc d v hs (hkeep d v hv)⟩
    exact (Function.update_of_ne (hc sc hs) none s.pinned).trans (h.owner sc hs)
  | start c known hs hc =>
    refine ⟨h.pinned, ?_, ?_⟩
    · rintro sc hsc
      cases hsc
      exact hc
    · rintro sc d v hsc hv
      cases hsc
      refine .inl ?_
      show s.pinned d ≠ none
      intro hn
      cases hn.symm.trans hv
  | pass c sc hs hc =>
    refine ⟨h.pinned, ?_, ?_⟩
    · rintro sc' hsc
      cases hsc
      exact h.owner sc hs
    · rintro sc' d v hsc hv
      cases hsc
      rcases h.passed sc d v hs hv with hp | hk
      · by_cases hd : d = c
        · subst hd
          rcases hc with hc | hc <;> rw [hv] at hc
          · cases hc
          · exact .inr (.inl (Option.some.inj hc))
        · exact .inl ⟨hp, hd⟩
      · exact .inr hk
  | store sc hs hp _ =>
    refine ⟨fun c v hv => ?_, fun _ hsc => ?_, fun _ _ _ hsc => ?_⟩
    · -- Everybody is passed, so `v` is the known epoch or the current one.
      show next sc.known = v ∨ next sc.known = next v
      rcases h.pinned _ _ (h.owner sc hs) with hk | hk
      · rcases h.passed sc c v hs hv with hpc | hv | hv
        · exact absurd hpc (hp c)
        · exact .inr (by rw [hv])
        · exact .inr (by rw [hv, hk])
      · rw [← hk]
        exact h.pinned c v hv
    · cases hsc
    · cases hsc
  | abort =>
    refine ⟨h.pinned, fun _ hsc => ?_, fun _ _ _ hsc => ?_⟩
    · cases hsc
    · cases hsc

end Near

end Sdd.Lib.Pinning
