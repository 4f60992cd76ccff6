import Sdd.Lib.Run
import Sdd.Proofs.Exit.Obsolete

/-!
# `Sdd.Proofs.Exit.Flags`: the flags that ask for a scan

`end_guard` counts `next_epoch_update` down only if `has_garbage` is set or a scan is requested.
`Flags` says that `has_garbage` is set whenever there is something on one of the three lists, and
that the count never exceeds `CADENCE`. Both are read from the step function: a move does not say
how the flags change.
-/

set_option autoImplicit false

namespace Sdd.Proofs.Exit

open Sdd.Collector Sdd.Lib

/-- The flags of one collector. -/
structure Flagged (k : Collector) : Prop where
  small : k.nextEpochUpdate ≤ Collector.CADENCE
  garbage : k.garbage ≠ [] → k.hasGarbage = true

/-- The flags of every collector. -/
def Flags (b : World) : Prop := ∀ c, Flagged (b.collectors c)

variable {b b' : World} {t : Tid} {c : CollectorId} {k k' : Collector}

/-- A write that keeps the lists and the flags. -/
theorem Flagged.congr (h : Flagged k) (hu : k'.nextEpochUpdate ≤ Collector.CADENCE)
    (hg : k'.garbage = k.garbage) (hf : k.hasGarbage = true → k'.hasGarbage = true) :
    Flagged k' where
  small := hu
  garbage hne := hf (h.garbage (hg ▸ hne))

/-- `collect` sets the flag. -/
theorem Flagged.collect (h : Flagged k) (x : Garbage) : Flagged (k.collect x) where
  small := h.small
  garbage _ := rfl

/-- A collector without garbage needs no flag. -/
theorem Flagged.cleared (h : Flagged k) : Flagged k.cleared where
  small := h.small
  garbage hne := absurd rfl hne

/-- After the rotation `has_garbage` says whether something is left. -/
theorem Flagged.rotate (h : Flagged k) : Flagged k.rotate where
  small := h.small
  garbage hne := by
    by_contra hno
    refine hne ?_
    have hflag : (!k.previousInstanceLink.isEmpty || !k.currentInstanceLink.isEmpty) = false :=
      Bool.eq_false_iff.mpr hno
    simp only [Bool.or_eq_false_iff, Bool.not_eq_false', List.isEmpty_iff] at hflag
    show k.currentInstanceLink ++ [] ++ k.previousInstanceLink = []
    rw [hflag.1, hflag.2]
    rfl

/-- A new collector has no garbage. -/
theorem flagged_new : Flagged .new := ⟨Nat.le_refl _, fun h => absurd rfl h⟩

/-- Only the collector that changes has to be looked at. -/
theorem Flags.modify (h : Flags b) {f : Collector → Collector}
    (hf : Flagged (b.collectors c) → Flagged (f (b.collectors c))) : Flags (b.modify c f) := by
  intro d
  rw [World.modify_collectors]
  by_cases hd : d = c
  · subst hd
    rw [Function.update_self]
    exact hf (h d)
  · rw [Function.update_of_ne hd]
    exact h d

/-- A write to fields that are not flags. -/
theorem Flags.write (h : Flags b) {f : Collector → Collector}
    (hu : (f (b.collectors c)).nextEpochUpdate = (b.collectors c).nextEpochUpdate)
    (hg : (f (b.collectors c)).garbage = (b.collectors c).garbage)
    (hf : (f (b.collectors c)).hasGarbage = (b.collectors c).hasGarbage) : Flags (b.modify c f) :=
  h.modify fun hk => hk.congr (hu ▸ hk.small) hg fun hg => hf.trans hg

/-- A new value of `next_epoch_update`. -/
theorem Flags.setUpdate (h : Flags b) {u : Nat} (hu : u ≤ Collector.CADENCE) :
    Flags (b.modify c fun k => { k with nextEpochUpdate := u }) :=
  h.modify fun hk => hk.congr hu rfl id

/-- The count starts again when `scan` returns. -/
theorem Flags.scanned (h : Flags b) : Flags (b.scanned t c) :=
  h.setUpdate (c := c) (Nat.le_refl Collector.CADENCE)

/-- A rotation moves garbage between the lists, and does not lose the flag. -/
theorem Flags.publish (h : Flags b) {e : Epoch} : Flags (b.publish t c e) := by
  have hstate : Flags (b.modify c fun k => { k with state := ⟨e, false, false⟩ }) :=
    h.write rfl rfl rfl
  unfold World.publish
  simp only
  split
  · exact hstate
  · have hepoch : Flags ((b.modify c fun k => { k with state := ⟨e, false, false⟩ }).modify c
        fun k => { k with announcement := e }) := hstate.write rfl rfl rfl
    split
    · exact hepoch.modify (c := c) (f := .rotate) fun hk => hk.rotate
    · exact hepoch.setUpdate (c := c) (Nat.le_refl Collector.CADENCE)

/-- A dropped instance leaves the third list, and a dropped collector has no garbage afterwards. -/
theorem Flags.drain (h : Flags b) {l : List Garbage} : Flags (b.drain t c l) := by
  match l with
  | [] => exact h.setUpdate (c := c) (Nat.le_refl Collector.CADENCE)
  | .inst i :: rest => exact h
  | .collector d :: rest => exact h.modify (c := d) (f := .cleared) fun hk => hk.cleared

/-- `new_guard` looks at the flag, and does not change it. -/
theorem Flags.newGuard (h : Flags b) (hs : b.newGuard t c = some b') : Flags b' := by
  unfold World.newGuard at hs
  split at hs
  · cases hs
    exact h.write (c := c) (f := fun k => { k with numReaders := 1 }) rfl rfl rfl
  · split at hs
    · cases hs
    · cases hs
      exact h.write rfl rfl rfl

/-- `end_guard` looks at the flag, and the count becomes smaller at most. -/
theorem Flags.endGuard (h : Flags b) (hs : b.endGuard t c = some b') : Flags b' := by
  have hzero : Flags (b.modify c fun k => { k with numReaders := 0 }) := h.write rfl rfl rfl
  unfold World.endGuard at hs
  split at hs
  · cases hs
  · split at hs
    · split at hs
      · simp only at hs
        split at hs
        · cases hs
          exact hzero
        · split at hs
          · cases hs
            exact hzero.modify (c := c) (f := fun k => { k with
              nextEpochUpdate := k.nextEpochUpdate - 1 }) fun hk =>
                hk.congr (Nat.le_trans (Nat.sub_le _ _) hk.small) rfl id
          · cases hs
            exact hzero
      · cases hs
    · cases hs
      exact h.write rfl rfl rfl

/-- An obsolete collector becomes garbage of the thread that scans, with the flag. -/
theorem Flags.unlink (h : Flags b) {known : StateByte} {prev next : Option CollectorId}
    {d : CollectorId} : Flags (b.unlink t c known prev d next) := by
  unfold World.unlink
  cases prev with
  | none =>
    simp only
    split
    · exact Flags.modify (b := { b with chainHead := ⟨next, b.chainHead.tag⟩ }) (c := c)
        (f := (·.collect (.collector d))) h fun hk => hk.collect _
    · exact h
  | some p =>
    have hlink : Flags (b.modify p fun k => { k with nextLink := next }) := h.write rfl rfl rfl
    exact hlink.modify (c := c) (f := (·.collect (.collector d))) fun hk => hk.collect _

/-- Every step of the collector keeps the flags. -/
theorem Flags.step (h : Flags b) {a : Action} (hs : b.step a = some b') : Flags b' := by
  obtain ⟨t, act⟩ := a
  cases act with
  | proceed =>
    change b.proceed t = some b' at hs
    unfold World.proceed at hs
    cases hpc : b.pc t with
    | idle =>
      rw [hpc] at hs
      cases hs
    | alloc c current =>
      have hlink : Flags (b.modify c fun k => { k with nextLink := current.addr }) :=
        h.write rfl rfl rfl
      simp only [hpc] at hs
      split at hs <;> cases hs <;> exact hlink
    | newGuard c e =>
      rw [hpc] at hs
      cases hs
      exact h.publish
    | drain c l =>
      rw [hpc] at hs
      cases hs
      exact h.drain
    | lockChain c =>
      rw [hpc] at hs
      cases hs
      unfold World.lockChain
      split
      · exact h.scanned
      · exact h
    | scan c known prev current =>
      rw [hpc] at hs
      cases hs
      unfold World.scan
      cases current with
      | none => exact h
      | some d =>
        simp only
        split <;> exact h
    | scanNext c known prev d state =>
      rw [hpc] at hs
      cases hs
      unfold World.scanNext
      simp only
      split
      · exact h
      · split <;> exact h
    | unlink c known prev d next =>
      rw [hpc] at hs
      cases hs
      exact h.unlink
    | unlockChain c =>
      rw [hpc] at hs
      cases hs
      exact Flags.scanned (b := b.unlockChain) h
    | setInactive c =>
      rw [hpc] at hs
      cases hs
      exact h.write (c := c) (f := fun k => { k with state := ⟨k.announcement, true, false⟩ })
        rfl rfl rfl
    | markScanEnforced =>
      rw [hpc] at hs
      cases hs
      unfold World.markScanEnforced
      split <;> exact h
    | destructor _ _ | knownEpoch _ _ =>
      rw [hpc] at hs
      cases hs
      exact h
  | alloc =>
    obtain ⟨-, hs⟩ := Option.ite_none_right_eq_some.mp hs
    cases hs
    intro d
    show Flagged (Function.update b.collectors b.nextCollector .new d)
    by_cases hd : d = b.nextCollector
    · rw [hd, Function.update_self]
      exact flagged_new
    · rw [Function.update_of_ne hd]
      exact h d
  | newGuard =>
    obtain ⟨c, -, hs⟩ := Option.bind_eq_some_iff.mp hs
    exact h.newGuard hs
  | endGuard =>
    obtain ⟨c, -, hs⟩ := Option.bind_eq_some_iff.mp hs
    exact h.endGuard hs
  | collect =>
    obtain ⟨c, -, rfl⟩ := Option.map_eq_some_iff.mp hs
    exact Flags.modify (f := (·.collect (.inst b.nextInst))) h fun hk => hk.collect _
  | passGarbage =>
    obtain ⟨c, -, rfl⟩ := Option.map_eq_some_iff.mp hs
    unfold World.passGarbage
    split
    · exact h
    · exact h.write (c := c) (f := fun k => { k with state := { k.state with invalid := true } })
        rfl rfl rfl
  | accelerate =>
    obtain ⟨c, -, hs⟩ := Option.bind_eq_some_iff.mp hs
    obtain ⟨-, hs⟩ := Option.ite_none_left_eq_some.mp hs
    cases hs
    exact h.setUpdate (Nat.zero_le _)
  | setHasGarbage =>
    obtain ⟨c, -, hs⟩ := Option.bind_eq_some_iff.mp hs
    obtain ⟨-, hs⟩ := Option.ite_none_left_eq_some.mp hs
    cases hs
    exact h.modify fun hk => hk.congr hk.small rfl fun _ => rfl

/-- Every state of a run has the flags set. -/
theorem flags_of_run {P : Process → Process.Action → Prop} {w : Process}
    (h : Run Process.step P .init w) : Flags w.base := by
  refine h.invariant (fun w => Flags w.base) (fun _ => flagged_new) fun x a x' hx _ hs => ?_
  cases move_of_step hs with
  | base act b hu ha hb => exact hx.step hb
  | exit ha hst hpc =>
    intro d
    rw [exit_collectors]
    split
    · exact ⟨Nat.zero_le _, fun hne => absurd rfl hne⟩
    · split
      · exact (hx d).congr (hx d).small rfl id
      · exact hx d
  | free temp d hst hpc => exact hx.modify fun hk => hk.cleared
  | loopCollector running destructor finished hl d rest hst hpc =>
    exact hx.modify fun hk => hk.cleared
  | clear temp hst hpc hg => exact hx.modify fun hk => hk.cleared
  | mark temp hst hpc =>
    show Flags x.base.markScanEnforced
    unfold World.markScanEnforced
    split <;> exact hx
  | _ => exact hx

end Sdd.Proofs.Exit
