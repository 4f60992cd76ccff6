import Sdd.Proofs.Collector.Epochs
import Sdd.Proofs.Exit.Stages

/-!
# `Sdd.Proofs.Exit.Obsolete`: the readers of an obsolete collector

`suspend()` declares a collector obsolete only when it has no reader. A thread that exits
does not look at the readers, and a guard that was leaked is a reader that stays. Thus
an obsolete collector has no readers if every thread that exits has none
(`numReaders_of_invalid`), and this is needed (`exit_with_reader`).
-/

set_option autoImplicit false

namespace Sdd.Proofs.Exit

open Sdd.Collector Sdd.Lib

variable {b b' : World} {t : Tid} {act : Act} {w : Process} {g : Ghost}

/-- A run of the collector with thread exit has the invariant. -/
theorem inv_of_run {P : Process → Process.Action → Prop} (h : Run Process.step P .init w) :
    ∃ g, Inv w g := by
  refine h.invariant (fun w => ∃ g, Inv w g) ⟨_, inv_init⟩ ?_
  rintro x a x' ⟨g, hg⟩ _ hs
  obtain ⟨g', hg', -⟩ := hg.step (move_of_step hs)
  exact ⟨g', hg'⟩

/-- A thread that exits has no reader in its collector. -/
def guardless (w : Process) (a : Process.Action) : Bool :=
  match a.act, w.base.localCollector a.tid with
  | .exit, some c => (w.base.collectors c).numReaders == 0
  | _, _ => true

/-- No obsolete collector has readers. -/
def Unread (b : World) : Prop := ∀ c, Invalid b c → (b.collectors c).numReaders = 0

/-- What a step does to the cores decides. -/
theorem Unread.of_core (h : Unread b) (hk : ∀ c, core (b'.collectors c) = core (b.collectors c)) :
    Unread b' := by
  intro c hi
  have hs : (b'.collectors c).state = (b.collectors c).state := congrArg Prod.fst (hk c)
  have hn : (b'.collectors c).numReaders = (b.collectors c).numReaders := congrArg (·.2.2) (hk c)
  unfold Invalid at hi
  rw [hs] at hi
  rw [hn]
  exact h c hi

/-- In the collector, a thread gives its collector up when it has no reader. -/
theorem Unread.base (h : Unread b) (ho : Owning b) (hm : Proofs.Move b t act b') : Unread b' := by
  intro c hi
  have hh' : holds b' t ≠ some c := holds_ne_of_invalid (ho.step hm) hi
  by_cases hh : holds b t = some c
  · rcases ho.holds_lost hm hh with hkept | ⟨-, hn⟩
    · exact absurd hkept hh'
    · exact hn
  · -- Nobody has the collector: its core does not change.
    have hk := ho.core_of_foreign hm hh hh'
    have hn : (b'.collectors c).numReaders = (b.collectors c).numReaders := congrArg (·.2.2) hk
    unfold Invalid at hi
    rw [show (b'.collectors c).state = (b.collectors c).state from congrArg Prod.fst hk] at hi
    rw [hn]
    exact h c hi

/-- A thread that exits declares its own collector obsolete. -/
theorem Unread.exit (h : Unread w.base)
    (hg : ∀ c, w.base.localCollector t = some c → (w.base.collectors c).numReaders = 0) :
    Unread (w.exit t).base := by
  intro c hi
  unfold Invalid at hi
  rw [exit_collectors] at hi ⊢
  by_cases hc : c = w.base.nextCollector
  · rw [if_pos hc]
    rfl
  · rw [if_neg hc] at hi ⊢
    by_cases hl : w.base.localCollector t = some c
    · rw [if_pos hl]
      exact hg c hl
    · rw [if_neg hl] at hi ⊢
      exact h c hi

/-- In every run in which no thread exits with a reader, no obsolete collector has readers. -/
theorem numReaders_of_invalid {w : Process}
    (h : Run Process.step (fun w a => guardless w a = true) .init w) {c : CollectorId}
    (hi : Invalid w.base c) : (w.base.collectors c).numReaders = 0 := by
  have hall : (∃ g, Inv w g) ∧ Unread w.base := by
    refine h.invariant (fun w => (∃ g, Inv w g) ∧ Unread w.base) ⟨⟨_, inv_init⟩, nofun⟩ ?_
    rintro x a x' ⟨⟨g, hg⟩, hu⟩ hp hs
    have hm := move_of_step hs
    obtain ⟨g', hg', -⟩ := hg.step hm
    refine ⟨⟨g', hg'⟩, ?_⟩
    rcases hm.cases_aside with ⟨act, b', hb, rfl⟩ | ⟨ha, -, rfl⟩ | ⟨-, ha⟩
    · exact hu.base hg.owning hb
    · refine hu.exit fun c hl => ?_
      unfold guardless at hp
      rw [ha, hl] at hp
      exact of_decide_eq_true hp
    · exact hu.of_core ha.core
  exact hall.2 c hi

/-- For the concrete runs of this directory: the steps of the collector. -/
def steps (l : List Action) : List Process.Action := l.map fun a => ⟨a.tid, .base a.act⟩

/-- A thread suspends its collector, and another one exits after its guard has ended: both
collectors are obsolete, and neither has a reader. -/
theorem numReaders_of_invalid_suspended : ∃ w : Process, Invalid w.base 0 ∧
    Invalid w.base 1 ∧ (w.base.collectors 0).numReaders = 0 ∧
    (w.base.collectors 1).numReaders = 0 := by
  have h : (exec Process.step guardless .init (steps (register 0 ++ register 1 ++
      [⟨0, .newGuard⟩, ⟨0, .proceed⟩, ⟨0, .collect⟩, ⟨0, .endGuard⟩, ⟨0, .proceed⟩,
        ⟨0, .passGarbage⟩, ⟨1, .newGuard⟩, ⟨1, .proceed⟩, ⟨1, .endGuard⟩, ⟨1, .proceed⟩]) ++
      [⟨1, .exit⟩])).any (fun w => (w.base.collectors 0).state.invalid &&
      (w.base.collectors 1).state.invalid) = true := by
    decide
  obtain ⟨w, hw, h⟩ := Run.of_exec_any h
  rw [Bool.and_eq_true] at h
  obtain ⟨hs, he⟩ := h
  exact ⟨w, hs, he, numReaders_of_invalid hw hs, numReaders_of_invalid hw he⟩

/-- A thread leaks its guard and exits: its collector is obsolete, and has a reader. -/
theorem exit_with_reader : ∃ w : Process, ∃ c, Run Process.step (fun _ _ => True) .init w ∧
    Invalid w.base c ∧ (w.base.collectors c).numReaders ≠ 0 := by
  have h : (exec Process.step (fun _ _ => true) .init (steps (register 0 ++ [⟨0, .newGuard⟩,
      ⟨0, .proceed⟩]) ++ [⟨0, .exit⟩])).any (fun w => (w.base.collectors 0).state.invalid &&
      (w.base.collectors 0).numReaders != 0) = true := by
    decide
  obtain ⟨w, hw, h⟩ := Run.of_exec_any h
  rw [Bool.and_eq_true, bne_iff_ne] at h
  exact ⟨w, 0, hw.mono fun _ _ _ => trivial, h.1, h.2⟩

end Sdd.Proofs.Exit
