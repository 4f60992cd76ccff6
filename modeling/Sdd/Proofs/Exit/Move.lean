import Sdd.Process
import Sdd.Proofs.Collector.Threads

/-!
# `Sdd.Proofs.Exit.Move`: what one action can do, with thread exit

`Process.step` with its branches resolved, as `Sdd.Proofs.Move` does it for the collector.
A step of the collector is one constructor; it is resolved further by `move_of_step`. The
two loops that drop garbage, in `clear_chain` and in `clear_for_drop`, differ in the place
they continue at only, which `Loop` records.
-/

set_option autoImplicit false

namespace Sdd.Proofs.Exit

open Sdd.Collector
open Process (Stage)

/-- A loop that drops garbage: the place before the next piece, the place in a destructor,
and the place after the loop. -/
inductive Loop : (List Garbage → Stage) → (List Garbage → Stage) → Stage → Prop where
  | chain (temp : CollectorId) (next : Option CollectorId) :
      Loop (.drop temp · next) (.dropping temp · next) (.free temp next)
  | temp (temp : CollectorId) : Loop (.clearDrop temp) (.clearDropping temp) (.clear temp)

/-- One action of the thread `t`, with the branches of `Process.step` resolved. -/
inductive Move (w : Process) (t : Tid) (act : Process.Act) : Process → Prop where
  | base (a : Act) (b : World) (hu : (w.stage t).user = true)
      (ha : (w.stage t).temp ≠ none → a ≠ .alloc) (hs : w.base.step ⟨t, a⟩ = some b) :
      Move w t act {
        base := b
        stage := Function.update w.stage t (Process.used (w.stage t) a)
        freed := Process.dropped w.base t a ++ w.freed }
  /-- The thread exits. -/
  | exit (ha : act = .exit) (hs : w.stage t = .live) (hpc : w.base.pc t = .idle) :
      Move w t act (w.exit t)
  | lockFail (temp : CollectorId) (hs : w.stage t = .lockChain temp) (hpc : w.base.pc t = .idle) :
      Move w t act (w.goto t (.markScanEnforced temp))
  | lock (temp : CollectorId) (hs : w.stage t = .lockChain temp) (hpc : w.base.pc t = .idle)
      (hf : w.base.chainHead.tag ≠ .first) (hb : w.base.chainHead.tag ≠ .both) :
      Move w t act ((w.withBase { w.base with chainHead := w.base.chainHead.withTag .first }).goto t
        (.walk temp w.base.chainHead.addr w.base.chainHead.addr))
  /-- A collector in the chain is not obsolete. -/
  | walkStop (temp d : CollectorId) (head : Option CollectorId)
      (hs : w.stage t = .walk temp head (some d)) (hpc : w.base.pc t = .idle)
      (hv : (w.base.collectors d).state.invalid = false) :
      Move w t act (w.goto t (.unlockChain temp false))
  | walkPass (temp d : CollectorId) (head : Option CollectorId)
      (hs : w.stage t = .walk temp head (some d)) (hpc : w.base.pc t = .idle)
      (hv : (w.base.collectors d).state.invalid = true) :
      Move w t act (w.goto t (.walkNext temp head d))
  | walkNext (temp d : CollectorId) (head : Option CollectorId)
      (hs : w.stage t = .walkNext temp head d) (hpc : w.base.pc t = .idle) :
      Move w t act (w.goto t (.walk temp head (w.base.collectors d).nextLink))
  /-- The whole chain is taken. -/
  | take (temp : CollectorId) (head : Option CollectorId) (hs : w.stage t = .walk temp head none)
      (hpc : w.base.pc t = .idle) (hh : w.base.chainHead.addr = head) :
      Move w t act ((w.withBase { w.base with chainHead := ⟨none, w.base.chainHead.tag⟩ }).goto t
        (.free temp head))
  | takeFail (temp : CollectorId) (head : Option CollectorId)
      (hs : w.stage t = .walk temp head none) (hpc : w.base.pc t = .idle)
      (hh : w.base.chainHead.addr ≠ head) :
      Move w t act (w.goto t (.unlockChain temp false))
  | free (temp d : CollectorId) (hs : w.stage t = .free temp (some d))
      (hpc : w.base.pc t = .idle) :
      Move w t act ((w.drop d).goto t
        (.drop temp (w.base.collectors d).garbage (w.base.collectors d).nextLink))
  | freeDone (temp : CollectorId) (hs : w.stage t = .free temp none) (hpc : w.base.pc t = .idle) :
      Move w t act (w.goto t (.unlockChain temp true))
  | loopDone (running destructor : List Garbage → Stage) (finished : Stage)
      (hl : Loop running destructor finished) (hs : w.stage t = running [])
      (hpc : w.base.pc t = .idle) : Move w t act (w.goto t finished)
  | loopInst (running destructor : List Garbage → Stage) (finished : Stage)
      (hl : Loop running destructor finished) (i : InstId) (rest : List Garbage)
      (hs : w.stage t = running (.inst i :: rest)) (hpc : w.base.pc t = .idle) :
      Move w t act ((w.withBase { w.base with dropped := i :: w.base.dropped }).goto t
        (destructor rest))
  | loopCollector (running destructor : List Garbage → Stage) (finished : Stage)
      (hl : Loop running destructor finished) (d : CollectorId) (rest : List Garbage)
      (hs : w.stage t = running (.collector d :: rest)) (hpc : w.base.pc t = .idle) :
      Move w t act ((w.drop d).goto t (running ((w.base.collectors d).garbage ++ rest)))
  /-- A destructor returns. -/
  | loopReturn (running destructor : List Garbage → Stage) (finished : Stage)
      (hl : Loop running destructor finished) (rest : List Garbage)
      (hs : w.stage t = destructor rest) (hpc : w.base.pc t = .idle) :
      Move w t act (w.goto t (running rest))
  | unlock (temp : CollectorId) (cleared : Bool) (hs : w.stage t = .unlockChain temp cleared)
      (hpc : w.base.pc t = .idle) :
      Move w t act ((w.withBase w.base.unlockChain).goto t
        (if cleared then .clear temp else .markScanEnforced temp))
  | mark (temp : CollectorId) (hs : w.stage t = .markScanEnforced temp)
      (hpc : w.base.pc t = .idle) :
      Move w t act ((w.withBase w.base.markScanEnforced).goto t (.clear temp))
  /-- `clear_for_drop` takes the lists of the temporary collector. -/
  | clear (temp : CollectorId) (hs : w.stage t = .clear temp) (hpc : w.base.pc t = .idle)
      (hg : (w.base.collectors temp).garbage ≠ []) :
      Move w t act ((w.withBase (w.base.modify temp .cleared)).goto t
        (.clearDrop temp (w.base.collectors temp).garbage))
  | done (temp : CollectorId) (hs : w.stage t = .clear temp) (hpc : w.base.pc t = .idle)
      (hg : (w.base.collectors temp).garbage = []) :
      Move w t act ({ w.withBase { w.base with
          localCollector := Function.update w.base.localCollector t none } with
        freed := temp :: w.freed }.goto t .done)

variable {act : Process.Act}

/-- One turn of a loop that drops a list: an instance, a collector, or the end. -/
private theorem move_dropNext {w : Process} {t : Tid} {running destructor : List Garbage → Stage}
    {finished : Stage} (hl : Loop running destructor finished) {g : List Garbage}
    (hs : w.stage t = running g) (hpc : w.base.pc t = .idle) :
    Move w t act (w.dropNext t running destructor finished g) := by
  match g, hs with
  | [], hs => exact .loopDone running destructor finished hl hs hpc
  | .inst i :: rest, hs => exact .loopInst running destructor finished hl i rest hs hpc
  | .collector d :: rest, hs => exact .loopCollector running destructor finished hl d rest hs hpc

/-- `clear_chain` looks at the next collector, or has seen all of them. -/
private theorem move_walk {w : Process} {t : Tid} {temp : CollectorId}
    {head current : Option CollectorId} (hs : w.stage t = .walk temp head current)
    (hpc : w.base.pc t = .idle) : Move w t act (w.walk t temp head current) := by
  unfold Process.walk
  cases current with
  | none =>
    simp only
    split
    · rename_i hh
      exact .take temp head hs hpc hh
    · rename_i hh
      exact .takeFail temp head hs hpc hh
  | some d =>
    simp only
    split
    · rename_i hv
      exact .walkPass temp d head hs hpc hv
    · rename_i hv
      exact .walkStop temp d head hs hpc (by simpa using hv)

/-- The next access of a thread that exits. -/
private theorem move_proceed {w w' : Process} {t : Tid} (hpc : w.base.pc t = .idle)
    (h : w.proceed t = some w') : Move w t act w' := by
  unfold Process.proceed at h
  split at h
  · cases h
  · cases h
  · cases h
  · rename_i temp hs
    cases h
    unfold Process.lockChain
    split
    · exact .lockFail temp hs hpc
    · rename_i hl
      exact .lock temp hs hpc (fun hf => hl (.inl hf)) (fun hb => hl (.inr hb))
  · rename_i hs
    cases h
    exact move_walk hs hpc
  · rename_i temp head d hs
    cases h
    exact .walkNext temp d head hs hpc
  · rename_i temp current hs
    cases h
    cases current with
    | none => exact .freeDone temp hs hpc
    | some d => exact .free temp d hs hpc
  · rename_i temp garbage next hs
    cases h
    exact move_dropNext (.chain temp next) hs hpc
  · rename_i temp garbage next hs
    cases h
    exact .loopReturn _ _ _ (.chain temp next) garbage hs hpc
  · rename_i temp cleared hs
    cases h
    exact .unlock temp cleared hs hpc
  · rename_i temp hs
    cases h
    exact .mark temp hs hpc
  · rename_i temp hs
    cases h
    unfold Process.clear
    split
    · rename_i hg
      exact .done temp hs hpc hg
    · rename_i hg
      exact .clear temp hs hpc hg
  · rename_i temp garbage hs
    cases h
    exact move_dropNext (.temp temp) hs hpc
  · rename_i temp garbage hs
    cases h
    exact .loopReturn _ _ _ (.temp temp) garbage hs hpc

/-- Every action is a move. -/
theorem move_of_step {w w' : Process} {a : Process.Action} (h : w.step a = some w') :
    Move w a.tid a.act w' := by
  obtain ⟨t, act⟩ := a
  cases act with
  | base act =>
    simp only [Process.step, Process.stepBase] at h
    split at h
    · rename_i hu
      obtain ⟨b, hb, rfl⟩ := Option.map_eq_some_iff.mp h
      exact .base act b hu.1 hu.2 hb
    · cases h
  | exit =>
    simp only [Process.step] at h
    split at h
    · rename_i hs
      cases h
      exact .exit rfl hs.1 hs.2
    · cases h
  | proceed =>
    simp only [Process.step] at h
    split at h
    · rename_i hpc
      exact move_proceed hpc h
    · cases h

/-- A step of the collector. -/
theorem base_of_step {w w' : Process} {t : Tid} {a : Act} (h : w.step ⟨t, .base a⟩ = some w') :
    w.base.step ⟨t, a⟩ = some w'.base ∧
      w'.stage = Function.update w.stage t (Process.used (w.stage t) a) := by
  simp only [Process.step, Process.stepBase] at h
  split at h
  · obtain ⟨b, hb, rfl⟩ := Option.map_eq_some_iff.mp h
    exact ⟨hb, rfl⟩
  · cases h

/-- Inside of a call of the collector a thread takes a step of the collector. -/
theorem Move.base_of_busy {w w' : Process} {t : Tid} (hm : Move w t act w')
    (hi : w.base.pc t ≠ .idle) : ∃ a, w.base.step ⟨t, a⟩ = some w'.base := by
  cases hm with
  | base a b hu ha hs => exact ⟨a, hs⟩
  | exit ha hs hpc | lockFail temp hs hpc | lock temp hs hpc | walkStop temp d head hs hpc
    | walkPass temp d head hs hpc | walkNext temp d head hs hpc | take temp head hs hpc
    | takeFail temp head hs hpc | free temp d hs hpc | freeDone temp hs hpc
    | loopDone running destructor finished hl hs hpc
    | loopInst running destructor finished hl i rest hs hpc
    | loopCollector running destructor finished hl d rest hs hpc
    | loopReturn running destructor finished hl rest hs hpc | unlock temp cleared hs hpc
    | mark temp hs hpc | clear temp hs hpc | done temp hs hpc => exact absurd hpc hi

/-- A move of `t` leaves the other threads where they stand. -/
theorem Move.stage_of_ne {w w' : Process} {t t' : Tid} (hm : Move w t act w') (ht : t' ≠ t) :
    w'.stage t' = w.stage t' := by
  cases hm
  all_goals exact Function.update_of_ne ht _ _

end Sdd.Proofs.Exit
