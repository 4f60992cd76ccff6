import Sdd.Local
import Sdd.Lib.Run

/-!
# `Sdd.Proofs.Local.Move`: what one action can do

`Local.step` with its branches resolved: `Move m a m'` has one constructor for each way in
which the action `a` leads from `m` to `m'`.
-/

set_option autoImplicit false

namespace Sdd.Proofs

variable {m m' : Local}

namespace Local

/-- One action, with the branches of `Local.step` resolved. -/
inductive Move (m : Local) : Local.Act → Local → Prop where
  | guardSame (e : Epoch) (hu : m.user = true) (hn : m.numReaders = 0) (he : m.announcement = e) :
      Move m (.newGuard e) { m with numReaders := 1, inactive := false }
  | guardQuiet (e : Epoch) (hu : m.user = true) (hn : m.numReaders = 0) (he : m.announcement ≠ e)
      (hg : m.hasGarbage = false) :
      Move m (.newGuard e) { m with
        numReaders := 1, inactive := false, announcement := e
        nextEpochUpdate := Local.CADENCE }
  /-- Another epoch is observed, and the lists rotate. -/
  | turn (e : Epoch) (hu : m.user = true) (hn : m.numReaders = 0) (he : m.announcement ≠ e)
      (hg : m.hasGarbage = true) :
      Move m (.newGuard e) { m with
        numReaders := 1, inactive := false, announcement := e
        own := ⟨m.own.currentInstanceLink, none, m.own.previousInstanceLink⟩
        hasGarbage := m.own.previousInstanceLink.isSome || m.own.currentInstanceLink.isSome
        pc := .drain m.own.nextInstanceLink }
  | guardNested (e : Epoch) (hu : m.user = true) (hn : m.numReaders ≠ 0) :
      Move m (.newGuard e) { m with numReaders := m.numReaders + 1 }
  | endNested (hu : m.user = true) (hn : m.numReaders ≠ 0) (hn' : m.numReaders ≠ 1) :
      Move m .endGuard { m with numReaders := m.numReaders - 1 }
  | endLast (hpc : m.pc = .idle) (hn : m.numReaders = 1) : Move m .endGuard (m.endGuard false)
  | collect (hu : m.user = true) :
      Move m .collect ({ m with
        nextNode := m.nextNode + 1
        lists := Function.update m.lists m.nextNode none }.collect m.nextNode)
  | accelerate (hn : m.numReaders ≠ 0) : Move m .accelerate { m with nextEpochUpdate := 0 }
  | setHasGarbage (hn : m.numReaders ≠ 0) : Move m .setHasGarbage { m with hasGarbage := true }
  | drained (hpc : m.pc = .drain none) :
      Move m .proceed { m with nextEpochUpdate := Local.CADENCE, pc := .idle }
  | drain (n : Node) (hpc : m.pc = .drain (some n)) (hf : m.freed n = false) :
      Move m .proceed (m.dropBox (m.link n) [] n)
  | clear (link : Option Node) (f : Local.Clear) (callers : List Local.Clear) (n : Node)
      (hpc : m.pc = .clear link f callers) (hl : f.link = some n) (hf : m.freed n = false) :
      Move m .proceed (m.dropBox link ({ f with link := m.link n } :: callers) n)
  | clearNext (link : Option Node) (f : Local.Clear) (callers : List Local.Clear)
      (next : Option Node) (rest : List (Option Node)) (hpc : m.pc = .clear link f callers)
      (hl : f.link = none) (hc : f.garbageContainers = next :: rest) :
      Move m .proceed { m with pc := .clear link ⟨f.collector, next, rest⟩ callers }
  /-- `clear_for_drop` takes the lists of the collector. -/
  | clearTake (link : Option Node) (f : Local.Clear) (callers : List Local.Clear)
      (lists : Local.Lists) (hpc : m.pc = .clear link f callers) (hl : f.link = none)
      (hc : f.garbageContainers = []) (hlists : m.lists f.collector = some lists) :
      Move m .proceed { m with
        lists := Function.update m.lists f.collector (some .empty)
        pc := .clear link ⟨f.collector, none, lists.garbageContainers⟩ callers }
  | clearDone (link : Option Node) (f : Local.Clear) (callers : List Local.Clear)
      (hpc : m.pc = .clear link f callers) (hl : f.link = none) (hc : f.garbageContainers = [])
      (hlists : m.lists f.collector = some .empty) :
      Move m .proceed (m.freeBox link callers f.collector)
  | destructor (link : Option Node) (callers : List Local.Clear) (n : Node)
      (hpc : m.pc = .destructor link callers n) : Move m .proceed (m.freeBox link callers n)
  | unwound (hpc : m.pc = .unwind none) : Move m .proceed { m with pc := .endGuard }
  | unwind (n : Node) (hpc : m.pc = .unwind (some n)) (hf : m.freed n = false) :
      Move m .proceed { m.collect n with pc := .unwind (m.link n) }
  | endPanic (hpc : m.pc = .endGuard) (hn : m.numReaders = 1) : Move m .proceed (m.endGuard true)
  | endPanicNested (hpc : m.pc = .endGuard) (hn : m.numReaders ≠ 1) :
      Move m .proceed { m with numReaders := m.numReaders - 1, pc := .panicked }
  | scanned (panics : Bool) (hpc : m.pc = .scan panics) :
      Move m .proceed ({ m with nextEpochUpdate := Local.CADENCE }.setInactive panics)
  | panic (link : Option Node) (callers : List Local.Clear) (n : Node)
      (hpc : m.pc = .destructor link callers n) :
      Move m .panic { m with
        freed := fun x => m.freed x || x == n || callers.any (·.collector == x)
        pc := .unwind link }
  | unlink (d : Node) (panics : Bool) (hpc : m.pc = .scan panics) (hd : d ∈ m.chain) :
      Move m (.unlink d) ({ m with chain := m.chain.erase d }.collect d)
  | caught (hpc : m.pc = .panicked) : Move m .caught { m with pc := .idle }
  | mark (marked : Bool) : Move m (.mark marked) { m with marked := marked }

/-- Each step of the machine is one of the moves. -/
theorem move_of_step {a : Local.Act} (h : m.step a = some m') : Move m a m' := by
  cases a with
  | newGuard e =>
    obtain ⟨hu, h⟩ := Option.ite_none_right_eq_some.mp h
    unfold Local.newGuard at h
    split at h
    · rename_i hn
      split at h <;> rename_i he
      · cases h
        exact .guardSame e hu hn he
      · unfold Local.epochUpdated at h
        split at h <;> rename_i hg <;> cases h
        · exact .turn e hu hn he hg
        · exact .guardQuiet e hu hn he (Bool.eq_false_iff.mpr hg)
    · rename_i hn
      obtain ⟨-, h⟩ := Option.ite_none_left_eq_some.mp h
      cases h
      exact .guardNested e hu hn
  | endGuard =>
    obtain ⟨⟨hu, hn⟩, h⟩ := Option.ite_none_right_eq_some.mp h
    split at h
    · rename_i hn'
      cases h
      exact .endNested hu hn hn'
    · rename_i hn'
      split at h
      · rename_i hpc
        cases h
        exact .endLast hpc (not_not.mp hn')
      · cases h
  | collect =>
    obtain ⟨hu, h⟩ := Option.ite_none_right_eq_some.mp h
    cases h
    exact .collect hu
  | accelerate =>
    obtain ⟨⟨-, hn⟩, h⟩ := Option.ite_none_right_eq_some.mp h
    cases h
    exact .accelerate hn
  | setHasGarbage =>
    obtain ⟨⟨-, hn⟩, h⟩ := Option.ite_none_right_eq_some.mp h
    cases h
    exact .setHasGarbage hn
  | proceed =>
    change m.proceed = some m' at h
    unfold Local.proceed at h
    -- The link of a node is read before the node is freed.
    have hread : ∀ {n : Node} {f : Option Node → Local},
        (m.nextPtr n).map f = some m' → m.freed n = false ∧ f (m.link n) = m' := by
      intro n f hf
      obtain ⟨link, hlink, rfl⟩ := Option.map_eq_some_iff.mp hf
      obtain ⟨hfree, hlink⟩ := Option.ite_none_left_eq_some.mp hlink
      cases hlink
      exact ⟨Bool.eq_false_iff.mpr hfree, rfl⟩
    split at h <;> rename_i hpc
    · cases h
    · cases h
    · cases h
      exact .drained hpc
    · obtain ⟨hf, rfl⟩ := hread h
      exact .drain _ hpc hf
    · unfold Local.clear at h
      split at h
      · rename_i hl
        obtain ⟨hf, rfl⟩ := hread h
        exact .clear _ _ _ _ hpc hl hf
      · rename_i hl hc
        cases h
        exact .clearNext _ _ _ _ _ hpc hl hc
      · rename_i hl hc
        obtain ⟨lists, hlists, h⟩ := Option.map_eq_some_iff.mp h
        split at h <;> subst h
        · rename_i hempty
          exact .clearDone _ _ _ hpc hl hc (hempty ▸ hlists)
        · exact .clearTake _ _ _ lists hpc hl hc hlists
    · cases h
      exact .destructor _ _ _ hpc
    · cases h
      exact .unwound hpc
    · obtain ⟨hf, rfl⟩ := hread h
      exact .unwind _ hpc hf
    · split at h <;> rename_i hn <;> cases h
      · exact .endPanic hpc hn
      · exact .endPanicNested hpc hn
    · cases h
      exact .scanned _ hpc
  | panic =>
    change m.panic = some m' at h
    unfold Local.panic at h
    split at h
    · rename_i hpc
      cases h
      exact .panic _ _ _ hpc
    · cases h
  | unlink d =>
    simp only [Local.step] at h
    split at h
    · rename_i hpc
      obtain ⟨hd, h⟩ := Option.ite_none_right_eq_some.mp h
      cases h
      exact .unlink d _ hpc hd
    · cases h
  | caught =>
    simp only [Local.step] at h
    split at h
    · rename_i hpc
      cases h
      exact .caught hpc
    · cases h
  | mark marked =>
    cases h
    exact .mark marked

end Local

end Sdd.Proofs
