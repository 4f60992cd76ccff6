import Sdd.Proofs.Local.Places

/-!
# `Sdd.Proofs.Local.Steps`: what the actions keep

`Placed.move`: each action leads from an assignment of the nodes to the next one. `Readers` relates
the number of readers and the `INACTIVE` bit to the place of the thread, and `Flagged` is what
`has_garbage` says of the lists. By `proceeds` the collector never reads the link of a node that
was freed.
-/

set_option autoImplicit false

namespace Sdd.Proofs

open Sdd.Lib

variable {m m' : Local} {L : Local.Spot → List Node}

namespace Local

/-- The readers of the collector, and whether it is inactive, at a place of the thread. -/
def Readers (m : Local) : Prop :=
  match m.pc with
  | .idle | .panicked => m.numReaders = 0 ↔ m.inactive = true
  | .scan _ => m.numReaders = 0 ∧ m.inactive = false
  | _ => m.numReaders ≠ 0 ∧ m.inactive = false

/-- Outside of the collector the thread is in no loop. -/
theorem idle_of_user (hr : Readers m) (hu : m.user = true) (hn : m.numReaders = 0) :
    m.pc = .idle := by
  unfold Local.user at hu
  unfold Readers at hr
  cases hpc : m.pc <;> simp_all

/-- `end_guard` scans, or it is at its end. -/
theorem endGuard_pc (panics : Bool) : (m.endGuard panics).pc = .scan panics ∨
    (m.endGuard panics).pc = if panics then .panicked else .idle := by
  unfold Local.endGuard
  split
  · exact .inl rfl
  · split <;> exact .inr rfl

/-- `end_guard` touches no list. -/
theorem Placed.endGuard (h : Placed m L) (panics : Bool) (hg : garbageLink m.pc = none)
    (hc : clears m.pc = []) : Placed (m.endGuard panics) L := by
  have hpc : garbageLink (m.endGuard panics).pc = none ∧ clears (m.endGuard panics).pc = [] ∧
      ∀ link callers n, (m.endGuard panics).pc ≠ .destructor link callers n := by
    rcases endGuard_pc (m := m) panics with hpc | hpc
    · rw [hpc]
      exact ⟨rfl, rfl, nofun⟩
    · rw [hpc]
      cases panics <;> exact ⟨rfl, rfl, nofun⟩
  have hsame : (m.endGuard panics).link = m.link ∧ (m.endGuard panics).lists = m.lists ∧
      (m.endGuard panics).freed = m.freed ∧ (m.endGuard panics).nextNode = m.nextNode ∧
      (m.endGuard panics).chain = m.chain ∧ (m.endGuard panics).own = m.own ∧
      (m.endGuard panics).dropped = m.dropped := by
    unfold Local.endGuard
    split
    · exact ⟨rfl, rfl, rfl, rfl, rfl, rfl, rfl⟩
    · split <;> exact ⟨rfl, rfl, rfl, rfl, rfl, rfl, rfl⟩
  obtain ⟨h₁, h₂, h₃, h₄, h₅, h₆, h₇⟩ := hsame
  exact h.congr h₁ h₂ h₃ h₄ h₅ h₆ h₇ (hpc.1.trans hg.symm) (hpc.2.1.trans hc.symm)
    fun link callers n hrun => absurd hrun (hpc.2.2 link callers n)

/-- Each action leads from an assignment to the next one. -/
theorem Placed.move (h : Placed m L) (hr : Readers m) {a : Local.Act} (hm : Move m a m') :
    Placed m' (after m L a) := by
  cases hm with
  | guardSame e hu hn he =>
    have hL : after m L (.newGuard e) = L := by simp [after, observes, he]
    rw [hL]
    exact h.congr rfl rfl rfl rfl rfl rfl rfl rfl rfl fun _ _ _ hrun => hrun
  | guardQuiet e hu hn he hg =>
    have hL : after m L (.newGuard e) = L := by simp [after, hg]
    rw [hL]
    exact h.congr rfl rfl rfl rfl rfl rfl rfl rfl rfl fun _ _ _ hrun => hrun
  | turn e hu hn he hg =>
    have hL : after m L (.newGuard e) = turned L := by simp [after, observes, hu, hn, he, hg]
    rw [hL]
    exact h.turn (idle_of_user hr hu hn) rfl rfl rfl rfl rfl rfl rfl rfl
  | guardNested e hu hn =>
    have hL : after m L (.newGuard e) = L := by simp [after, observes, hn]
    rw [hL]
    exact h.congr rfl rfl rfl rfl rfl rfl rfl rfl rfl fun _ _ _ hrun => hrun
  | endNested hu hn hn' =>
    exact h.congr rfl rfl rfl rfl rfl rfl rfl rfl rfl fun _ _ _ hrun => hrun
  | endLast hpc hn => exact h.endGuard false (by rw [hpc]; rfl) (by rw [hpc]; rfl)
  | collect hu =>
    have hnew : ¬Listed L m.nextNode := fun ⟨p, hp⟩ => Nat.lt_irrefl _ (h.fresh p _ hp)
    have hadded : Added .current m.nextNode L
        (Function.update L .current (m.nextNode :: L .current)) := by
      refine ⟨?_, fun q hq => Function.update_of_ne hq ..⟩
      rw [Function.update_self]
    show Placed _ (Function.update L .current (m.nextNode :: L .current))
    refine Placed.collect h (n := m.nextNode) (h.scattered.add hadded hnew)
      (Function.update_self ..)
      (fun p hp _ _ => hadded.same p hp) rfl rfl (hadded.same .garbage (by simp) ▸ h.garbage)
      ((hadded.same .chain (by simp)).trans h.chain) (.inr rfl) rfl rfl rfl (fun _ _ _ hrun => hrun)
      (Nat.le_succ _) (fun p x hx => ?_) ⟨Nat.lt_succ_self _, ?_⟩
    · rcases hadded.mem.mp hx with hx | ⟨-, rfl⟩
      · exact .inr hx
      · exact .inl rfl
    · exact (h.unused m.nextNode (Nat.le_refl _)).1
  | accelerate hn | setHasGarbage hn =>
    exact h.congr rfl rfl rfl rfl rfl rfl rfl rfl rfl fun _ _ _ hrun => hrun
  | drained hpc =>
    have hL : after m L .proceed = L := by simp [after, hpc]
    rw [hL]
    exact h.congr rfl rfl rfl rfl rfl rfl rfl (by rw [hpc]; rfl) (by rw [hpc]; rfl) (by simp)
  | drain n hpc hf =>
    have hl := h.garbage
    rw [hpc] at hl
    obtain ⟨rest, hrest, hlink⟩ := hl.eq_cons
    have hL : after m L .proceed = moved L .garbage rest .dropped n := by
      simp [after, hpc, hrest]
    rw [hL]
    refine h.dropBox (.inl rfl) hrest (by rw [hpc]; rfl) (by simp) ?_
    rw [moved_from (p := .garbage) (q := .dropped) (by simp)]
    exact hlink
  | clear link f callers n hpc hl hf =>
    have hclears : clears m.pc = f :: callers := by rw [hpc]; rfl
    have hmem : f ∈ clears m.pc := hclears ▸ List.mem_cons_self
    have hfc := h.clearing f hmem
    rw [hl] at hfc
    obtain ⟨rest, hrest, hlinks⟩ := LinkedAll.eq_cons hfc
    have hdistinct := h.distinct
    rw [hclears, List.map_cons, List.nodup_cons] at hdistinct
    have hL : after m L .proceed = moved L (.inside f.collector) rest .dropped n := by
      simp [after, hpc, hl, hrest]
    rw [hL]
    refine h.dropBox (.inr ⟨f, hmem, rfl⟩) hrest (by rw [hclears]; rfl) (fun g hg => ?_) ?_
    · rcases List.mem_cons.mp hg with rfl | hg
      · rw [moved_from (p := .inside f.collector) (q := .dropped) (by simp)]
        exact hlinks
      · have hne : Spot.inside g.collector ≠ .inside f.collector := fun heq =>
          hdistinct.1 (Spot.inside.inj heq ▸ List.mem_map_of_mem hg)
        rw [moved_of_ne (q := .dropped) hne (by simp)]
        exact h.clearing g (hclears.symm ▸ List.mem_cons_of_mem f hg)
    · have hlink := h.garbage
      rw [hpc] at hlink
      rw [moved_of_ne (r := .garbage) (p := .inside f.collector) (q := .dropped) (by simp) (by simp)]
      exact hlink
  | clearNext link f callers next rest hpc hl hc =>
    have hL : after m L .proceed = L := by simp [after, hpc, hl]
    have hmem : f ∈ clears m.pc := by rw [hpc]; exact List.mem_cons_self
    have hfc := h.clearing f hmem
    rw [hl, hc] at hfc
    rw [hL]
    exact h.clear ⟨f.collector, next, rest⟩ hpc rfl rfl rfl rfl rfl rfl rfl rfl
      (fun _ _ => rfl) (h.opened f hmem).2.2 (LinkedAll.cons_none.mp hfc)
  | clearTake link f callers lists hpc hl hc hlists =>
    have hL : after m L .proceed = L := by simp [after, hpc, hl]
    have hmem : f ∈ clears m.pc := by rw [hpc]; exact List.mem_cons_self
    have hfc := h.clearing f hmem
    rw [hl, hc, containers, hlists] at hfc
    have hempty : Function.update m.lists f.collector (some .empty) f.collector = some .empty :=
      Function.update_self ..
    rw [hL]
    refine h.clear ⟨f.collector, none, lists.garbageContainers⟩ hpc rfl rfl rfl rfl rfl rfl rfl rfl
      (fun d hd => Function.update_of_ne hd ..) (Option.isSome_of_eq_some hempty) ?_
    show LinkedAll m.link (_ ++ Option.elim (Function.update m.lists f.collector _ _) _ _) _
    rw [hempty]
    -- The lists are in the local variables now, and the collector has empty ones.
    exact (LinkedAll.append_none (none :: lists.garbageContainers) 3).mpr hfc
  | clearDone link f callers hpc hl hc hlists =>
    have hL : after m L .proceed = L := by simp [after, hpc, hl]
    have hclears : clears m.pc = f :: callers := by rw [hpc]; rfl
    have hdistinct := h.distinct
    rw [hclears, List.map_cons, List.nodup_cons] at hdistinct
    have hmem : f ∈ clears m.pc := hclears ▸ List.mem_cons_self
    rw [hL]
    refine h.freeBox (by rw [hpc]; rfl) (h.opened f hmem).1
      (hclears ▸ List.sublist_cons_self f callers) (fun g hg => ?_) (fun g hg heq => ?_)
    · rw [hclears] at hg
      rcases List.mem_cons.mp hg with rfl | hg
      · exact .inr rfl
      · exact .inl hg
    · exact hdistinct.1 (heq ▸ List.mem_map_of_mem hg)
  | destructor link callers n hpc =>
    have hL : after m L .proceed = L := by simp [after, hpc]
    have hclears : clears m.pc = callers := by rw [hpc]; rfl
    obtain ⟨hd, -, hnone⟩ := h.running link callers n hpc
    rw [hL]
    refine h.freeBox (by rw [hpc]; rfl) hd (hclears ▸ .refl callers) (fun g hg => .inl (hclears ▸ hg))
      (fun g hg heq => ?_)
    -- An instance is not a collector.
    have hsome := (h.opened g (hclears.symm ▸ hg)).2.2
    rw [heq, hnone] at hsome
    cases hsome
  | unwound hpc =>
    have hL : after m L .proceed = L := by simp [after, hpc]
    rw [hL]
    exact h.congr rfl rfl rfl rfl rfl rfl rfl (by rw [hpc]; rfl) (by rw [hpc]; rfl) (by simp)
  | unwind n hpc hf =>
    have hl := h.garbage
    rw [hpc] at hl
    obtain ⟨rest, hrest, hlink⟩ := hl.eq_cons
    have hL : after m L .proceed = moved L .garbage rest .current n := by
      simp [after, hpc, hrest]
    have hperm : (L .garbage).Perm (n :: rest) := hrest ▸ .rfl
    have hn : n ∈ L .garbage := hrest ▸ List.mem_cons_self
    have hs := h.scattered.rearrange
      (moved_rearranged (p := .garbage) (q := .current) (by simp) hperm)
    rw [hL]
    refine Placed.collect h (n := n) hs moved_to
      (fun p hp hp' _ => moved_of_ne hp' hp) rfl rfl ?_ ?_ (.inl rfl) rfl rfl (by rw [hpc]; rfl)
      (by simp) (Nat.le_refl _) (fun p x hx => ?_) ⟨h.fresh _ n hn, hf⟩
    · rw [moved_from (p := .garbage) (q := .current) (by simp)]
      exact hlink
    · rw [moved_of_ne (r := .chain) (p := .garbage) (q := .current) (by simp) (by simp)]
      exact h.chain
    · exact (mem_moved hperm hx).symm.imp_left And.right
  | endPanic hpc hn =>
    have hL : after m L .proceed = L := by simp [after, hpc]
    rw [hL]
    exact h.endGuard true (by rw [hpc]; rfl) (by rw [hpc]; rfl)
  | endPanicNested hpc hn =>
    have hL : after m L .proceed = L := by simp [after, hpc]
    rw [hL]
    exact h.congr rfl rfl rfl rfl rfl rfl rfl (by rw [hpc]; rfl) (by rw [hpc]; rfl) (by simp)
  | scanned panics hpc =>
    have hL : after m L .proceed = L := by simp [after, hpc]
    rw [hL]
    refine h.congr rfl rfl rfl rfl rfl rfl rfl ?_ ?_ ?_
    · rw [hpc]
      cases panics <;> rfl
    · rw [hpc]
      cases panics <;> rfl
    · cases panics <;> exact fun _ _ _ hrun => by cases hrun
  | panic link callers n hpc => exact h.panic hpc
  | unlink d panics hpc hd =>
    have hperm : (L .chain).Perm (d :: (L .chain).erase d) := List.perm_cons_erase (h.chain ▸ hd)
    have hs := h.scattered.rearrange (moved_rearranged (p := .chain) (q := .current) (by simp) hperm)
    have hmem : d ∈ L .chain := h.chain ▸ hd
    refine Placed.collect h (n := d) hs moved_to
      (fun p hp _ hp' => moved_of_ne hp' hp) rfl rfl ?_ ?_ (.inl rfl) rfl rfl rfl
      (fun _ _ _ hrun => hrun) (Nat.le_refl _) (fun p x hx => ?_)
      ⟨h.fresh _ d hmem, h.live _ d hmem (by simp)⟩
    · show Linked m.link (garbageLink m.pc) (moved L .chain _ .current d .garbage)
      rw [moved_of_ne (r := .garbage) (p := .chain) (q := .current) (by simp) (by simp)]
      exact h.garbage
    · show moved L .chain _ .current d .chain = m.chain.erase d
      rw [moved_from (p := .chain) (q := .current) (by simp), h.chain]
    · exact (mem_moved hperm hx).symm.imp_left And.right
  | caught hpc =>
    exact h.congr rfl rfl rfl rfl rfl rfl rfl (by rw [hpc]; rfl) (by rw [hpc]; rfl) (by simp)
  | mark marked => exact h.congr rfl rfl rfl rfl rfl rfl rfl rfl rfl fun _ _ _ hrun => hrun

/-- The readers after `end_guard`: the last one makes the collector inactive. -/
theorem readers_endGuard (panics : Bool) (hi : m.inactive = false) :
    Readers (m.endGuard panics) := by
  unfold Local.endGuard
  split
  · exact ⟨rfl, hi⟩
  · split <;> cases panics <;> exact ⟨fun _ => rfl, fun _ => rfl⟩

/-- A place inside of the creation of a guard. -/
theorem readers_inside (hn : m.numReaders ≠ 0) (hi : m.inactive = false)
    (hpc : m.pc ≠ .idle ∧ m.pc ≠ .panicked ∧ ∀ panics, m.pc ≠ .scan panics) : Readers m := by
  unfold Readers
  cases h : m.pc with
  | idle => exact absurd h hpc.1
  | panicked => exact absurd h hpc.2.1
  | scan panics => exact absurd h (hpc.2.2 panics)
  | drain _ | clear _ _ _ | destructor _ _ _ | unwind _ | endGuard => exact ⟨hn, hi⟩

/-- A thread that runs user code has a reader if and only if it is active. -/
theorem readers_user (hr : Readers m) (hu : m.user = true) (hn : m.numReaders ≠ 0) :
    m.inactive = false := by
  unfold Local.user at hu
  unfold Readers at hr
  cases hpc : m.pc <;> simp_all

/-- The thread has other readers than before, and is active. -/
theorem readers_active (hn : m'.numReaders ≠ 0) (hi : m'.inactive = false)
    (hu : m'.user = true) : Readers m' := by
  unfold Local.user at hu
  unfold Readers
  cases hpc : m'.pc <;> simp_all

/-- The return to a caller stays inside of `new_guard`. -/
theorem returnTo_inside (link : Option Node) (callers : List Local.Clear) :
    Local.returnTo link callers ≠ .idle ∧ Local.returnTo link callers ≠ .panicked ∧
      ∀ panics, Local.returnTo link callers ≠ .scan panics := by
  cases callers <;> exact ⟨nofun, nofun, nofun⟩

/-- The drop of a node stays inside of `new_guard`. -/
theorem dropBox_inside (link : Option Node) (callers : List Local.Clear) (n : Node) :
    (m.dropBox link callers n).pc ≠ .idle ∧ (m.dropBox link callers n).pc ≠ .panicked ∧
      ∀ panics, (m.dropBox link callers n).pc ≠ .scan panics := by
  unfold Local.dropBox
  split <;> exact ⟨nofun, nofun, nofun⟩

/-- Every move keeps the relation between readers and place. -/
theorem Readers.move (hr : Readers m) {a : Local.Act} (hm : Move m a m') : Readers m' := by
  -- In the creation of a guard the guard is a reader.
  have hinside : (m.pc ≠ .idle ∧ m.pc ≠ .panicked ∧ ∀ panics, m.pc ≠ .scan panics) →
      m.numReaders ≠ 0 ∧ m.inactive = false := by
    intro hpc
    unfold Readers at hr
    cases h : m.pc with
    | idle => exact absurd h hpc.1
    | panicked => exact absurd h hpc.2.1
    | scan panics => exact absurd h (hpc.2.2 panics)
    | drain _ | clear _ _ _ | destructor _ _ _ | unwind _ | endGuard =>
      rw [h] at hr
      exact hr
  cases hm with
  | guardSame e hu hn he => exact readers_active Nat.one_ne_zero rfl hu
  | guardQuiet e hu hn he hg => exact readers_active Nat.one_ne_zero rfl hu
  | turn e hu hn he hg => exact ⟨Nat.one_ne_zero, rfl⟩
  | guardNested e hu hn =>
    have hi := readers_user hr hu hn
    exact readers_active (Nat.succ_ne_zero _) hi hu
  | endNested hu hn hn' =>
    have hi := readers_user hr hu hn
    have hlt : 1 < m.numReaders := Nat.lt_of_le_of_ne (Nat.pos_of_ne_zero hn) (Ne.symm hn')
    exact readers_active (Nat.sub_ne_zero_of_lt hlt) hi hu
  | endLast hpc hn =>
    have hu : m.user = true := by
      unfold Local.user
      rw [hpc]
    exact readers_endGuard false (readers_user hr hu (hn ▸ Nat.one_ne_zero))
  | collect hu | accelerate hn | setHasGarbage hn | mark marked => exact hr
  | drained hpc =>
    obtain ⟨hn, hi⟩ := hinside (by rw [hpc]; exact ⟨nofun, nofun, nofun⟩)
    exact ⟨fun h => absurd h hn, fun h => absurd (hi.symm.trans h) nofun⟩
  | drain n hpc hf =>
    obtain ⟨hn, hi⟩ := hinside (by rw [hpc]; exact ⟨nofun, nofun, nofun⟩)
    exact readers_inside hn hi (dropBox_inside ..)
  | clear link f callers n hpc hl hf =>
    obtain ⟨hn, hi⟩ := hinside (by rw [hpc]; exact ⟨nofun, nofun, nofun⟩)
    exact readers_inside hn hi (dropBox_inside ..)
  | clearNext link f callers next rest hpc hl hc | clearTake link f callers lists hpc hl hc hlists
  | unwound hpc | unwind n hpc hf | panic link callers n hpc =>
    exact hinside (by rw [hpc]; exact ⟨nofun, nofun, nofun⟩)
  | clearDone link f callers hpc hl hc hlists =>
    obtain ⟨hn, hi⟩ := hinside (by rw [hpc]; exact ⟨nofun, nofun, nofun⟩)
    exact readers_inside hn hi (returnTo_inside ..)
  | destructor link callers n hpc =>
    obtain ⟨hn, hi⟩ := hinside (by rw [hpc]; exact ⟨nofun, nofun, nofun⟩)
    exact readers_inside hn hi (returnTo_inside ..)
  | endPanic hpc hn =>
    exact readers_endGuard true (hinside (by rw [hpc]; exact ⟨nofun, nofun, nofun⟩)).2
  | endPanicNested hpc hn =>
    obtain ⟨hn', hi⟩ := hinside (by rw [hpc]; exact ⟨nofun, nofun, nofun⟩)
    refine ⟨fun h => ?_, fun h => absurd (hi.symm.trans h) nofun⟩
    have hle : m.numReaders ≤ 1 := Nat.sub_eq_zero_iff_le.mp h
    exact absurd (Nat.le_antisymm hle (Nat.pos_of_ne_zero hn')) hn
  | scanned panics hpc =>
    unfold Readers at hr
    rw [hpc] at hr
    cases panics <;> exact ⟨fun _ => rfl, fun _ => hr.1⟩
  | unlink d panics hpc hd =>
    unfold Readers at hr ⊢
    rw [hpc] at hr
    show match m.pc with
      | .idle | .panicked => _
      | .scan _ => _
      | _ => _
    rw [hpc]
    exact hr
  | caught hpc =>
    unfold Readers at hr
    rw [hpc] at hr
    exact hr

/-- The collector can go on in all its loops: it reads no link of a node that was freed. -/
theorem proceeds (h : Placed m L) (hi : m.pc ≠ .idle) (hp : m.pc ≠ .panicked) :
    ∃ m', m.step .proceed = some m' := by
  -- A node to which a link leads was not freed.
  have hread : ∀ {n : Node} {p : Spot}, n ∈ L p → p ≠ .dropped → ∀ f : Option Node → Local,
      ∃ m', (m.nextPtr n).map f = some m' := by
    intro n p hn hp f
    refine ⟨f (m.link n), ?_⟩
    rw [Local.nextPtr, if_neg (by rw [h.live p n hn hp]; exact nofun)]
    rfl
  show ∃ m', m.proceed = some m'
  unfold Local.proceed
  cases hpc : m.pc with
  | idle => exact absurd hpc hi
  | panicked => exact absurd hpc hp
  | drain link =>
    cases link with
    | none => exact ⟨_, rfl⟩
    | some n =>
      have hl := h.garbage
      rw [hpc] at hl
      obtain ⟨rest, hL, -⟩ := hl.eq_cons
      exact hread (p := .garbage) (hL ▸ List.mem_cons_self) nofun _
  | clear link f callers =>
    have hmem : f ∈ clears m.pc := by rw [hpc]; exact List.mem_cons_self
    show ∃ m', m.clear link f callers = some m'
    unfold Local.clear
    cases hl : f.link with
    | some n =>
      have hfc := h.clearing f hmem
      rw [hl] at hfc
      obtain ⟨rest, hL, -⟩ := LinkedAll.eq_cons hfc
      exact hread (p := .inside f.collector) (hL ▸ List.mem_cons_self) nofun _
    | none =>
      cases hc : f.garbageContainers with
      | cons next rest => exact ⟨_, rfl⟩
      | nil =>
        obtain ⟨lists, hlists⟩ := Option.isSome_iff_exists.mp (h.opened f hmem).2.2
        simp only [hlists]
        exact ⟨_, rfl⟩
  | destructor link callers n => exact ⟨_, rfl⟩
  | unwind link =>
    cases link with
    | none => exact ⟨_, rfl⟩
    | some n =>
      have hl := h.garbage
      rw [hpc] at hl
      obtain ⟨rest, hL, -⟩ := hl.eq_cons
      exact hread (p := .garbage) (hL ▸ List.mem_cons_self) nofun _
  | endGuard =>
    simp only
    split <;> exact ⟨_, rfl⟩
  | scan panics => exact ⟨_, rfl⟩

/-- The nodes are in their places, in every state of a run. -/
theorem placed_run {P : Local → Local.Act → Prop} (h : Placed m L) (hr : Readers m)
    (hrun : Run Local.step P m m') : (∃ L', Placed m' L') ∧ Readers m' :=
  hrun.invariant (fun m => (∃ L, Placed m L) ∧ Readers m) ⟨⟨L, h⟩, hr⟩
    fun _ _ _ ⟨⟨_, hx⟩, hrx⟩ _ hs =>
      ⟨⟨_, hx.move hrx (move_of_step hs)⟩, hrx.move (move_of_step hs)⟩

/-- Without `has_garbage` all lists are empty. -/
def Flagged (m : Local) : Prop := m.hasGarbage = false → m.own = .empty

/-- `end_guard` keeps the flag. -/
theorem flagged_endGuard (h : Flagged m) (panics : Bool) : Flagged (m.endGuard panics) := by
  unfold Local.endGuard
  split
  · exact h
  · split <;> exact h

/-- Every move keeps the flag. -/
theorem Flagged.move (h : Flagged m) {a : Local.Act} (hm : Move m a m') : Flagged m' := by
  cases hm with
  | turn e hu hn he hg =>
    intro hf
    obtain ⟨hp, hc⟩ := Bool.or_eq_false_iff.mp hf
    show (⟨m.own.currentInstanceLink, none, m.own.previousInstanceLink⟩ : Local.Lists) = .empty
    rw [Option.isSome_eq_false_iff.mp hp |> Option.isNone_iff_eq_none.mp,
      Option.isSome_eq_false_iff.mp hc |> Option.isNone_iff_eq_none.mp]
    rfl
  | collect hu => exact nofun
  | unwind n hpc hf => exact nofun
  | unlink d panics hpc hd => exact nofun
  | setHasGarbage hn => exact nofun
  | endLast hpc hn => exact flagged_endGuard h false
  | endPanic hpc hn => exact flagged_endGuard h true
  | guardSame | guardQuiet | guardNested | endNested | accelerate | drained | drain | clear
  | clearNext | clearTake | clearDone | destructor | unwound | endPanicNested | scanned | panic
  | caught | mark => exact h

end Local

end Sdd.Proofs
