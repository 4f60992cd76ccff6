import Sdd.Proofs.Local.Steps

/-!
# `Sdd.Proofs.Local.Panic`: destructors that panic

A guard is created, another epoch is observed, and the lists rotate. `Phase` says where the nodes are
while the oldest list is dropped, and while a panic unwinds: the rest of the list goes back to the
current list, on top of what destructors have retired. `panic_leaves_newGuard` is the state
in which the panic leaves `new_guard`.
-/

set_option autoImplicit false

namespace Sdd.Proofs

open Sdd.Lib

variable {m m' x x' : Local} {L : Local.Spot → List Node} {n : Node}

namespace Local

/-- In the loop of `epoch_updated`. -/
def draining : Local.Pc → Bool
  | .drain _ | .clear _ _ _ | .destructor _ _ _ => true
  | _ => false

/-- An `ExitGuard` runs `end_guard`, or has done so. -/
def ending (x : Local) : Prop :=
  match x.pc with
  | .endGuard => x.numReaders = 1
  | .scan true => True
  | .panicked => x.numReaders = 0
  | _ => False

/-- The nodes that were retired since the state `m`, the last one first. -/
def retired (m x : Local) : List Node := (List.range' m.nextNode (x.nextNode - m.nextNode)).reverse

/-- The state `x` when a guard is created in the state `m`, in which `L` gives the nodes. -/
inductive Phase (m : Local) (L : Spot → List Node) (x : Local) (Lx : Spot → List Node) : Prop where
  /-- The nodes in `done` have been dropped; the drop of the last one may be in progress. -/
  | drain (done : List Node) (hpc : draining x.pc = true) (hL : L .next = done ++ Lx .garbage)
      (hdone : ∀ n ∈ done, n ∈ Lx .dropped) (hfirst : done = [] → ∃ link, x.pc = .drain link)
      (hcurrent : Lx .current = retired m x)
  /-- A destructor has panicked, and the nodes in `back` are on the current list again. -/
  | unwind (done back : List Node) (hpc : ∃ link, x.pc = .unwind link) (hn : x.numReaders = 1)
      (hL : L .next = done ++ (back ++ Lx .garbage)) (hdone : ∀ n ∈ done, n ∈ Lx .dropped)
      (hne : done ≠ []) (hcurrent : Lx .current = back.reverse ++ retired m x)
  /-- All of them are, and `scan` has collected the obsolete collectors in `found`. -/
  | ending (done back found : List Node) (hpc : ending x) (hL : L .next = done ++ back)
      (hdone : ∀ n ∈ done, n ∈ Lx .dropped) (hne : done ≠ []) (hfound : ∀ d ∈ found, d ∈ L .chain)
      (hcurrent : Lx .current = found ++ back.reverse ++ retired m x)
  /-- No destructor has panicked. -/
  | returned (hpc : x.pc = .idle)

/-- The creation of a guard, in which destructors drop the guards that they create. -/
def InCreation (x : Local) (a : Local.Act) : Prop :=
  x.pc ≠ .idle ∧ a ≠ .caught ∧ (a = .panic → x.numReaders = 1)

/-- What holds from the rotation on. -/
structure Rotated (m : Local) (L : Spot → List Node) (x : Local) (Lx : Spot → List Node) : Prop where
  placed : Placed x Lx
  readers : Readers x
  flagged : Flagged x
  next : Lx .next = L .previous
  previous : Lx .previous = L .current
  chain : ∀ d ∈ Lx .chain, d ∈ L .chain
  le : m.nextNode ≤ x.nextNode

/-- One more node was retired. -/
theorem retired_succ (h : m.nextNode ≤ x.nextNode) (hx : x'.nextNode = x.nextNode + 1) :
    retired m x' = x.nextNode :: retired m x := by
  obtain ⟨k, hk⟩ := Nat.exists_eq_add_of_le h
  have hk' : x'.nextNode - m.nextNode = k + 1 := by
    rw [hx, hk, Nat.add_assoc, Nat.add_sub_cancel_left]
  have hk'' : x.nextNode - m.nextNode = k := by rw [hk, Nat.add_sub_cancel_left]
  rw [retired, retired, hk', hk'', List.range'_1_concat, List.reverse_append, hk]
  rfl

/-- The nodes that were retired since are the ones with the new numbers. -/
theorem mem_retired (h : m.nextNode ≤ x.nextNode) :
    n ∈ retired m x ↔ m.nextNode ≤ n ∧ n < x.nextNode := by
  rw [retired, List.mem_reverse, List.mem_range'_1, Nat.add_sub_cancel' h]

/-- An action that creates no guard and collects nothing keeps the current list. -/
theorem retired_same (hx : x'.nextNode = x.nextNode) : retired m x' = retired m x := by
  rw [retired, retired, hx]

section step

variable {Lx : Spot → List Node} {a : Local.Act}

/-- Flags do not matter for the phase. -/
theorem Phase.flags (h : Phase m L x Lx) (hpc : x'.pc = x.pc) (hn : x'.numReaders = x.numReaders)
    (hnext : x'.nextNode = x.nextNode) : Phase m L x' Lx := by
  cases h with
  | drain done hd hL hdone hfirst hcurrent =>
    exact .drain done (hpc ▸ hd) hL hdone (hpc ▸ hfirst) (hcurrent.trans (retired_same hnext).symm)
  | unwind done back hpc' hn' hL hdone hne hcurrent =>
    exact .unwind done back (hpc ▸ hpc') (hn.trans hn') hL hdone hne
      (by rw [retired_same hnext]; exact hcurrent)
  | ending done back found hpc' hL hdone hne hfound hcurrent =>
    refine .ending done back found ?_ hL hdone hne hfound
      (by rw [retired_same hnext]; exact hcurrent)
    unfold Local.ending at hpc' ⊢
    rw [hpc, hn]
    exact hpc'
  | returned hpc' => exact .returned (hpc.trans hpc')

/-- In the loop of `epoch_updated` the thread has readers. -/
theorem readers_draining (hr : Readers x) (hd : draining x.pc = true) : x.numReaders ≠ 0 := by
  unfold Readers at hr
  cases hpc : x.pc with
  | drain _ | clear _ _ _ | destructor _ _ _ =>
    rw [hpc] at hr
    exact hr.1
  | idle | unwind _ | endGuard | scan _ | panicked =>
    rw [hpc] at hd
    cases hd

/-- The oldest list is dropped, until a destructor panics. -/
theorem drain_step (hx : Placed x Lx) (hr : Readers x) (hle : m.nextNode ≤ x.nextNode)
    {done : List Node} (hd : draining x.pc = true) (hL : L .next = done ++ Lx .garbage)
    (hdone : ∀ n ∈ done, n ∈ Lx .dropped) (hfirst : done = [] → ∃ link, x.pc = .drain link)
    (hcurrent : Lx .current = retired m x) (hp : InCreation x a) (hm : Move x a x') :
    Phase m L x' (after x Lx a) := by
  have hn := readers_draining hr hd
  have hstay : Phase m L x Lx := .drain done hd hL hdone hfirst hcurrent
  -- Outside of the loop heads a node is being dropped.
  have hsome : (∀ link, x.pc ≠ .drain link) → done ≠ [] := fun hpc hnil =>
    have ⟨link, hlink⟩ := hfirst hnil
    hpc link hlink
  have hclear : ∀ {d k : Node} {rest : List Node}, moved Lx (.inside d) rest .dropped k .garbage =
      Lx .garbage ∧ moved Lx (.inside d) rest .dropped k .current = Lx .current :=
    ⟨moved_of_ne (by simp) (by simp), moved_of_ne (by simp) (by simp)⟩
  cases hm with
  | guardSame e hu hn' he | guardQuiet e hu hn' he hg | turn e hu hn' he hg => exact absurd hn' hn
  | guardNested e hu hn' =>
    have hLx : after x Lx (.newGuard e) = Lx := by simp [after, observes, hn']
    rw [hLx]
    exact .drain done hd hL hdone hfirst hcurrent
  | endNested hu hn' hn'' => exact .drain done hd hL hdone hfirst hcurrent
  | accelerate hn' | setHasGarbage hn' | mark marked => exact hstay.flags rfl rfl rfl
  | collect hu =>
    refine .drain done hd ?_ (fun n hnd => ?_) hfirst ?_
    · rw [after_collect (p := .garbage) (by simp)]
      exact hL
    · rw [after_collect (p := .dropped) (by simp)]
      exact hdone n hnd
    · rw [after, Function.update_self, retired_succ (x := x) hle rfl, hcurrent]
  | drained hpc => exact .returned rfl
  | drain n hpc hf =>
    have hl := hx.garbage
    rw [hpc] at hl
    obtain ⟨rest, hrest, -⟩ := hl.eq_cons
    have hLx : after x Lx .proceed = moved Lx .garbage rest .dropped n := by
      simp [after, hpc, hrest]
    rw [hLx]
    refine .drain (done ++ [n]) ?_ ?_ (fun k hk => ?_) (fun hnil => ?_) ?_
    · show draining (if _ then _ else _) = true
      split <;> rfl
    · rw [hL, hrest, moved_from (p := .garbage) (q := .dropped) (by simp), List.append_assoc]
      rfl
    · rw [moved_to]
      rcases List.mem_append.mp hk with hk | hk
      · exact List.mem_cons_of_mem n (hdone k hk)
      · exact List.mem_singleton.mp hk ▸ List.mem_cons_self
    · exact absurd hnil (List.append_ne_nil_of_right_ne_nil done (List.cons_ne_nil n []))
    · rw [moved_of_ne (r := .current) (p := .garbage) (q := .dropped) (by simp) (by simp)]
      exact hcurrent
  | clear link f callers n hpc hl hf =>
    have hLx : after x Lx .proceed =
        moved Lx (.inside f.collector) (Lx (.inside f.collector)).tail .dropped n := by
      simp [after, hpc, hl]
    rw [hLx]
    refine .drain done ?_ ?_ (fun k hk => ?_) (fun hnil => ?_) ?_
    · show draining (if _ then _ else _) = true
      split <;> rfl
    · rw [hclear.1]
      exact hL
    · rw [moved_to]
      exact List.mem_cons_of_mem n (hdone k hk)
    · exact absurd hnil (hsome (by rw [hpc]; simp))
    · rw [hclear.2]
      exact hcurrent
  | clearNext link f callers next rest hpc hl hc =>
    have hLx : after x Lx .proceed = Lx := by simp [after, hpc, hl]
    rw [hLx]
    exact .drain done rfl hL hdone (fun hnil => absurd hnil (hsome (by rw [hpc]; simp)))
      hcurrent
  | clearTake link f callers lists hpc hl hc hlists =>
    have hLx : after x Lx .proceed = Lx := by simp [after, hpc, hl]
    rw [hLx]
    exact .drain done rfl hL hdone (fun hnil => absurd hnil (hsome (by rw [hpc]; simp)))
      hcurrent
  | clearDone link f callers hpc hl hc hlists =>
    have hLx : after x Lx .proceed = Lx := by simp [after, hpc, hl]
    rw [hLx]
    refine .drain done ?_ hL hdone
      (fun hnil => absurd hnil (hsome (by rw [hpc]; simp))) hcurrent
    show draining (Local.returnTo link callers) = true
    cases callers <;> rfl
  | destructor link callers n hpc =>
    have hLx : after x Lx .proceed = Lx := by simp [after, hpc]
    rw [hLx]
    refine .drain done ?_ hL hdone
      (fun hnil => absurd hnil (hsome (by rw [hpc]; simp))) hcurrent
    show draining (Local.returnTo link callers) = true
    cases callers <;> rfl
  | panic link callers n hpc =>
    exact .unwind done [] ⟨link, rfl⟩ (hp.2.2 rfl) hL hdone (hsome (by rw [hpc]; simp))
      hcurrent
  | endLast hpc hn' => exact absurd hpc hp.1
  | unwound hpc | unwind n hpc hf | endPanic hpc hn' | endPanicNested hpc hn' | scanned panics hpc
  | unlink d panics hpc hd' | caught hpc =>
    rw [hpc] at hd
    cases hd

/-- The rest of the oldest list goes back to the current list. -/
theorem unwind_step (hx : Placed x Lx) {done back : List Node} {link : Option Node}
    (hpc : x.pc = .unwind link) (hn : x.numReaders = 1)
    (hL : L .next = done ++ (back ++ Lx .garbage)) (hdone : ∀ n ∈ done, n ∈ Lx .dropped)
    (hne : done ≠ []) (hcurrent : Lx .current = back.reverse ++ retired m x)
    (hm : Move x a x') : Phase m L x' (after x Lx a) := by
  have hstay : Phase m L x Lx := .unwind done back ⟨link, hpc⟩ hn hL hdone hne hcurrent
  have hnot : x.user ≠ true := by
    unfold Local.user
    rw [hpc]
    simp
  cases hm with
  | guardSame e hu | guardQuiet e hu | turn e hu | guardNested e hu | endNested hu | collect hu =>
    exact absurd hu hnot
  | accelerate hn' | setHasGarbage hn' | mark marked => exact hstay.flags rfl rfl rfl
  | unwound hpc' =>
    have hLx : after x Lx .proceed = Lx := by simp [after, hpc']
    have hl := hx.garbage
    rw [hpc'] at hl
    rw [hl.eq_nil, List.append_nil] at hL
    rw [hLx]
    exact .ending done back [] hn hL hdone hne (by simp) hcurrent
  | unwind n hpc' hf =>
    have hl := hx.garbage
    rw [hpc'] at hl
    obtain ⟨rest, hrest, -⟩ := hl.eq_cons
    have hLx : after x Lx .proceed = moved Lx .garbage rest .current n := by
      simp [after, hpc', hrest]
    rw [hLx]
    refine .unwind done (back ++ [n]) ⟨_, rfl⟩ hn ?_ (fun k hk => ?_) hne ?_
    · rw [hL, hrest, moved_from (p := .garbage) (q := .current) (by simp), List.append_assoc]
      rfl
    · rw [moved_of_ne (r := .dropped) (p := .garbage) (q := .current) (by simp) (by simp)]
      exact hdone k hk
    · rw [moved_to, hcurrent, List.reverse_append]
      rfl
  | endLast hpc' | drained hpc' | drain n hpc' | clear _ _ _ _ hpc' | clearNext _ _ _ _ _ hpc'
  | clearTake _ _ _ _ hpc' | clearDone _ _ _ hpc' | destructor _ _ _ hpc' | endPanic hpc'
  | endPanicNested hpc' | scanned _ hpc' | panic _ _ _ hpc' | unlink _ _ hpc' | caught hpc' =>
    rw [hpc] at hpc'
    cases hpc'

/-- `end_guard` retires nothing. -/
theorem ending_endGuard : Local.ending (x.endGuard true) ∧
    (x.endGuard true).nextNode = x.nextNode := by
  unfold Local.endGuard
  split
  · exact ⟨trivial, rfl⟩
  · split <;> exact ⟨rfl, rfl⟩

/-- The guard that is created ends. -/
theorem ending_step {done back found : List Node} (hpc : Local.ending x)
    (hL : L .next = done ++ back) (hdone : ∀ n ∈ done, n ∈ Lx .dropped) (hne : done ≠ [])
    (hfound : ∀ d ∈ found, d ∈ L .chain)
    (hcurrent : Lx .current = found ++ back.reverse ++ retired m x)
    (hchain : ∀ d ∈ Lx .chain, d ∈ L .chain) (hplaced : Placed x Lx) (hr : Readers x)
    (hp : InCreation x a) (hm : Move x a x') : Phase m L x' (after x Lx a) := by
  have hstay : Phase m L x Lx := .ending done back found hpc hL hdone hne hfound hcurrent
  have hkeep : Local.ending x' → retired m x' = retired m x → Phase m L x' Lx := fun hpc' hr =>
    .ending done back found hpc' hL hdone hne hfound (hr ▸ hcurrent)
  have hnot : x.user ≠ true := by
    unfold Local.user
    unfold Local.ending at hpc
    intro hu
    split at hu <;> simp_all
  cases hm with
  | guardSame e hu | guardQuiet e hu | turn e hu | guardNested e hu | endNested hu | collect hu =>
    exact absurd hu hnot
  | accelerate hn' | setHasGarbage hn' | mark marked => exact hstay.flags rfl rfl rfl
  | endPanic hpc' hn' =>
    have hLx : after x Lx .proceed = Lx := by simp [after, hpc']
    rw [hLx]
    obtain ⟨hend, hnext⟩ := ending_endGuard (x := x)
    exact hkeep hend (retired_same hnext)
  | endPanicNested hpc' hn' =>
    unfold Local.ending at hpc
    rw [hpc'] at hpc
    exact absurd hpc hn'
  | scanned panics hpc' =>
    have hLx : after x Lx .proceed = Lx := by simp [after, hpc']
    rw [hLx]
    cases panics with
    | false => exact .returned rfl
    | true =>
      unfold Readers at hr
      rw [hpc'] at hr
      exact hkeep hr.1 rfl
  | unlink d panics hpc' hd =>
    refine .ending done back (d :: found) ?_ hL (fun k hk => ?_) hne (fun k hk => ?_) ?_
    · unfold Local.ending at hpc ⊢
      exact hpc
    · rw [after, moved_of_ne (r := .dropped) (p := .chain) (q := .current) (by simp) (by simp)]
      exact hdone k hk
    · rcases List.mem_cons.mp hk with rfl | hk
      · exact hchain k (hplaced.chain ▸ hd)
      · exact hfound k hk
    · rw [after, moved_to, hcurrent]
      rfl
  | caught hpc' => exact absurd rfl hp.2.1
  | endLast hpc' | drained hpc' | drain n hpc' | clear _ _ _ _ hpc' | clearNext _ _ _ _ _ hpc'
  | clearTake _ _ _ _ hpc' | clearDone _ _ _ hpc' | destructor _ _ _ hpc' | unwound hpc'
  | unwind n hpc' | panic _ _ _ hpc' =>
    unfold Local.ending at hpc
    rw [hpc'] at hpc
    exact hpc.elim

end step

/-- No lists rotate while the guard is created. -/
theorem after_same {Lx : Spot → List Node} (hr : Readers x) (hidle : x.pc ≠ .idle)
    (a : Local.Act) : after x Lx a .next = Lx .next ∧ after x Lx a .previous = Lx .previous ∧
      ∀ d ∈ after x Lx a .chain, d ∈ Lx .chain := by
  have hmoved : ∀ {p q : Spot} {rest : List Node} {k : Node}, p ≠ .next → p ≠ .previous →
      q ≠ .next → q ≠ .previous → q ≠ .chain → (p = .chain → ∀ d ∈ rest, d ∈ Lx .chain) →
      moved Lx p rest q k .next = Lx .next ∧ moved Lx p rest q k .previous = Lx .previous ∧
        ∀ d ∈ moved Lx p rest q k .chain, d ∈ Lx .chain := by
    intro p q rest k hp hp' hq hq' hqc hrest
    refine ⟨moved_of_ne hp.symm hq.symm, moved_of_ne hp'.symm hq'.symm, fun d hd => ?_⟩
    by_cases hpc : p = .chain
    · subst hpc
      rw [moved_from hqc.symm] at hd
      exact hrest rfl d hd
    · rw [moved_of_ne (Ne.symm hpc) hqc.symm] at hd
      exact hd
  have hsame : ∀ {L' : Spot → List Node}, L' = Lx →
      L' .next = Lx .next ∧ L' .previous = Lx .previous ∧ ∀ d ∈ L' .chain, d ∈ Lx .chain := by
    rintro _ rfl
    exact ⟨rfl, rfl, fun _ hd => hd⟩
  cases a with
  | newGuard e =>
    refine hsame (if_neg fun hc => ?_)
    -- The thread has readers, so that a nested guard observes no epoch.
    obtain ⟨hobs, -⟩ := Bool.and_eq_true_iff.mp hc
    obtain ⟨hobs, -⟩ := Bool.and_eq_true_iff.mp hobs
    obtain ⟨hu, hn⟩ := Bool.and_eq_true_iff.mp hobs
    exact hidle (idle_of_user hr hu (beq_iff_eq.mp hn))
  | collect =>
    refine ⟨after_collect (by simp), after_collect (by simp), fun d hd => ?_⟩
    rw [after_collect (p := .chain) (by simp)] at hd
    exact hd
  | proceed =>
    cases hpc : x.pc with
    | drain link =>
      cases link with
      | none => exact hsame (by simp only [after, hpc])
      | some n =>
        simp only [after, hpc]
        exact hmoved (by simp) (by simp) (by simp) (by simp) (by simp) (by simp)
    | clear link f callers =>
      cases hl : f.link with
      | none => exact hsame (by simp only [after, hpc, hl])
      | some n =>
        simp only [after, hpc, hl]
        exact hmoved (by simp) (by simp) (by simp) (by simp) (by simp) (by simp)
    | unwind link =>
      cases link with
      | none => exact hsame (by simp only [after, hpc])
      | some n =>
        simp only [after, hpc]
        exact hmoved (by simp) (by simp) (by simp) (by simp) (by simp) (by simp)
    | idle | destructor _ _ _ | endGuard | scan _ | panicked =>
      exact hsame (by simp only [after, hpc])
  | unlink d =>
    exact hmoved (by simp) (by simp) (by simp) (by simp) (by simp) fun _ _ hd =>
      List.mem_of_mem_erase hd
  | endGuard | accelerate | setHasGarbage | panic | caught | mark _ => exact hsame rfl

/-- The numbers of the nodes only grow. -/
theorem nextNode_le {a : Local.Act} (hm : Move x a x') : x.nextNode ≤ x'.nextNode := by
  cases hm with
  | collect hu => exact Nat.le_succ _
  | endLast hpc hn | endPanic hpc hn =>
    unfold Local.endGuard
    split
    · exact Nat.le_refl _
    · split <;> exact Nat.le_refl _
  | guardSame | guardQuiet | turn | guardNested | endNested | accelerate | setHasGarbage | drained
  | drain | clear | clearNext | clearTake | clearDone | destructor | unwound | unwind
  | endPanicNested | scanned | panic | unlink | caught | mark => exact Nat.le_refl _

/-- One action in the creation of the guard. -/
theorem phase_step {Lx : Spot → List Node} {a : Local.Act} (h : Rotated m L x Lx)
    (hphase : Phase m L x Lx) (hp : InCreation x a) (hm : Move x a x') :
    Rotated m L x' (after x Lx a) ∧ Phase m L x' (after x Lx a) := by
  obtain ⟨hnext, hprevious, hchain⟩ := after_same h.readers hp.1 a
  refine ⟨⟨h.placed.move h.readers hm, h.readers.move hm, h.flagged.move hm, hnext.trans h.next,
    hprevious.trans h.previous, fun d hd => h.chain d (hchain d hd),
    Nat.le_trans h.le (nextNode_le hm)⟩, ?_⟩
  cases hphase with
  | drain done hpc hL hdone hfirst hcurrent =>
    exact drain_step h.placed h.readers h.le hpc hL hdone hfirst hcurrent hp hm
  | unwind done back hpc hn hL hdone hne hcurrent =>
    obtain ⟨link, hpc⟩ := hpc
    exact unwind_step h.placed hpc hn hL hdone hne hcurrent hm
  | ending done back found hpc hL hdone hne hfound hcurrent =>
    exact ending_step hpc hL hdone hne hfound hcurrent h.chain h.placed h.readers hp hm
  | returned hpc => exact absurd hpc hp.1

/-- The rotation. -/
theorem rotated_turn (h : Placed m L) (hr : Readers m) (hpc : m.pc = .idle) (hn : m.numReaders = 0)
    (hg : m.hasGarbage = true) {e : Epoch} (he : m.announcement ≠ e)
    (hs : m.step (.newGuard e) = some x) :
    Rotated m L x (turned L) ∧ Phase m L x (turned L) := by
  have hm := move_of_step hs
  have hu : m.user = true := by
    unfold Local.user
    rw [hpc]
  have hL : after m L (.newGuard e) = turned L := by simp [after, observes, hu, hn, he, hg]
  have hx := h.move hr hm
  rw [hL] at hx
  have hflag : Flagged m := fun hf => absurd (hg.symm.trans hf) (by simp)
  have hstep : x.pc = .drain m.own.nextInstanceLink ∧ x.nextNode = m.nextNode := by
    cases hm with
    | turn e hu hn he hg => exact ⟨rfl, rfl⟩
    | guardSame e hu hn he' => exact absurd he' he
    | guardQuiet e hu hn he' hg' => exact absurd (hg.symm.trans hg') (by simp)
    | guardNested e hu hn' => exact absurd hn hn'
  refine ⟨⟨hx, hr.move hm, hflag.move hm, rfl, rfl, fun _ hd => hd, Nat.le_of_eq hstep.2.symm⟩,
    .drain [] ?_ rfl (by simp) (fun _ => ⟨_, hstep.1⟩) ?_⟩
  · rw [hstep.1]
    rfl
  · rw [retired, hstep.2, Nat.sub_self]
    rfl

/-- A destructor panics while `new_guard` drops the oldest list. When the panic leaves
`new_guard`, the instances up to the one that panicked have been dropped once. The later ones and
those that were retired in the mean time are on the current list, each one once. The younger
lists have moved on, `has_garbage` is set unless all lists are empty, and the thread is as inactive
as before. -/
theorem panic_leaves_newGuard (h : Placed m L) (hr : Readers m) (hpc : m.pc = .idle)
    (hn : m.numReaders = 0) (hg : m.hasGarbage = true) {e : Epoch} (he : m.announcement ≠ e)
    {m₁ : Local} (hs : m.step (.newGuard e) = some m₁) (hrun : Run Local.step InCreation m₁ m')
    (hpc' : m'.pc = .panicked) :
    ∃ L', Placed m' L' ∧
      (∃ before n rest found, L .next = before ++ n :: rest ∧
        (∀ k ∈ before ++ [n], m'.dropped.count k = 1) ∧
        L' .current = found ++ rest.reverse ++ retired m m' ∧ (∀ d ∈ found, d ∈ m.chain) ∧
        ∀ k, k ∈ rest ∨ m.nextNode ≤ k ∧ k < m'.nextNode →
          (L' .current).count k = 1 ∧ k ∉ m'.dropped) ∧
      L' .previous = L .current ∧ L' .next = L .previous ∧
      (m'.own ≠ .empty → m'.hasGarbage = true) ∧
      m'.numReaders = m.numReaders ∧ m'.inactive = m.inactive := by
  have hend := hrun.invariant (fun x => ∃ Lx, Rotated m L x Lx ∧ Phase m L x Lx)
    ⟨_, rotated_turn h hr hpc hn hg he hs⟩
    fun _ _ _ ⟨_, hx, hphase⟩ hp hs => ⟨_, phase_step hx hphase hp (move_of_step hs)⟩
  obtain ⟨L', hrot, hphase⟩ := hend
  have hreaders := hrot.readers
  unfold Readers at hreaders hr
  rw [hpc'] at hreaders
  rw [hpc] at hr
  cases hphase with
  | drain done hd => rw [hpc'] at hd; cases hd
  | unwind done back hu => obtain ⟨link, hu⟩ := hu; rw [hpc'] at hu; cases hu
  | returned hi => rw [hpc'] at hi; cases hi
  | ending done back found hending hL hdone hne hfound hcurrent =>
    unfold Local.ending at hending
    rw [hpc'] at hending
    refine ⟨L', hrot.placed, ?_, hrot.previous, hrot.next, fun hown => ?_, hending.trans hn.symm,
      (hreaders.mp hending).trans (hr.mp hn).symm⟩
    · obtain ⟨before, n, rfl⟩ := (List.eq_nil_or_concat' done).resolve_left hne
      refine ⟨before, n, back, found, ?_, fun k hk => ?_, hcurrent, fun d hd => ?_, fun k hk => ?_⟩
      · rw [hL, List.append_assoc]
        rfl
      · rw [← hrot.placed.dropped]
        exact hrot.placed.count (hdone k hk)
      · exact h.chain ▸ hfound d hd
      · have hmem : k ∈ L' .current := by
          rw [hcurrent]
          rcases hk with hk | hk
          · exact List.mem_append_left _ (List.mem_append_right _ (List.mem_reverse.mpr hk))
          · exact List.mem_append_right _ ((mem_retired hrot.le).mpr hk)
        exact ⟨hrot.placed.count hmem, hrot.placed.not_dropped hmem nofun⟩
    · by_contra hf
      exact hown (hrot.flagged (Bool.eq_false_iff.mpr hf))

instance (x : Local) (a : Local.Act) : Decidable (InCreation x a) :=
  inferInstanceAs (Decidable (_ ∧ _ ∧ _))

/-- Three instances on the oldest list, and one on each of the others. -/
def threeLists : Local where
  link n := if n = 0 then some 1 else if n = 1 then some 2 else none
  lists _ := none
  freed _ := false
  nextNode := 5
  chain := []
  marked := false
  own := ⟨some 3, some 4, some 0⟩
  inactive := true
  announcement := .default
  nextEpochUpdate := 64
  hasGarbage := true
  numReaders := 0
  pc := .idle
  dropped := []

/-- Where the nodes of `threeLists` are. -/
def threePlaces : Spot → List Node
  | .previous => [3]
  | .current => [4]
  | .next => [0, 1, 2]
  | _ => []

/-- The place of a node of `threeLists`. -/
def threeSpot (n : Node) : Spot := if n = 3 then .previous else if n = 4 then .current else .next

/-- Each node is where `threeSpot` says. -/
theorem mem_threePlaces (p : Spot) : ∀ n ∈ threePlaces p, threeSpot n = p ∧ n < 5 := by
  cases p with
  | inside d => exact nofun
  | previous | current | next | garbage | chain | dropped => decide

/-- Each node is at exactly one place. -/
theorem threeLists_placed : Placed threeLists threePlaces where
  scattered := by
    refine ⟨fun p => ?_, fun p q n hp hq => ?_⟩
    · cases p with
      | inside d => exact List.nodup_nil
      | previous | current | next | garbage | chain | dropped => decide
    · exact (mem_threePlaces p n hp).1.symm.trans (mem_threePlaces q n hq).1
  previous := ⟨rfl, rfl⟩
  current := ⟨rfl, rfl⟩
  next := ⟨rfl, rfl, rfl, rfl⟩
  garbage := rfl
  chain := rfl
  dropped := rfl
  clearing := nofun
  listed _ _ _ := rfl
  distinct := List.nodup_nil
  opened := nofun
  running := nofun
  fresh p n hn := (mem_threePlaces p n hn).2
  live _ _ _ _ := rfl
  unused _ _ := ⟨rfl, rfl⟩

/-- The destructor of the second node panics: the third one is kept. -/
theorem panic_leaves_newGuard_second : ∃ m' : Local, m'.pc = .panicked ∧
    ∃ L', Placed m' L' ∧
      (∃ before n rest found, threePlaces .next = before ++ n :: rest ∧
        (∀ k ∈ before ++ [n], m'.dropped.count k = 1) ∧
        L' .current = found ++ rest.reverse ++ retired threeLists m' ∧
        (∀ d ∈ found, d ∈ threeLists.chain) ∧
        ∀ k, k ∈ rest ∨ threeLists.nextNode ≤ k ∧ k < m'.nextNode →
          (L' .current).count k = 1 ∧ k ∉ m'.dropped) ∧
      L' .previous = threePlaces .current ∧ L' .next = threePlaces .previous ∧
      (m'.own ≠ .empty → m'.hasGarbage = true) ∧
      m'.numReaders = threeLists.numReaders ∧ m'.inactive = threeLists.inactive := by
  have he : threeLists.announcement ≠ Epoch.default.next := by decide
  -- The second destructor retires an instance and panics.
  have hex : (exec Local.step (fun x a => decide (InCreation x a))
      ((threeLists.step (.newGuard Epoch.default.next)).getD threeLists)
      [.proceed, .proceed, .proceed, .collect, .panic, .proceed, .proceed, .proceed]).any
        (fun x => decide (x.pc = .panicked)) = true := by decide +kernel
  obtain ⟨m', hrun, hpc⟩ := Run.of_exec_any hex
  have hpc' := of_decide_eq_true hpc
  exact ⟨m', hpc', panic_leaves_newGuard threeLists_placed ⟨fun _ => rfl, fun _ => rfl⟩ rfl rfl rfl
    he rfl (hrun.mono fun _ _ h => of_decide_eq_true h) hpc'⟩

end Local

end Sdd.Proofs
