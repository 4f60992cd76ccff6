import Sdd.Proofs.Local.Steps

/-!
# `Sdd.Proofs.Local.Clear`: a panic in `clear_for_drop`

`clear_for_drop` has the lists of an obsolete collector in its local variables, and no `ExitGuard`
takes care of them. `Emptying` follows the drop of one collector through a run, in which
its nodes can be obsolete collectors, too, and destructors do what they like. When a
destructor panics, the nodes that come after the one that was being dropped are not dropped, and no
list leads to them any more. Thus nothing is lost if and only if the last node of the collector
panics: `clear_for_drop_panics`.
-/

set_option autoImplicit false

namespace Sdd.Proofs

open Sdd.Lib

variable {m m' x x' : Local} {L : Local.Spot → List Node} {n : Node}

namespace Local

/-- The node that a call of `clear_for_drop` for `d` drops, if it is among the calls that wait for the
drop of `n`. -/
def droppingIn (d : Node) : Node → List Local.Clear → Option Node
  | _, [] => none
  | n, f :: callers => if f.collector = d then some n else droppingIn d f.collector callers

/-- The node that the call of `clear_for_drop` for `d` drops. -/
def dropping (d : Node) : Local.Pc → Option Node
  | .destructor _ callers n => droppingIn d n callers
  | .clear _ f callers => droppingIn d f.collector callers
  | _ => none

/-- The lists of a collector: of the one of the thread, or of an obsolete one. -/
def listsOf (m : Local) : Option Node → List (Option Node)
  | none => m.own.garbageContainers
  | some d => if m.freed d then [] else containers m d

/-- The node `i` is on the list `j` of the collector `c`. -/
def OnList (m : Local) (i : Node) (w : Option Node × Nat) : Prop :=
  ∃ head l, (listsOf m w.1)[w.2]? = some head ∧ Linked m.link head l ∧ i ∈ l

/-- The node was dropped exactly once, or it is on exactly one list of some collector. -/
def Settled (m : Local) (i : Node) : Prop :=
  (m.dropped.count i = 1 ∧ ¬∃ w, OnList m i w) ∨ (i ∉ m.dropped ∧ ∃! w, OnList m i w)

section clear

variable {Lx : Spot → List Node} {a : Local.Act} {d k : Node} {C : List Node}

/-- Nobody clears the collector. -/
theorem droppingIn_none {callers : List Local.Clear} (h : ∀ f ∈ callers, f.collector ≠ d) :
    droppingIn d n callers = none := by
  induction callers generalizing n with
  | nil => rfl
  | cons f callers ih =>
    rw [droppingIn, if_neg (h f List.mem_cons_self)]
    exact ih fun g hg => h g (List.mem_cons_of_mem f hg)

/-- Somebody clears the collector. -/
theorem droppingIn_some {callers : List Local.Clear} (h : ∃ f ∈ callers, f.collector = d) :
    ∃ k, droppingIn d n callers = some k := by
  induction callers generalizing n with
  | nil =>
    obtain ⟨f, hf, -⟩ := h
    cases hf
  | cons f callers ih =>
    rw [droppingIn]
    split
    · exact ⟨n, rfl⟩
    · rename_i hne
      obtain ⟨g, hg, hgd⟩ := h
      rcases List.mem_cons.mp hg with rfl | hg
      · exact absurd hgd hne
      · exact ih ⟨g, hg, hgd⟩

/-- A node that is on a list after a panic has its place there. -/
theorem Placed.of_onList (h : Placed m L) (hc : clears m.pc = []) {i : Node} {w : Option Node × Nat}
    (hi : OnList m i w) : ∃ p, i ∈ L p ∧ p ≠ .dropped ∧ ∀ d, p = .inside d → m.freed d = false := by
  obtain ⟨head, l, hw, hl, hil⟩ := hi
  obtain ⟨c, j⟩ := w
  have hmem := List.mem_of_getElem? hw
  cases c with
  | none =>
    rcases List.mem_cons.mp hmem with rfl | hmem
    · exact ⟨.previous, hl.unique h.previous ▸ hil, nofun, nofun⟩
    rcases List.mem_cons.mp hmem with rfl | hmem
    · exact ⟨.current, hl.unique h.current ▸ hil, nofun, nofun⟩
    · cases List.mem_singleton.mp hmem
      exact ⟨.next, hl.unique h.next ▸ hil, nofun, nofun⟩
  | some d =>
    change head ∈ (if m.freed d then [] else containers m d) at hmem
    split at hmem
    · cases hmem
    · rename_i hf
      have hfree := Bool.eq_false_iff.mpr hf
      have hd := h.listed d hfree (by rw [hc]; exact nofun)
      refine ⟨.inside d, hd.mem_of_linked hmem hl hil, nofun, ?_⟩
      rintro _ ⟨⟩
      exact hfree

/-- The obsolete collector `d`, with the nodes `C` on its lists, is dropped: those in `done` have
been dropped, the last one may be in progress. -/
def Emptying (d : Node) (C : List Node) (x : Local) (Lx : Spot → List Node) : Prop :=
  d ∈ x.dropped ∧ ((∀ f ∈ clears x.pc, f.collector ≠ d) ∨
    ∃ done, C = done ++ Lx (.inside d) ∧ (∀ n ∈ done, n ∈ Lx .dropped) ∧
      ∀ k, dropping d x.pc = some k → done.getLast? = some k)

/-- The loop of another collector goes on. -/
theorem Emptying.keep (h : Emptying d C x Lx) {L' : Spot → List Node}
    (hdropped : ∀ n ∈ x.dropped, n ∈ x'.dropped) (hL : L' (.inside d) = Lx (.inside d))
    (hL' : ∀ n ∈ Lx .dropped, n ∈ L' .dropped)
    (hclears : (∃ f ∈ clears x'.pc, f.collector = d) → ∃ f ∈ clears x.pc, f.collector = d)
    (hdropping : ∀ k, dropping d x'.pc = some k → dropping d x.pc = some k) :
    Emptying d C x' L' := by
  refine ⟨hdropped d h.1, ?_⟩
  rcases h.2 with hclosed | ⟨done, hC, hdone, hlast⟩
  · refine .inl fun f hf hfd => ?_
    obtain ⟨g, hg, hgd⟩ := hclears ⟨f, hf, hfd⟩
    exact hclosed g hg hgd
  · exact .inr ⟨done, hL ▸ hC, fun n hn => hL' n (hdone n hn), fun k hk => hlast k (hdropping k hk)⟩

/-- The loop that has dropped a node goes on. -/
theorem dropping_returnTo {link : Option Node} {callers : List Local.Clear}
    (hdistinct : (callers.map Local.Clear.collector).Nodup)
    (hk : dropping d (Local.returnTo link callers) = some k) : droppingIn d n callers = some k := by
  cases callers with
  | nil => cases hk
  | cons f callers =>
    change droppingIn d f.collector callers = some k at hk
    rw [droppingIn]
    split
    · rename_i hfd
      rw [List.map_cons, List.nodup_cons] at hdistinct
      rw [droppingIn_none fun g hg hgd => hdistinct.1 (hfd.trans hgd.symm ▸ List.mem_map_of_mem hg)]
        at hk
      cases hk
    · exact hk

/-- `end_guard` clears and drops nothing. -/
theorem clears_endGuard (panics : Bool) :
    clears (m.endGuard panics).pc = [] ∧ (m.endGuard panics).dropped = m.dropped := by
  unfold Local.endGuard
  split
  · exact ⟨rfl, rfl⟩
  · split <;> cases panics <;> exact ⟨rfl, rfl⟩

/-- The calls of `clear_for_drop` in progress when the drop of a node begins. -/
theorem clears_dropBox {link : Option Node} {callers : List Local.Clear} {f : Local.Clear}
    (hf : f ∈ clears (m.dropBox link callers n).pc) : f = ⟨n, none, []⟩ ∨ f ∈ callers := by
  change f ∈ clears (if _ then _ else _) at hf
  split at hf
  · exact List.mem_cons.mp hf
  · exact .inr hf

/-- One action while the collector is dropped. -/
theorem Emptying.move (h : Emptying d C x Lx) (hx : Placed x Lx) (hm : Move x a x') :
    Emptying d C x' (after x Lx a) := by
  -- An action that leaves the calls of `clear_for_drop` alone.
  have hstay : ∀ {L' : Spot → List Node}, L' (.inside d) = Lx (.inside d) →
      L' .dropped = Lx .dropped → x'.dropped = x.dropped → clears x'.pc = clears x.pc →
      dropping d x'.pc = dropping d x.pc → Emptying d C x' L' := fun hL hL' hd hc hdr =>
    h.keep (fun n hn => hd ▸ hn) hL (fun n hn => hL' ▸ hn) (fun he => hc ▸ he) fun k hk => hdr ▸ hk
  -- No call of `clear_for_drop` is in progress afterwards.
  have hnone : ∀ {L' : Spot → List Node}, (∀ n ∈ x.dropped, n ∈ x'.dropped) →
      clears x'.pc = [] → Emptying d C x' L' := fun hd hc =>
    ⟨hd d h.1, .inl (by rw [hc]; simp)⟩
  -- A node that has not been dropped is another one.
  have hne : ∀ {p : Spot} {n : Node}, n ∈ Lx p → p ≠ .dropped → n ≠ d := fun hn hp hnd =>
    hx.not_dropped hn hp (hnd ▸ h.1)
  cases hm with
  | guardSame e hu hn he =>
    have hLx : after x Lx (.newGuard e) = Lx := by simp [after, observes, he]
    exact hLx.symm ▸ hstay rfl rfl rfl rfl rfl
  | guardQuiet e hu hn he hg =>
    have hLx : after x Lx (.newGuard e) = Lx := by simp [after, hg]
    exact hLx.symm ▸ hstay rfl rfl rfl rfl rfl
  | turn e hu hn he hg => exact hnone (fun _ hn => hn) rfl
  | guardNested e hu hn =>
    have hLx : after x Lx (.newGuard e) = Lx := by simp [after, observes, hn]
    exact hLx.symm ▸ hstay rfl rfl rfl rfl rfl
  | endNested hu hn hn' | accelerate hn | setHasGarbage hn | mark marked =>
    exact hstay rfl rfl rfl rfl rfl
  | collect hu =>
    exact hstay (after_collect (by simp)) (after_collect (by simp)) rfl rfl rfl
  | endLast hpc hn =>
    obtain ⟨hc, hd⟩ := clears_endGuard (m := x) false
    exact hnone (fun _ hn => hd ▸ hn) hc
  | drained hpc => exact hnone (fun _ hn => hn) rfl
  | drain n hpc hf =>
    have hl := hx.garbage
    rw [hpc] at hl
    obtain ⟨rest, hrest, -⟩ := hl.eq_cons
    have hnd : n ≠ d := hne (p := .garbage) (hrest ▸ List.mem_cons_self) (by simp)
    refine ⟨List.mem_cons_of_mem n h.1, .inl fun f hf' => ?_⟩
    rcases clears_dropBox hf' with rfl | hf'
    · exact hnd
    · cases hf'
  | clear link f callers n hpc hl hf =>
    have hclears : clears x.pc = f :: callers := by rw [hpc]; rfl
    have hfc := hx.clearing f (hclears.symm ▸ List.mem_cons_self)
    rw [hl] at hfc
    obtain ⟨rest, hrest, -⟩ := LinkedAll.eq_cons hfc
    have hnd : n ≠ d := hne (p := .inside f.collector) (hrest ▸ List.mem_cons_self) (by simp)
    have hLx : after x Lx .proceed = moved Lx (.inside f.collector) rest .dropped n := by
      simp [after, hpc, hl, hrest]
    have hdropping : dropping d (x.dropBox link ({ f with link := x.link n } :: callers) n).pc =
        if f.collector = d then some n else droppingIn d f.collector callers := by
      show dropping d (if _ then _ else _) = _
      split <;> rfl
    rw [hLx]
    by_cases hfd : f.collector = d
    · -- The loop for `d` drops its next node.
      refine ⟨List.mem_cons_of_mem n h.1, .inr ?_⟩
      rcases h.2 with hclosed | ⟨done, hC, hdone, -⟩
      · exact absurd hfd (hclosed f (hclears.symm ▸ List.mem_cons_self))
      refine ⟨done ++ [n], ?_, fun k hk => ?_, fun k hk => ?_⟩
      · rw [hC, ← hfd, hrest, moved_from (p := .inside f.collector) (q := .dropped) (by simp),
          List.append_assoc]
        rfl
      · rw [moved_to]
        rcases List.mem_append.mp hk with hk | hk
        · exact List.mem_cons_of_mem n (hdone k hk)
        · exact List.mem_singleton.mp hk ▸ List.mem_cons_self
      · rw [hdropping, if_pos hfd] at hk
        cases hk
        exact List.getLast?_concat
    · have hother : Spot.inside d ≠ .inside f.collector := fun heq => hfd (Spot.inside.inj heq).symm
      refine h.keep (fun _ hn => List.mem_cons_of_mem n hn) (moved_of_ne hother (by simp))
        (fun _ hn => ?_) (fun he => ?_) (fun k hk => ?_)
      · rw [moved_to]
        exact List.mem_cons_of_mem n hn
      · obtain ⟨g, hg, hgd⟩ := he
        rcases clears_dropBox hg with rfl | hg
        · exact absurd hgd hnd
        · rcases List.mem_cons.mp hg with rfl | hg
          · exact absurd hgd hfd
          · exact ⟨g, hclears.symm ▸ List.mem_cons_of_mem f hg, hgd⟩
      · rw [hdropping, if_neg hfd] at hk
        rw [hpc]
        exact hk
  | clearNext link f callers next rest hpc hl hc =>
    have hLx : after x Lx .proceed = Lx := by simp [after, hpc, hl]
    rw [hLx]
    refine h.keep (fun _ hn => hn) rfl (fun _ hn => hn) (fun he => ?_) fun k hk => ?_
    · obtain ⟨g, hg, hgd⟩ := he
      rw [hpc]
      rcases List.mem_cons.mp hg with rfl | hg
      · exact ⟨f, List.mem_cons_self, hgd⟩
      · exact ⟨g, List.mem_cons_of_mem f hg, hgd⟩
    · rw [hpc]
      exact hk
  | clearTake link f callers lists hpc hl hc hlists =>
    have hLx : after x Lx .proceed = Lx := by simp [after, hpc, hl]
    rw [hLx]
    refine h.keep (fun _ hn => hn) rfl (fun _ hn => hn) (fun he => ?_) fun k hk => ?_
    · obtain ⟨g, hg, hgd⟩ := he
      rw [hpc]
      rcases List.mem_cons.mp hg with rfl | hg
      · exact ⟨f, List.mem_cons_self, hgd⟩
      · exact ⟨g, List.mem_cons_of_mem f hg, hgd⟩
    · rw [hpc]
      exact hk
  | clearDone link f callers hpc hl hc hlists =>
    have hLx : after x Lx .proceed = Lx := by simp [after, hpc, hl]
    have hclears : clears x.pc = f :: callers := by rw [hpc]; rfl
    have hdistinct := hx.distinct
    rw [hclears, List.map_cons, List.nodup_cons] at hdistinct
    have hcallers := (clears_returnTo link callers).1
    rw [hLx]
    refine h.keep (fun _ hn => hn) rfl (fun _ hn => hn) (fun he => ?_) fun k hk => ?_
    · obtain ⟨g, hg, hgd⟩ := he
      have hgc : g ∈ callers := hcallers ▸ hg
      exact ⟨g, hclears.symm ▸ List.mem_cons_of_mem f hgc, hgd⟩
    · rw [hpc]
      exact dropping_returnTo hdistinct.2 hk
  | destructor link callers n hpc =>
    have hLx : after x Lx .proceed = Lx := by simp [after, hpc]
    have hclears : clears x.pc = callers := by rw [hpc]; rfl
    have hcallers := (clears_returnTo link callers).1
    rw [hLx]
    refine h.keep (fun _ hn => hn) rfl (fun _ hn => hn) (fun he => ?_) fun k hk => ?_
    · obtain ⟨g, hg, hgd⟩ := he
      have hgc : g ∈ callers := hcallers ▸ hg
      exact ⟨g, hclears.symm ▸ hgc, hgd⟩
    · rw [hpc]
      exact dropping_returnTo (hclears ▸ hx.distinct) hk
  | unwound hpc | unwind n hpc hf | panic link callers n hpc | endPanicNested hpc hn
  | caught hpc => exact hnone (fun _ hn => hn) rfl
  | endPanic hpc hn =>
    obtain ⟨hc, hd⟩ := clears_endGuard (m := x) true
    exact hnone (fun _ hn => hd ▸ hn) hc
  | scanned panics hpc => exact hnone (fun _ hn => hn) (by cases panics <;> rfl)
  | unlink e panics hpc hd =>
    exact hstay (moved_of_ne (by simp) (by simp)) (moved_of_ne (by simp) (by simp)) rfl rfl rfl

end clear

/-- A destructor panics while the collector is dropped. The nodes that were not dropped are where no
list leads to. -/
theorem emptied_panic {Lx : Spot → List Node} (h : Placed x Lx) (hr : Readers x)
    {link : Option Node} {callers : List Local.Clear} {d : Node} {C : List Node}
    (hpc : x.pc = .clear link ⟨d, none, []⟩ callers) (hC : LinkedAll x.link (containers x d) C)
    {P : Local → Local.Act → Prop} {u : Local} (hrun : Run Local.step P x u)
    (hopen : ∃ f ∈ clears u.pc, f.collector = d) (hs : u.step .panic = some m') :
    ∃ L done k, Placed m' L ∧ C = done ++ L (.inside d) ∧ (∀ n ∈ done, n ∈ L .dropped) ∧
      dropping d u.pc = some k ∧ done.getLast? = some k ∧ m'.freed d = true ∧
      clears m'.pc = [] := by
  have hclears : clears x.pc = ⟨d, none, []⟩ :: callers := by rw [hpc]; rfl
  have hmem := hclears.symm ▸ List.mem_cons_self
  have hdistinct := h.distinct
  rw [hclears, List.map_cons, List.nodup_cons] at hdistinct
  have hstart : Emptying d C x Lx := by
    refine ⟨(h.opened _ hmem).1, .inr ⟨[], ?_, nofun, fun k hk => ?_⟩⟩
    · exact hC.unique (LinkedAll.cons_none.mp (h.clearing _ hmem))
    · rw [hpc] at hk
      change droppingIn d d callers = some k at hk
      rw [droppingIn_none fun g hg hgd => hdistinct.1 (List.mem_map.mpr ⟨g, hg, hgd⟩)] at hk
      cases hk
  have hend := hrun.invariant (fun u => ∃ L, Placed u L ∧ Readers u ∧ Emptying d C u L)
    ⟨Lx, h, hr, hstart⟩ fun _ _ _ ⟨_, hu, hru, he⟩ _ hs =>
      have hm := move_of_step hs
      ⟨_, hu.move hru hm, hru.move hm, he.move hu hm⟩
  obtain ⟨L, hu, hru, -, hemptying⟩ := hend
  have hm := move_of_step hs
  obtain ⟨done, hCu, hdone, hlast⟩ := hemptying.resolve_left fun hclosed =>
    have ⟨f, hf, hfd⟩ := hopen
    hclosed f hf hfd
  refine ⟨L, done, ?_⟩
  have hm' : Placed m' L := hu.move hru hm
  cases hm with
  | panic link' callers' n hpc' =>
    have hclears' : clears u.pc = callers' := by rw [hpc']; rfl
    obtain ⟨k, hk⟩ : ∃ k, dropping d u.pc = some k := by
      rw [hpc']
      exact droppingIn_some (hclears' ▸ hopen)
    refine ⟨k, hm', hCu, hdone, hk, hlast k hk, ?_, rfl⟩
    obtain ⟨f, hf, hfd⟩ := hclears' ▸ hopen
    have hany : callers'.any (·.collector == d) = true :=
      List.any_eq_true.mpr ⟨f, hf, beq_iff_eq.mpr hfd⟩
    show (u.freed d || d == n || callers'.any (·.collector == d)) = true
    rw [hany, Bool.or_true]

/-- What a collector that was freed has left is lost. -/
theorem Placed.not_settled (h : Placed m L) (hc : clears m.pc = []) {d i : Node}
    (hd : m.freed d = true) (hi : i ∈ L (.inside d)) : ¬Settled m i := by
  rintro (⟨hcount, -⟩ | ⟨-, w, hw, -⟩)
  · exact h.not_dropped hi nofun (List.count_pos_iff.mp (hcount ▸ Nat.one_pos))
  · obtain ⟨p, hp, -, hfree⟩ := h.of_onList hc hw
    have hf := hfree d (h.scattered.disjoint p (.inside d) i hp hi)
    exact absurd (hd.symm.trans hf) nofun

/-- A destructor panics while `clear_for_drop` empties the obsolete collector `d`. The other nodes
that were on its lists have been dropped once, or are on one list of some collector, if and only if
the node that was being dropped is the last one. -/
theorem clear_for_drop_panics {Lx : Spot → List Node} (h : Placed x Lx) (hr : Readers x)
    {link : Option Node} {callers : List Local.Clear} {d : Node} {C : List Node}
    (hpc : x.pc = .clear link ⟨d, none, []⟩ callers) (hC : LinkedAll x.link (containers x d) C)
    {P : Local → Local.Act → Prop} {u : Local} (hrun : Run Local.step P x u)
    (hopen : ∃ f ∈ clears u.pc, f.collector = d) (hs : u.step .panic = some m') :
    ∃ k ∈ C, dropping d u.pc = some k ∧
      ((∀ i ∈ C, i ≠ k → Settled m' i) ↔ C.getLast? = some k) := by
  obtain ⟨L, done, k, hm', rfl, hdone, hk, hlast, hfreed, hc⟩ :=
    emptied_panic h hr hpc hC hrun hopen hs
  have hkmem := List.mem_of_getLast? hlast
  have hkd := hdone k hkmem
  -- What is left has not been dropped.
  have hne : ∀ i ∈ L (.inside d), i ≠ k := by
    rintro i hi rfl
    exact absurd (hm'.scattered.disjoint _ _ i hi hkd) nofun
  refine ⟨k, List.mem_append_left _ hkmem, hk, fun hall => ?_, fun hC => ?_⟩
  · have hnil : L (.inside d) = [] := List.eq_nil_iff_forall_not_mem.mpr fun i hi =>
      hm'.not_settled hc hfreed hi (hall i (List.mem_append_right _ hi) (hne i hi))
    rw [hnil, List.append_nil, hlast]
  · have hnil : L (.inside d) = [] := by
      by_contra hrest
      rw [List.getLast?_append_of_ne_nil _ hrest] at hC
      exact hne k (List.mem_of_getLast? hC) rfl
    intro i hi _
    rw [hnil, List.append_nil] at hi
    refine .inl ⟨?_, fun ⟨w, hw⟩ => ?_⟩
    · rw [← hm'.dropped]
      exact hm'.count (hdone i hi)
    · obtain ⟨p, hp, hpd, -⟩ := hm'.of_onList hc hw
      exact hpd (hm'.scattered.disjoint p .dropped i hp (hdone i hi))

/-- An obsolete collector with two instances is about to be dropped. -/
def obsolete : Local where
  link n := if n = 0 then some 1 else none
  lists n := if n = 2 then some ⟨none, some 0, none⟩ else none
  freed _ := false
  nextNode := 3
  chain := []
  marked := false
  own := ⟨none, none, some 2⟩
  inactive := true
  announcement := .default
  nextEpochUpdate := 64
  hasGarbage := true
  numReaders := 0
  pc := .idle
  dropped := []

/-- Where the nodes of `obsolete` are. -/
def obsoletePlaces : Spot → List Node
  | .next => [2]
  | .inside d => if d = 2 then [0, 1] else []
  | _ => []

/-- Each node is at one place. -/
theorem mem_obsoletePlaces (p : Spot) :
    ∀ n ∈ obsoletePlaces p, (if n = 2 then Spot.next else .inside 2) = p ∧ n < 3 := by
  cases p with
  | inside d =>
    intro n hn
    change n ∈ (if d = 2 then [0, 1] else []) at hn
    split at hn
    · rename_i hd
      subst hd
      revert n
      decide
    · cases hn
  | previous | current | next | garbage | chain | dropped => decide

/-- Each node is at exactly one place, and was not dropped. -/
theorem obsolete_placed : Placed obsolete obsoletePlaces where
  scattered := by
    refine ⟨fun p => ?_, fun p q n hp hq => ?_⟩
    · cases p with
      | inside d =>
        show (if d = 2 then [0, 1] else []).Nodup
        split <;> decide
      | previous | current | next | garbage | chain | dropped => decide
    · exact (mem_obsoletePlaces p n hp).1.symm.trans (mem_obsoletePlaces q n hq).1
  previous := rfl
  current := rfl
  next := ⟨rfl, rfl⟩
  garbage := rfl
  chain := rfl
  dropped := rfl
  clearing := nofun
  listed d _ _ := by
    show LinkedAll _ (Option.elim (if d = 2 then _ else _) _ _) (if d = 2 then _ else _)
    split
    · exact ⟨[], [0, 1], rfl, rfl, [0, 1], [], rfl, ⟨rfl, rfl, rfl⟩, [], [], rfl, rfl, rfl⟩
    · rfl
  distinct := List.nodup_nil
  opened := nofun
  running := nofun
  fresh p n hn := (mem_obsoletePlaces p n hn).2
  live _ _ _ _ := rfl
  unused n hn := by
    refine ⟨rfl, if_neg ?_⟩
    rintro rfl
    exact absurd hn (by decide)

/-- Whether the state is at the beginning of the drop of the obsolete collector. -/
def atClear (x : Local) : Bool :=
  decide (x.pc = .clear none ⟨2, none, []⟩ []) &&
    decide (x.lists 2 = some ⟨none, some 0, none⟩) && x.link 0 == some 1 && x.link 1 == none

/-- What is left to clear when `clear_for_drop` begins. -/
theorem contents_of_atClear (h : atClear x = true) : x.pc = .clear none ⟨2, none, []⟩ [] ∧
    LinkedAll x.link (containers x 2) [0, 1] := by
  simp only [atClear, Bool.and_eq_true, decide_eq_true_eq, beq_iff_eq] at h
  obtain ⟨⟨⟨hpc, hlists⟩, h0⟩, h1⟩ := h
  refine ⟨hpc, ?_⟩
  rw [containers, hlists]
  exact ⟨[], [0, 1], rfl, rfl, [0, 1], [], rfl, ⟨rfl, h0, h1⟩, [], [], rfl, rfl, rfl⟩

/-- A run of the drop of the obsolete collector to a destructor that panics. -/
theorem obsolete_run (as : List Local.Act) (k : Node) (test : Local → Bool)
    (h : (exec Local.step (fun _ _ => true) obsolete [.newGuard Epoch.default.next, .proceed]).any
      (fun x => atClear x && (exec Local.step (fun _ _ => true) x as).any fun u =>
        (clears u.pc).any (·.collector == 2) && decide (dropping 2 u.pc = some k) &&
          (u.step .panic).any test) = true) :
    ∃ x L u m', Placed x L ∧ Readers x ∧ x.pc = .clear none ⟨2, none, []⟩ [] ∧
      LinkedAll x.link (containers x 2) [0, 1] ∧
      Run Local.step (fun _ _ => true = true) x u ∧ (∃ f ∈ clears u.pc, f.collector = 2) ∧
      dropping 2 u.pc = some k ∧ u.step .panic = some m' ∧ test m' = true := by
  obtain ⟨x, hx, hat⟩ := Run.of_exec_any h
  obtain ⟨hat, hu⟩ := Bool.and_eq_true_iff.mp hat
  obtain ⟨u, hu, hp⟩ := Run.of_exec_any hu
  obtain ⟨hp, hm⟩ := Bool.and_eq_true_iff.mp hp
  obtain ⟨hopen, hk⟩ := Bool.and_eq_true_iff.mp hp
  obtain ⟨m', hm', htest⟩ := (Option.any_eq_true _ _).mp hm
  obtain ⟨f, hf, hfd⟩ := List.any_eq_true.mp hopen
  obtain ⟨⟨L, hL⟩, hr⟩ := placed_run obsolete_placed ⟨fun _ => rfl, fun _ => rfl⟩ hx
  obtain ⟨hpc, hC⟩ := contents_of_atClear hat
  exact ⟨x, L, u, m', hL, hr, hpc, hC, hu, ⟨f, hf, beq_iff_eq.mp hfd⟩, of_decide_eq_true hk, hm',
    htest⟩

/-- The second instance panics, and the first one has been dropped. -/
theorem clear_for_drop_panics_last : ∃ x u m' : Local, x.pc = .clear none ⟨2, none, []⟩ [] ∧
    Run Local.step (fun _ _ => true = true) x u ∧ u.step .panic = some m' ∧
    ∃ k ∈ [0, 1], dropping 2 u.pc = some k ∧
      ((∀ i ∈ [0, 1], i ≠ k → Settled m' i) ↔ [0, 1].getLast? = some k) := by
  obtain ⟨x, L, u, m', hL, hr, hpc, hC, hu, hopen, -, hm', -⟩ :=
    obsolete_run (.replicate 6 .proceed) 1 (fun _ => true) (by decide +kernel)
  exact ⟨x, u, m', hpc, hu, hm', clear_for_drop_panics hL hr hpc hC hu hopen hm'⟩

/-- The first instance panics, and the second one is lost. -/
theorem clear_for_drop_loses : ∃ (x u m' : Local) (k : Node), (∃ L, Placed x L) ∧ Readers x ∧
    x.pc = .clear none ⟨2, none, []⟩ [] ∧ LinkedAll x.link (containers x 2) [0, 1] ∧
    Run Local.step (fun _ _ => true = true) x u ∧ dropping 2 u.pc = some k ∧
    u.step .panic = some m' ∧ ¬∀ i ∈ [0, 1], i ≠ k → Settled m' i := by
  obtain ⟨x, L, u, m', hL, hr, hpc, hC, hu, hopen, hk, hm', htest⟩ :=
    obsolete_run (.replicate 4 .proceed) 0 (fun m' => decide (1 ∉ m'.dropped)) (by decide +kernel)
  refine ⟨x, u, m', 0, ⟨L, hL⟩, hr, hpc, hC, hu, hk, hm', fun hall => ?_⟩
  obtain ⟨L', done, k, hL', hdone, hdropped, -, -, hfreed, hc⟩ :=
    emptied_panic hL hr hpc hC hu hopen hm'
  have hone : 1 ∈ done ++ L' (.inside 2) := hdone ▸ by decide
  have hnot : 1 ∉ m'.dropped := of_decide_eq_true htest
  rcases List.mem_append.mp hone with hd | hi
  · exact hnot (hL'.dropped ▸ hdropped 1 hd)
  · exact hL'.not_settled hc hfreed hi (hall 1 (by decide) (by decide))

end Local

end Sdd.Proofs
