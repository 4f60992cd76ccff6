import Sdd.Proofs.Local.Move
import Sdd.Lib.Forest
import Sdd.Lib.Linked

/-!
# `Sdd.Proofs.Local.Places`: where the nodes are

Each node is in one place: on a list of the collector, in `garbage_link`, inside an obsolete
collector, in the chain, or dropped. The nodes inside an obsolete collector are those on its lists
and those in the local variables of the `clear_for_drop` that empties it. `Placed m L` says
that `L` is the assignment, that the links are those of the lists, and that no node was freed before
its drop has begun.

`after` is the assignment after an action. The lemmas of this module say what the parts of the
actions do to it.

A panic leaves the nodes inside the collectors that are being dropped where they are. No link
leads to them any more.
-/

set_option autoImplicit false

namespace Sdd.Proofs

open Sdd.Lib

variable {m m' : Local}

namespace Local


/-- The place of a node. -/
inductive Spot where
  | previous
  | current
  | next
  /-- In the variable `garbage_link`. -/
  | garbage
  /-- On a list of the obsolete collector `d`, or in its `clear_for_drop`. -/
  | inside (d : Node)
  | chain
  | dropped
  deriving DecidableEq

/-- `garbage_link` at a place of the thread. -/
def garbageLink : Local.Pc → Option Node
  | .drain link | .clear link _ _ | .destructor link _ _ | .unwind link => link
  | _ => none

/-- The calls of `clear_for_drop` in progress, the innermost first. -/
def clears : Local.Pc → List Local.Clear
  | .clear _ call callers => call :: callers
  | .destructor _ callers _ => callers
  | _ => []

/-- The lists of a node. -/
def containers (m : Local) (d : Node) : List (Option Node) :=
  (m.lists d).elim [] Local.Lists.garbageContainers

/-- `L` gives the nodes in each place. -/
structure Placed (m : Local) (L : Spot → List Node) : Prop where
  scattered : Scattered L
  previous : Linked m.link m.own.previousInstanceLink (L .previous)
  current : Linked m.link m.own.currentInstanceLink (L .current)
  next : Linked m.link m.own.nextInstanceLink (L .next)
  garbage : Linked m.link (garbageLink m.pc) (L .garbage)
  chain : L .chain = m.chain
  dropped : L .dropped = m.dropped
  /-- The nodes that a call of `clear_for_drop` has to drop. -/
  clearing : ∀ f ∈ clears m.pc, LinkedAll m.link
    (f.link :: f.garbageContainers ++ containers m f.collector) (L (.inside f.collector))
  /-- The nodes on the lists of a collector that is not being dropped. -/
  listed : ∀ d, m.freed d = false → (∀ f ∈ clears m.pc, f.collector ≠ d) →
    LinkedAll m.link (containers m d) (L (.inside d))
  distinct : ((clears m.pc).map Local.Clear.collector).Nodup
  opened : ∀ f ∈ clears m.pc, f.collector ∈ m.dropped ∧ m.freed f.collector = false ∧
    (m.lists f.collector).isSome
  running : ∀ link callers n, m.pc = .destructor link callers n →
    n ∈ m.dropped ∧ m.freed n = false ∧ m.lists n = none
  fresh : ∀ p n, n ∈ L p → n < m.nextNode
  live : ∀ p n, n ∈ L p → p ≠ .dropped → m.freed n = false
  unused : ∀ n, m.nextNode ≤ n → m.freed n = false ∧ L (.inside n) = []

/-- A node moves from one place to another. -/
def moved (L : Spot → List Node) (p : Spot) (rest : List Node) (q : Spot) (n : Node) :
    Spot → List Node :=
  Function.update (Function.update L p rest) q (n :: L q)

/-- The lists rotate. -/
def turned (L : Spot → List Node) : Spot → List Node
  | .previous => L .current
  | .current => []
  | .next => L .previous
  | .garbage => L .next
  | p => L p

/-- The action creates a guard that observes another epoch than the announced one. -/
def observes (m : Local) : Local.Act → Bool
  | .newGuard e => m.user && m.numReaders == 0 && m.announcement != e
  | _ => false

/-- The assignment after an action. -/
def after (m : Local) (L : Spot → List Node) (a : Local.Act) : Spot → List Node :=
  match a, m.pc with
  | .newGuard _, _ => if observes m a && m.hasGarbage then turned L else L
  | .collect, _ => Function.update L .current (m.nextNode :: L .current)
  | .proceed, .drain (some n) => moved L .garbage (L .garbage).tail .dropped n
  | .proceed, .clear _ f _ =>
    match f.link with
    | some n => moved L (.inside f.collector) (L (.inside f.collector)).tail .dropped n
    | none => L
  | .proceed, .unwind (some n) => moved L .garbage (L .garbage).tail .current n
  | .unlink d, _ => moved L .chain ((L .chain).erase d) .current d
  | _, _ => L

section moved

variable {L : Spot → List Node} {p q r : Spot} {n x : Node} {rest : List Node}

/-- The list that gets the node. -/
theorem moved_to : moved L p rest q n q = n :: L q := Function.update_self ..

/-- The list that loses the node. -/
theorem moved_from (h : p ≠ q) : moved L p rest q n p = rest := by
  rw [moved, Function.update_of_ne h, Function.update_self]

/-- The other lists. -/
theorem moved_of_ne (hp : r ≠ p) (hq : r ≠ q) : moved L p rest q n r = L r := by
  rw [moved, Function.update_of_ne hq, Function.update_of_ne hp]

/-- A node that moves is at one place again. -/
theorem moved_rearranged (hpq : p ≠ q) (hp : (L p).Perm (n :: rest)) :
    Rearranged [p, q] L (moved L p rest q n) where
  nodup := by simpa using hpq
  perm := by
    simp only [List.flatMap_cons, List.flatMap_nil, List.append_nil, moved_to, moved_from hpq]
    exact List.perm_middle.trans (hp.symm.append_right (L q))
  same r hr := by
    simp only [List.mem_cons, List.not_mem_nil, or_false, not_or] at hr
    exact moved_of_ne hr.1 hr.2

/-- A node that is somewhere afterwards. -/
theorem mem_moved (hp : (L p).Perm (n :: rest)) (hx : x ∈ moved L p rest q n r) :
    x ∈ L r ∨ r = q ∧ x = n := by
  by_cases hq : r = q
  · subst hq
    rw [moved_to] at hx
    rcases List.mem_cons.mp hx with rfl | hx
    · exact .inr ⟨rfl, rfl⟩
    · exact .inl hx
  · by_cases hr : r = p
    · subst hr
      rw [moved_from hq] at hx
      exact .inl (hp.mem_iff.mpr (List.mem_cons_of_mem n hx))
    · rw [moved_of_ne hr hq] at hx
      exact .inl hx

/-- A turn of the lists moves each of them as a whole. -/
theorem turned_rearranged (hg : L .garbage = []) :
    Rearranged [.garbage, .next, .previous, .current] L (turned L) where
  nodup := by decide
  perm := by
    simp only [List.flatMap_cons, List.flatMap_nil, List.append_nil, turned, hg, List.nil_append]
    exact .rfl
  same r hr := by
    cases r with
    | garbage | next | previous | current => simp at hr
    | inside d | chain | dropped => rfl

/-- `collect` adds to the current list only. -/
theorem after_collect (hp : p ≠ .current) : after m L .collect p = L p :=
  Function.update_of_ne hp ..

end moved

variable {L L' : Spot → List Node}

/-- Flags and places of the thread that do not matter for the nodes. -/
theorem Placed.congr (h : Placed m L) (hlink : m'.link = m.link) (hlists : m'.lists = m.lists)
    (hfreed : m'.freed = m.freed) (hnext : m'.nextNode = m.nextNode) (hchain : m'.chain = m.chain)
    (hown : m'.own = m.own) (hdropped : m'.dropped = m.dropped)
    (hgarbage : garbageLink m'.pc = garbageLink m.pc) (hclears : clears m'.pc = clears m.pc)
    (hrunning : ∀ link callers n, m'.pc = .destructor link callers n →
      m.pc = .destructor link callers n) : Placed m' L where
  scattered := h.scattered
  previous := by rw [hlink, hown]; exact h.previous
  current := by rw [hlink, hown]; exact h.current
  next := by rw [hlink, hown]; exact h.next
  garbage := by rw [hlink, hgarbage]; exact h.garbage
  chain := by rw [hchain]; exact h.chain
  dropped := by rw [hdropped]; exact h.dropped
  clearing f hf := by
    rw [hlink, containers, hlists]
    exact h.clearing f (hclears ▸ hf)
  listed d hd hf := by
    rw [hlink, containers, hlists]
    exact h.listed d (hfreed ▸ hd) fun f hf' => hf f (hclears ▸ hf')
  distinct := by rw [hclears]; exact h.distinct
  opened f hf := by
    rw [hdropped, hfreed, hlists]
    exact h.opened f (hclears ▸ hf)
  running link callers n hpc := by
    rw [hdropped, hfreed, hlists]
    exact h.running link callers n (hrunning _ _ _ hpc)
  fresh p n hn := by rw [hnext]; exact h.fresh p n hn
  live p n hn hp := by rw [hfreed]; exact h.live p n hn hp
  unused n hn := by
    rw [hfreed]
    exact h.unused n (hnext ▸ hn)

/-- A node is in one place. -/
theorem Placed.count (h : Placed m L) {p : Spot} {n : Node} (hn : n ∈ L p) : (L p).count n = 1 :=
  List.count_eq_one_of_mem (h.scattered.nodup p) hn

/-- A node that has not been dropped. -/
theorem Placed.not_dropped (h : Placed m L) {p : Spot} {n : Node} (hn : n ∈ L p)
    (hp : p ≠ .dropped) : n ∉ m.dropped := fun hd =>
  hp (h.scattered.disjoint p .dropped n hn (h.dropped ▸ hd))

/-- The lists of the collector after a node has moved between other places, and the link of the node
may have been written. -/
theorem linked_moved (hs : Scattered L) {p q r : Spot} {n : Node} {rest : List Node}
    {head : Option Node} {link link' : Node → Option Node} (hn : n ∈ L p)
    (hlink : ∀ x, x ≠ n → link' x = link x) (hp : r ≠ p) (hq : r ≠ q)
    (h : Linked link head (L r)) : Linked link' head (moved L p rest q n r) := by
  rw [moved_of_ne hp hq]
  refine h.congr fun x hx => hlink x ?_
  rintro rfl
  exact hp (hs.disjoint r p x hx hn)

/-- The drop of a node begins. -/
theorem Placed.dropBox (h : Placed m L) {p : Spot} {n : Node} {rest : List Node}
    {link : Option Node} {callers : List Local.Clear}
    (hp : p = .garbage ∨ ∃ f ∈ clears m.pc, p = .inside f.collector) (hL : L p = n :: rest)
    (hcallers : callers.map Local.Clear.collector = (clears m.pc).map Local.Clear.collector)
    (hclearing : ∀ f ∈ callers, LinkedAll m.link
      (f.link :: f.garbageContainers ++ containers m f.collector)
      (moved L p rest .dropped n (.inside f.collector)))
    (hgarbage : Linked m.link link (moved L p rest .dropped n .garbage)) :
    Placed (m.dropBox link callers n) (moved L p rest .dropped n) := by
  have hn : n ∈ L p := hL ▸ List.mem_cons_self
  have hpd : p ≠ .dropped := by rcases hp with rfl | ⟨f, -, rfl⟩ <;> exact nofun
  have hperm : (L p).Perm (n :: rest) := hL ▸ .rfl
  have hnot := h.not_dropped hn hpd
  have hfree := h.live p n hn hpd
  have hkeep : ∀ {r : Spot} {head : Option Node}, r ≠ p → r ≠ .dropped →
      Linked m.link head (L r) → Linked m.link head (moved L p rest .dropped n r) :=
    fun hr hr' hl => linked_moved h.scattered hn (fun _ _ => rfl) hr hr' hl
  have hroot : ∀ {r : Spot}, (∀ d, r ≠ .inside d) → r ≠ .garbage → r ≠ p := by
    rintro r hr hg rfl
    rcases hp with rfl | ⟨f, -, rfl⟩
    · exact hg rfl
    · exact hr _ rfl
  -- The nodes inside another collector than those that are emptied.
  have hinside : ∀ {d : Node}, (∀ f ∈ clears m.pc, f.collector ≠ d) → m.freed d = false →
      LinkedAll m.link (containers m d) (moved L p rest .dropped n (.inside d)) := by
    intro d hd hf
    have hne : Spot.inside d ≠ p := by
      rintro rfl
      rcases hp with hp | ⟨f, hf', hp⟩
      · cases hp
      · cases hp
        exact hd f hf' rfl
    rw [moved_of_ne (r := .inside d) (q := .dropped) hne nofun]
    exact h.listed d hf hd
  have hclosed : ∀ f ∈ clears m.pc, f.collector ≠ n := fun f hf hfn =>
    hnot (hfn ▸ (h.opened f hf).1)
  -- The calls in progress afterwards.
  have hmem : ∀ f ∈ callers, ∃ f₀ ∈ clears m.pc, f₀.collector = f.collector := by
    intro f hf
    have hfc := hcallers ▸ List.mem_map_of_mem hf
    exact List.mem_map.mp hfc
  have hpc : clears (m.dropBox link callers n).pc =
      if (m.lists n).isSome then ⟨n, none, []⟩ :: callers else callers := by
    unfold Local.dropBox
    split <;> rfl
  have hlink : garbageLink (m.dropBox link callers n).pc = link := by
    unfold Local.dropBox
    split <;> rfl
  refine
    { scattered := h.scattered.rearrange (moved_rearranged hpd hperm)
      previous := hkeep (hroot nofun nofun) nofun h.previous
      current := hkeep (hroot nofun nofun) nofun h.current
      next := hkeep (hroot nofun nofun) nofun h.next
      garbage := by rw [hlink]; exact hgarbage
      chain := by
        rw [moved_of_ne (r := .chain) (q := .dropped) (hroot nofun nofun) nofun]
        exact h.chain
      dropped := by
        rw [moved_to, h.dropped]
        rfl
      clearing := fun f hf => ?_
      listed := fun d hd hf => ?_
      distinct := ?_
      opened := fun f hf => ?_
      running := fun link' callers' n' hrun => ?_
      fresh := fun q x hx => ?_
      live := fun q x hx hq => ?_
      unused := fun x hx => ?_ }
  · rw [hpc] at hf
    split at hf
    · rcases List.mem_cons.mp hf with rfl | hf
      · exact LinkedAll.cons_none.mpr (hinside hclosed hfree)
      · exact hclearing f hf
    · exact hclearing f hf
  · refine hinside (fun f hf' hfd => ?_) hd
    have hfc := hcallers ▸ List.mem_map_of_mem (f := Local.Clear.collector) hf'
    obtain ⟨f₀, hf₀, heq⟩ := List.mem_map.mp hfc
    refine hf f₀ ?_ (heq.trans hfd)
    rw [hpc]
    split
    · exact List.mem_cons_of_mem _ hf₀
    · exact hf₀
  · rw [hpc]
    split
    · rw [List.map_cons, hcallers, List.nodup_cons]
      refine ⟨fun hmem => ?_, h.distinct⟩
      obtain ⟨f, hf, hfn⟩ := List.mem_map.mp hmem
      exact hclosed f hf hfn
    · rw [hcallers]
      exact h.distinct
  · have hold : ∀ f ∈ callers, f.collector ∈ n :: m.dropped ∧ m.freed f.collector = false ∧
        (m.lists f.collector).isSome := by
      intro f hf
      obtain ⟨f₀, hf₀, heq⟩ := hmem f hf
      obtain ⟨hd, hfr, hl⟩ := h.opened f₀ hf₀
      rw [← heq]
      exact ⟨List.mem_cons_of_mem n hd, hfr, hl⟩
    rw [hpc] at hf
    split at hf
    · rename_i hsome
      rcases List.mem_cons.mp hf with rfl | hf
      · exact ⟨List.mem_cons_self, hfree, hsome⟩
      · exact hold f hf
    · exact hold f hf
  · unfold Local.dropBox at hrun
    split at hrun
    · cases hrun
    · rename_i hsome
      cases hrun
      exact ⟨List.mem_cons_self, hfree, Option.not_isSome_iff_eq_none.mp hsome⟩
  · rcases mem_moved hperm hx with hx | ⟨-, rfl⟩
    · exact h.fresh q x hx
    · exact h.fresh p x hn
  · rcases mem_moved hperm hx with hx | ⟨rfl, -⟩
    · exact h.live q x hx hq
    · exact absurd rfl hq
  · obtain ⟨hf, hnil⟩ := h.unused x hx
    refine ⟨hf, List.eq_nil_iff_forall_not_mem.mpr fun y hy => ?_⟩
    rcases mem_moved hperm hy with hy | ⟨heq, -⟩
    · rw [hnil] at hy
      cases hy
    · cases heq

/-- A node that was dropped is not in another place. -/
theorem Placed.ne_of_dropped (h : Placed m L) {p : Spot} {n x : Node} (hn : n ∈ m.dropped)
    (hx : x ∈ L p) (hp : p ≠ .dropped) : x ≠ n := fun hxn => h.not_dropped hx hp (hxn ▸ hn)

/-- What was dropped was created before. -/
theorem Placed.lt_of_dropped (h : Placed m L) {n : Node} (hn : n ∈ m.dropped) : n < m.nextNode :=
  h.fresh .dropped n (h.dropped ▸ hn)

/-- The caller goes on where it has stopped. -/
theorem clears_returnTo (link : Option Node) (callers : List Local.Clear) :
    clears (Local.returnTo link callers) = callers ∧
      garbageLink (Local.returnTo link callers) = link := by
  cases callers with
  | nil => exact ⟨rfl, rfl⟩
  | cons f callers => exact ⟨rfl, rfl⟩

/-- The drop of a node returns. -/
theorem Placed.freeBox (h : Placed m L) {n : Node} {link : Option Node}
    {callers : List Local.Clear} (hlink : garbageLink m.pc = link) (hn : n ∈ m.dropped)
    (hsub : callers.Sublist (clears m.pc))
    (hall : ∀ f ∈ clears m.pc, f ∈ callers ∨ f.collector = n)
    (hne : ∀ f ∈ callers, f.collector ≠ n) : Placed (m.freeBox link callers n) L := by
  obtain ⟨hclears, hgarbage⟩ := clears_returnTo link callers
  have hother : ∀ {x : Node}, x ≠ n → (m.freeBox link callers n).freed x = m.freed x :=
    fun hx => Function.update_of_ne hx ..
  refine
    { scattered := h.scattered
      previous := h.previous
      current := h.current
      next := h.next
      garbage := by
        show Linked m.link (garbageLink (Local.returnTo link callers)) _
        rw [hgarbage, ← hlink]
        exact h.garbage
      chain := h.chain
      dropped := h.dropped
      clearing := fun f hf => h.clearing f (hsub.subset (hclears ▸ hf))
      listed := fun d hd hf => ?_
      distinct := ?_
      opened := fun f hf => ?_
      running := fun link' callers' n' hrun => ?_
      fresh := h.fresh
      live := fun p x hx hp => (hother (h.ne_of_dropped hn hx hp)).trans (h.live p x hx hp)
      unused := fun x hx => ?_ }
  · by_cases hdn : d = n
    · have hfreed : (m.freeBox link callers n).freed d = true := by
        rw [hdn]
        exact Function.update_self ..
      rw [hfreed] at hd
      cases hd
    · refine h.listed d ((hother hdn).symm.trans hd) fun f hf' => ?_
      rcases hall f hf' with hfc | hfn
      · exact hf f (hclears.symm ▸ hfc)
      · exact hfn ▸ Ne.symm hdn
  · show ((clears (Local.returnTo link callers)).map _).Nodup
    rw [hclears]
    exact h.distinct.sublist (hsub.map _)
  · have hfc : f ∈ callers := hclears ▸ hf
    obtain ⟨hd, hfr, hl⟩ := h.opened f (hsub.subset hfc)
    exact ⟨hd, (hother (hne f hfc)).trans hfr, hl⟩
  · cases callers <;> cases hrun
  · obtain ⟨hf, hnil⟩ := h.unused x hx
    exact ⟨(hother fun hxn => absurd (hxn ▸ hx) (Nat.not_le.mpr (h.lt_of_dropped hn))).trans hf, hnil⟩

/-- A node is put on the current list. It was in `garbage_link` or in the chain, or it is new. -/
theorem Placed.collect (h : Placed m L) {n : Node} (hs : Scattered L')
    (hcurrent : L' .current = n :: L .current)
    (hsame : ∀ p, p ≠ .current → p ≠ .garbage → p ≠ .chain → L' p = L p)
    (hlink : m'.link = Function.update m.link n m.own.currentInstanceLink)
    (hown : m'.own = { m.own with currentInstanceLink := some n })
    (hgarbage : Linked m.link (garbageLink m'.pc) (L' .garbage)) (hchain : L' .chain = m'.chain)
    (hlists : m'.lists = m.lists ∨ m'.lists = Function.update m.lists m.nextNode none)
    (hfreed : m'.freed = m.freed) (hdropped : m'.dropped = m.dropped)
    (hclears : clears m'.pc = clears m.pc)
    (hrunning : ∀ link callers n, m'.pc = .destructor link callers n →
      m.pc = .destructor link callers n)
    (hnext : m.nextNode ≤ m'.nextNode) (hmem : ∀ p x, x ∈ L' p → x = n ∨ x ∈ L p)
    (hn : n < m'.nextNode ∧ m.freed n = false) : Placed m' L' := by
  have hnot : ∀ p, p ≠ .current → n ∉ L' p := fun p hp hnp =>
    hp (hs.disjoint p .current n hnp (hcurrent ▸ List.mem_cons_self))
  have hagree : ∀ p, p ≠ .current → ∀ x ∈ L' p, m'.link x = m.link x := by
    intro p hp x hx
    rw [hlink, Function.update_of_ne]
    rintro rfl
    exact hnot p hp hx
  have hlisted : ∀ {d : Node}, d < m.nextNode → m'.lists d = m.lists d := by
    intro d hd
    rcases hlists with hl | hl <;> rw [hl]
    exact Function.update_of_ne (Nat.ne_of_lt hd) ..
  have hinside : ∀ {d : Node} {ps : List (Option Node)}, LinkedAll m.link ps (L (.inside d)) →
      LinkedAll m'.link ps (L' (.inside d)) := by
    intro d ps hl
    rw [← hsame (.inside d) nofun nofun nofun] at hl
    exact hl.congr (hagree (.inside d) nofun)
  have hopen : ∀ f ∈ clears m.pc, f.collector < m.nextNode := fun f hf =>
    h.lt_of_dropped (h.opened f hf).1
  refine
    { scattered := hs
      previous := ?_
      current := ?_
      next := ?_
      garbage := hgarbage.congr (hagree .garbage nofun)
      chain := hchain
      dropped := by
        rw [hsame .dropped nofun nofun nofun, hdropped]
        exact h.dropped
      clearing := fun f hf => ?_
      listed := fun d hd hf => ?_
      distinct := by
        rw [hclears]
        exact h.distinct
      opened := fun f hf => ?_
      running := fun link callers k hrun => ?_
      fresh := fun p x hx => ?_
      live := fun p x hx hp => ?_
      unused := fun x hx => ?_ }
  · have hl := h.previous.congr (hsame .previous nofun nofun nofun ▸ hagree .previous nofun)
    rw [hown, hsame .previous nofun nofun nofun]
    exact hl
  · rw [hown, hcurrent]
    refine ⟨rfl, ?_⟩
    rw [hlink, Function.update_self]
    refine h.current.congr fun x hx => Function.update_of_ne ?_ ..
    rintro rfl
    have hnodup := hs.nodup .current
    rw [hcurrent] at hnodup
    exact (List.nodup_cons.mp hnodup).1 hx
  · have hl := h.next.congr (hsame .next nofun nofun nofun ▸ hagree .next nofun)
    rw [hown, hsame .next nofun nofun nofun]
    exact hl
  · have hfm : f ∈ clears m.pc := hclears ▸ hf
    rw [containers, hlisted (hopen f hfm)]
    exact hinside (h.clearing f hfm)
  · have hold := h.listed d (hfreed ▸ hd) fun f hf' => hf f (hclears.symm ▸ hf')
    rcases hlists with hl | hl
    · rw [containers, hl]
      exact hinside hold
    · by_cases hdn : d = m.nextNode
      · rw [containers, hl, hdn, Function.update_self,
          hsame (.inside m.nextNode) nofun nofun nofun]
        exact (h.unused m.nextNode (Nat.le_refl _)).2
      · rw [containers, hl, Function.update_of_ne hdn]
        exact hinside hold
  · have hfm : f ∈ clears m.pc := hclears ▸ hf
    rw [hdropped, hfreed, hlisted (hopen f hfm)]
    exact h.opened f hfm
  · obtain ⟨hd, hf, hl⟩ := h.running link callers k (hrunning _ _ _ hrun)
    rw [hdropped, hfreed, hlisted (h.lt_of_dropped hd)]
    exact ⟨hd, hf, hl⟩
  · rcases hmem p x hx with rfl | hx
    · exact hn.1
    · exact Nat.lt_of_lt_of_le (h.fresh p x hx) hnext
  · rw [hfreed]
    rcases hmem p x hx with rfl | hx
    · exact hn.2
    · exact h.live p x hx hp
  · obtain ⟨hf, hnil⟩ := h.unused x (Nat.le_trans hnext hx)
    rw [hfreed, hsame (.inside x) nofun nofun nofun]
    exact ⟨hf, hnil⟩

/-- Another epoch is observed outside of the collector. -/
theorem Placed.turn (h : Placed m L) (hpc : m.pc = .idle) (hlink : m'.link = m.link)
    (hlists : m'.lists = m.lists) (hfreed : m'.freed = m.freed) (hnext : m'.nextNode = m.nextNode)
    (hchain : m'.chain = m.chain) (hdropped : m'.dropped = m.dropped)
    (hown : m'.own = ⟨m.own.currentInstanceLink, none, m.own.previousInstanceLink⟩)
    (hpc' : m'.pc = .drain m.own.nextInstanceLink) : Placed m' (turned L) := by
  have hclears : clears m.pc = [] := by rw [hpc]; rfl
  have hclears' : clears m'.pc = [] := by rw [hpc']; rfl
  have hnil : L .garbage = [] := by
    have hl := h.garbage
    rw [hpc] at hl
    exact hl.eq_nil
  have hmem : ∀ p x, x ∈ turned L p → ∃ q, x ∈ L q ∧ (p ≠ .dropped → q ≠ .dropped) := by
    intro p x hx
    cases p with
    | previous => exact ⟨.current, hx, fun _ => nofun⟩
    | current => cases hx
    | next => exact ⟨.previous, hx, fun _ => nofun⟩
    | garbage => exact ⟨.next, hx, fun _ => nofun⟩
    | inside d => exact ⟨.inside d, hx, fun _ => nofun⟩
    | chain => exact ⟨.chain, hx, fun _ => nofun⟩
    | dropped => exact ⟨.dropped, hx, fun hp => hp⟩
  refine
    { scattered := h.scattered.rearrange (turned_rearranged hnil)
      previous := by rw [hlink, hown]; exact h.current
      current := by rw [hown]; rfl
      next := by rw [hlink, hown]; exact h.previous
      garbage := by rw [hlink, hpc']; exact h.next
      chain := by rw [hchain]; exact h.chain
      dropped := by rw [hdropped]; exact h.dropped
      clearing := fun f hf => by rw [hclears'] at hf; cases hf
      listed := fun d hd _ => ?_
      distinct := by rw [hclears']; exact List.nodup_nil
      opened := fun f hf => by rw [hclears'] at hf; cases hf
      running := fun _ _ _ hrun => by rw [hpc'] at hrun; cases hrun
      fresh := fun p x hx => ?_
      live := fun p x hx hp => ?_
      unused := fun x hx => ?_ }
  · rw [hlink, containers, hlists]
    exact h.listed d (hfreed ▸ hd) fun f hf => by rw [hclears] at hf; cases hf
  · obtain ⟨q, hq, -⟩ := hmem p x hx
    rw [hnext]
    exact h.fresh q x hq
  · obtain ⟨q, hq, hne⟩ := hmem p x hx
    rw [hfreed]
    exact h.live q x hq (hne hp)
  · rw [hfreed]
    exact h.unused x (hnext ▸ hx)

/-- `clear_for_drop` goes on with the next list, or takes the lists. -/
theorem Placed.clear (h : Placed m L) {link : Option Node} {f : Local.Clear} (f' : Local.Clear)
    {callers : List Local.Clear} (hpc : m.pc = .clear link f callers)
    (hf : f'.collector = f.collector) (hpc' : m'.pc = .clear link f' callers)
    (hlink : m'.link = m.link) (hfreed : m'.freed = m.freed) (hnext : m'.nextNode = m.nextNode)
    (hchain : m'.chain = m.chain) (hown : m'.own = m.own) (hdropped : m'.dropped = m.dropped)
    (hlists : ∀ d, d ≠ f.collector → m'.lists d = m.lists d)
    (hsome : (m'.lists f.collector).isSome)
    (hclearing : LinkedAll m.link (f'.link :: f'.garbageContainers ++ containers m' f.collector)
      (L (.inside f.collector))) : Placed m' L := by
  have hclears : clears m.pc = f :: callers := by rw [hpc]; rfl
  have hclears' : clears m'.pc = f' :: callers := by rw [hpc']; rfl
  have hdistinct := h.distinct
  rw [hclears, List.map_cons, List.nodup_cons] at hdistinct
  have hcaller : ∀ g ∈ callers, g.collector ≠ f.collector := fun g hg heq =>
    hdistinct.1 (heq ▸ List.mem_map_of_mem hg)
  have hold : ∀ g ∈ callers, g ∈ clears m.pc := fun g hg =>
    hclears.symm ▸ List.mem_cons_of_mem f hg
  refine
    { scattered := h.scattered
      previous := by rw [hlink, hown]; exact h.previous
      current := by rw [hlink, hown]; exact h.current
      next := by rw [hlink, hown]; exact h.next
      garbage := by
        have hl := h.garbage
        rw [hpc] at hl
        rw [hlink, hpc']
        exact hl
      chain := by rw [hchain]; exact h.chain
      dropped := by rw [hdropped]; exact h.dropped
      clearing := fun g hg => ?_
      listed := fun d hd hg => ?_
      distinct := by
        rw [hclears', List.map_cons, hf]
        exact List.nodup_cons.mpr hdistinct
      opened := fun g hg => ?_
      running := fun _ _ _ hrun => by rw [hpc'] at hrun; cases hrun
      fresh := fun p x hx => by rw [hnext]; exact h.fresh p x hx
      live := fun p x hx hp => by rw [hfreed]; exact h.live p x hx hp
      unused := fun x hx => by rw [hfreed]; exact h.unused x (hnext ▸ hx) }
  · rw [hlink]
    rw [hclears'] at hg
    rcases List.mem_cons.mp hg with rfl | hg
    · rw [hf]
      exact hclearing
    · rw [containers, hlists _ (hcaller g hg)]
      exact h.clearing g (hold g hg)
  · rw [hclears'] at hg
    have hdf : d ≠ f.collector := fun hdf => hg f' List.mem_cons_self (hf.trans hdf.symm)
    rw [hlink, containers, hlists d hdf]
    refine h.listed d (hfreed ▸ hd) fun g hg' => ?_
    rw [hclears] at hg'
    rcases List.mem_cons.mp hg' with rfl | hg'
    · exact Ne.symm hdf
    · exact hg g (List.mem_cons_of_mem f' hg')
  · rw [hdropped, hfreed]
    rw [hclears'] at hg
    rcases List.mem_cons.mp hg with rfl | hg
    · obtain ⟨hd, hfr, -⟩ := h.opened f (hclears.symm ▸ List.mem_cons_self)
      rw [hf]
      exact ⟨hd, hfr, hsome⟩
    · rw [hlists _ (hcaller g hg)]
      exact h.opened g (hold g hg)

/-- A destructor panics. -/
theorem Placed.panic (h : Placed m L) {link : Option Node} {callers : List Local.Clear} {n : Node}
    (hpc : m.pc = .destructor link callers n) :
    Placed { m with
      freed := fun x => m.freed x || x == n || callers.any (·.collector == x)
      pc := .unwind link } L := by
  have hclears : clears m.pc = callers := by rw [hpc]; rfl
  obtain ⟨hn, -, -⟩ := h.running link callers n hpc
  -- The nodes that are freed were dropped.
  have hkeep : ∀ {x : Node}, x ∉ m.dropped →
      (m.freed x || x == n || callers.any (·.collector == x)) = m.freed x := by
    intro x hx
    have hxn : (x == n) = false := beq_false_of_ne fun heq => hx (heq ▸ hn)
    have hxc : callers.any (·.collector == x) = false := by
      refine List.any_eq_false.mpr fun f hf heq => hx ?_
      rw [← beq_iff_eq.mp heq]
      exact (h.opened f (hclears.symm ▸ hf)).1
    rw [hxn, hxc, Bool.or_false, Bool.or_false]
  refine
    { scattered := h.scattered
      previous := h.previous
      current := h.current
      next := h.next
      garbage := by
        have hl := h.garbage
        rw [hpc] at hl
        exact hl
      chain := h.chain
      dropped := h.dropped
      clearing := nofun
      listed := fun d hd _ => ?_
      distinct := List.nodup_nil
      opened := nofun
      running := nofun
      fresh := h.fresh
      live := fun p x hx hp => (hkeep (h.not_dropped hx hp)).trans (h.live p x hx hp)
      unused := fun x hx => ?_ }
  · obtain ⟨hd, hcall⟩ := Bool.or_eq_false_iff.mp hd
    obtain ⟨hd, -⟩ := Bool.or_eq_false_iff.mp hd
    refine h.listed d hd fun f hf heq => ?_
    have hne := List.any_eq_false.mp hcall f (hclears ▸ hf)
    exact hne (beq_iff_eq.mpr heq)
  · obtain ⟨hf, hnil⟩ := h.unused x hx
    exact ⟨(hkeep fun hd => absurd hx (Nat.not_le.mpr (h.lt_of_dropped hd))).trans hf, hnil⟩

end Local

end Sdd.Proofs
