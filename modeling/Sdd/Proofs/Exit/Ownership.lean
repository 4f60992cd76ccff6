import Sdd.Lib.Forest
import Sdd.Proofs.Collector.Reclaim
import Sdd.Proofs.Exit.Integrity

/-!
# `Sdd.Proofs.Exit.Ownership`: who owns what was retired

Every retired instance and every collector is in exactly one place. A `Slot` is a list that
owns instances or collectors: the three lists of a collector, the list that a loop drops, the
chain, what `clear_chain` has taken from it, and the collector that a thread has in its
hands; the last slot has what was dropped. The slots of a collector are inside of it, so that
collectors nest, and the slots are a forest in the sense of `Sdd.Lib.Forest`.

Each action moves elements between a few slots (`rearrange`), or puts a new element on one (`add`),
and leaves the other slots alone (`Frame`). `owned_once` is the result, without the ghost state.
-/

set_option autoImplicit false

namespace Sdd.Proofs.Exit

open Process (Stage)
open Sdd.Collector Sdd.Lib

variable {t : Tid} {act : Act} {w w' : Process} {g g' : Ghost} {b b' : World}
  {c d : CollectorId}

/-! ## The ghost state after a move -/

/-- The next step of the thread in the collector writes the chain. -/
def relinking (b : World) (t : Tid) : Bool :=
  match b.pc t with
  | .alloc _ p => b.chainHead == p
  | .unlink _ _ none d _ => b.chainHead.addr == some d
  | .unlink _ _ (some _) _ _ => true
  | _ => false

/-- A move that does not write the chain keeps the ghost state. -/
theorem GhostStep.eq_of_quiet (hg : GhostStep w t g g') (hr : relinking w.base t = false)
    (hw : ∀ temp, w.stage t ≠ .walk temp w.base.chainHead.addr none)
    (hf : ∀ temp d, w.stage t ≠ .free temp (some d)) : g' = g := by
  unfold relinking at hr
  -- Only `push` and `cut` are steps of the collector, and the thread is before neither of them.
  cases hg with
  | keep => rfl
  | push c hpc =>
    rw [hpc] at hr
    simp at hr
  | cut front rest d hc hi hl =>
    obtain ⟨o, known, prev, next, hpc, hh⟩ := hl
    rw [hpc] at hr
    cases prev with
    | none => simp [hh rfl] at hr
    | some p => cases hr
  | take hi hnil hs =>
    obtain ⟨temp, hs⟩ := hs
    exact absurd hs (hw temp)
  | free d rest hfr hs =>
    obtain ⟨temp, hs⟩ := hs
    exact absurd hs (hf temp d)

/-- A thread that steps in the collector does not step in `clear_chain`. -/
theorem GhostStep.eq_of_user (hg : GhostStep w t g g') (hu : (w.stage t).user = true)
    (hr : relinking w.base t = false) : g' = g :=
  hg.eq_of_quiet hr (fun temp hs => (by rw [hs] at hu; cases hu))
    fun temp d hs => (by rw [hs] at hu; cases hu)

/-- The write in `alloc` puts the collector in front of the chain. -/
theorem GhostStep.of_linking (hg : GhostStep w t g g') (h : Inv w g) (h' : Inv w' g')
    (hl : Linking w t c) (hlocal : w'.base.localCollector t = some c)
    (htemp : (w'.stage t).temp = none) : g' = ⟨c :: g.chain, g.freeing⟩ := by
  have hlpc : w.base.pc t = .alloc c w.base.chainHead := hl
  have hstage : (w.stage t).user = true := by
    cases hu : (w.stage t).user with
    | true => rfl
    | false => cases hlpc.symm.trans (h.temps.quiet t hu)
  cases hg with
  | keep =>
    -- The ghost state would not have the new collector, but every own collector is in the chain.
    rcases h'.chain.mem t c hlocal with hc | hc
    · exact absurd (List.mem_append_left _ hc) (h.chain.preparing t c _ hlpc)
    · cases htemp.symm.trans hc
  | push c' hpc =>
    cases hlpc.symm.trans hpc
    rfl
  | cut front rest d hc hi hcut =>
    obtain ⟨o, known, prev, next, hpc, -⟩ := hcut
    cases hlpc.symm.trans hpc
  | take hi hnil hs =>
    obtain ⟨temp, hs⟩ := hs
    rw [hs] at hstage
    cases hstage
  | free d rest hf hs =>
    obtain ⟨temp, hs⟩ := hs
    rw [hs] at hstage
    cases hstage

/-- `clear_chain` takes the chain. -/
theorem GhostStep.of_taking (hg : GhostStep w t g g') (h : Inv w g) (h' : Inv w' g')
    {temp : CollectorId} (hs : w.stage t = .walk temp w.base.chainHead.addr none)
    (hpc : w.base.pc t = .idle) (haddr : w'.base.chainHead.addr = none) :
    g.freeing = [] ∧ g'.chain = [] ∧ g'.freeing = g.chain := by
  have hnil := (inv_take h hs hpc rfl).2
  refine ⟨hnil, ?_⟩
  cases hg with
  | keep =>
    -- Nothing is behind `chain_head` any more, so that the chain was empty before as well.
    have hl := h'.chain.linked
    rw [haddr] at hl
    rw [hl.eq_nil, hnil]
    exact ⟨rfl, rfl⟩
  | push c hpc' => cases hpc.symm.trans hpc'
  | cut front rest d hc hi hl =>
    obtain ⟨o, known, prev, next, hpc', -⟩ := hl
    cases hpc.symm.trans hpc'
  | take hi hf hs' => exact ⟨rfl, rfl⟩
  | free d rest hf hs' =>
    obtain ⟨temp', hs'⟩ := hs'
    cases hs.symm.trans hs'

/-- `clear_chain` frees the next collector. -/
theorem GhostStep.of_freeing (hg : GhostStep w t g g') (h : Inv w g) {temp : CollectorId}
    (hs : w.stage t = .free temp (some d)) (hpc : w.base.pc t = .idle)
    (h' : Inv ((w.drop d).goto t
      (.drop temp (w.base.collectors d).garbage (w.base.collectors d).nextLink)) g') :
    g.freeing = d :: g'.freeing ∧ g'.chain = g.chain := by
  have hstands := h.stands t
  rw [hs] at hstands
  obtain ⟨rest, hrest, hl⟩ := Linked.eq_cons hstands
  cases hg with
  | keep =>
    -- The list that is left to free would be the same.
    have hstands' := h'.stands t
    rw [Process.goto_stage, Function.update_self] at hstands'
    have hl' : Linked (nextLinks w.base) (w.base.collectors d).nextLink g.freeing :=
      Linked.congr hstands' fun x _ => (nextLinks_modify rfl x).symm
    have heq : rest = g.freeing := hl.unique hl'
    rw [heq] at hrest
    exact absurd (congrArg List.length hrest) (by simp)
  | push c hpc' => cases hpc.symm.trans hpc'
  | cut front rest e hc hi hcut =>
    obtain ⟨o, known, prev, next, hpc', -⟩ := hcut
    cases hpc.symm.trans hpc'
  | take hi hf hs' =>
    obtain ⟨temp', hs'⟩ := hs'
    cases hs.symm.trans hs'
  | free e rest' hf hs' =>
    obtain ⟨temp', hs'⟩ := hs'
    cases hs.symm.trans hs'
    exact ⟨hf, rfl⟩

/-! ## Slots -/

/-- A list that owns instances or collectors. -/
inductive Slot where
  /-- The collectors that are linked. -/
  | chain
  /-- The collectors that `clear_chain` has taken from the chain. -/
  | freeing
  /-- The collector that a thread prepares in `alloc`, or its temporary one. -/
  | held (t : Tid)
  /-- The three lists of a collector. -/
  | lists (c : CollectorId)
  /-- The list that `epoch_updated` drops. -/
  | drain (t : Tid)
  /-- The list that `clear_chain` or `clear_for_drop` drops when the thread exits. -/
  | exit (t : Tid)
  /-- What was dropped. -/
  | gone
  deriving DecidableEq

/-- The lists of a collector are inside of it. -/
def Slot.place : Slot → Place Garbage
  | .lists c => .inside (.collector c)
  | .gone => .gone
  | .chain | .freeing | .held _ | .drain _ | .exit _ => .root

/-- The collector that `alloc` prepares. -/
def preparing : Pc → List CollectorId
  | .alloc c _ => [c]
  | _ => []

/-- The list that the exit path drops. -/
def exitGarbage : Stage → List Garbage
  | .drop _ garbage _ | .dropping _ garbage _ | .clearDrop _ garbage | .clearDropping _ garbage =>
    garbage
  | _ => []

/-- The collectors that a thread has in its hands. -/
def heldBy (w : Process) (t : Tid) : List CollectorId :=
  preparing (w.base.pc t) ++ (w.stage t).temp.toList

/-- What is on each list. -/
def slots (w : Process) (g : Ghost) : Slot → List Garbage
  | .chain => g.chain.map .collector
  | .freeing => g.freeing.map .collector
  | .held t => (heldBy w t).map .collector
  | .lists c => (w.base.collectors c).garbage
  | .drain t => pendingGarbage (w.base.pc t)
  | .exit t => exitGarbage (w.stage t)
  | .gone => w.base.dropped.map .inst ++ w.freed.map .collector

/-- The instance was retired, or the collector was allocated. -/
def Allocated (b : World) : Garbage → Prop
  | .inst i => i < b.nextInst
  | .collector c => c < b.nextCollector

/-- The slots are a forest, and they have everything that was allocated. -/
structure Owned (w : Process) (g : Ghost) : Prop where
  forest : Forest Slot.place (slots w g)
  listed : ∀ x, Listed (slots w g) x ↔ Allocated w.base x

/-- What a move of `t` leaves alone, outside of the slots `ps`. -/
structure Frame (w w' : Process) (g g' : Ghost) (t : Tid) (ps : List Slot) : Prop where
  chain : .chain ∈ ps ∨ g'.chain = g.chain
  freeing : .freeing ∈ ps ∨ g'.freeing = g.freeing
  held : .held t ∈ ps ∨ heldBy w' t = heldBy w t
  lists : ∀ c, .lists c ∈ ps ∨ (w'.base.collectors c).garbage = (w.base.collectors c).garbage
  drain : .drain t ∈ ps ∨ pendingGarbage (w'.base.pc t) = pendingGarbage (w.base.pc t)
  exit : .exit t ∈ ps ∨ exitGarbage (w'.stage t) = exitGarbage (w.stage t)
  gone : .gone ∈ ps ∨ w'.base.dropped = w.base.dropped ∧ w'.freed = w.freed

variable {ps : List Slot}

/-- The slots outside of `ps` stay. -/
theorem Frame.same (hf : Frame w w' g g' t ps) {a : Process.Act} (hm : Move w t a w') (q : Slot)
    (hq : q ∉ ps) : slots w' g' q = slots w g q := by
  have hother : ∀ t', t' ≠ t → w'.base.pc t' = w.base.pc t' ∧ w'.stage t' = w.stage t' :=
    fun t' ht => ⟨hm.pc_of_ne ht, hm.stage_of_ne ht⟩
  cases q with
  | chain => exact congrArg (List.map _) (hf.chain.resolve_left hq)
  | freeing => exact congrArg (List.map _) (hf.freeing.resolve_left hq)
  | held t' =>
    refine congrArg (List.map _) ?_
    by_cases ht : t' = t
    · exact ht ▸ hf.held.resolve_left (ht ▸ hq)
    · unfold heldBy
      rw [(hother t' ht).1, (hother t' ht).2]
  | lists c => exact (hf.lists c).resolve_left hq
  | drain t' =>
    by_cases ht : t' = t
    · exact ht ▸ hf.drain.resolve_left (ht ▸ hq)
    · exact congrArg pendingGarbage (hother t' ht).1
  | exit t' =>
    by_cases ht : t' = t
    · exact ht ▸ hf.exit.resolve_left (ht ▸ hq)
    · exact congrArg exitGarbage (hother t' ht).2
  | gone =>
    obtain ⟨hd, hfr⟩ := hf.gone.resolve_left hq
    show w'.base.dropped.map Garbage.inst ++ _ = _
    rw [hd, hfr]
    rfl

/-- A collector that a thread has is in the chain, or in the hands of the thread. -/
theorem root_of_local (h : Inv w g) (hl : w.base.localCollector t = some c) :
    ∃ r : Slot, r.place = .root ∧ .collector c ∈ slots w g r := by
  rcases h.chain.mem t c hl with hc | hc
  · exact ⟨.chain, rfl, List.mem_map_of_mem hc⟩
  · refine ⟨.held t, rfl, List.mem_map_of_mem ?_⟩
    unfold heldBy
    rw [hc]
    exact List.mem_append_right _ List.mem_cons_self

namespace Owned

/-- A collector that was not allocated has no garbage. -/
theorem garbage_eq_nil (ho : Owned w g) (hc : w.base.nextCollector ≤ c) :
    (w.base.collectors c).garbage = [] := by
  refine ho.forest.eq_nil (p := Slot.lists c) rfl fun q hq => ?_
  exact absurd ((ho.listed _).mp ⟨q, hq⟩) (Nat.not_lt.mpr hc)

/-- A move that changes no slot. -/
theorem keep (ho : Owned w g) {a : Process.Act} (hm : Move w t a w')
    (hf : Frame w w' g g' t []) (hn : w'.base.nextInst = w.base.nextInst)
    (hc : w'.base.nextCollector = w.base.nextCollector) : Owned w' g' := by
  have hsame : slots w' g' = slots w g := funext fun q => hf.same hm q List.not_mem_nil
  refine ⟨hsame ▸ ho.forest, fun x => ?_⟩
  rw [hsame, ho.listed]
  unfold Allocated
  rw [hn, hc]

/-- A move that rearranges the elements of some slots. -/
theorem rearrange (ho : Owned w g) (ps : List Slot) {a : Process.Act} (hm : Move w t a w')
    (hf : Frame w w' g g' t ps) (hps : ps.Nodup)
    (hperm : (ps.flatMap (slots w' g')).Perm (ps.flatMap (slots w g)))
    (hn : w'.base.nextInst = w.base.nextInst)
    (hc : w'.base.nextCollector = w.base.nextCollector)
    (hgone : slots w g .gone ⊆ slots w' g' .gone)
    (hempty : ∀ c, .collector c ∈ slots w' g' .gone → .collector c ∉ slots w g .gone →
      (w'.base.collectors c).garbage = [])
    (hinside : ∀ c, .lists c ∈ ps → (w'.base.collectors c).garbage = [] ∨
      ∃ r : Slot, r.place = .root ∧ .collector c ∈ slots w' g' r) : Owned w' g' := by
  -- The forest asks for three things: that what is gone stays gone, that a collector that is
  -- dropped now has nothing on its lists, and that a collector with something on its lists is
  -- itself owned.
  have hr : Rearranged ps (slots w g) (slots w' g') := ⟨hps, hperm, hf.same hm⟩
  have hgonePlace : ∀ q : Slot, q.place = .gone → q = .gone := by
    intro q hq
    cases q with
    | gone => rfl
    | chain | freeing | held | lists | drain | exit => cases hq
  have hlistsPlace : ∀ (q : Slot) y, q.place = .inside y → ∃ c, q = .lists c ∧ y = .collector c := by
    intro q y hq
    cases q with
    | lists c =>
      cases hq
      exact ⟨c, rfl, rfl⟩
    | gone | chain | freeing | held | drain | exit => cases hq
  refine ⟨ho.forest.rearrange hr (fun q hq => ?_) (fun p q y hp hq hy hy' => ?_)
    fun q hq y hy => ?_, fun x => ?_⟩
  · rw [hgonePlace q hq]
    exact hgone
  · obtain ⟨c, rfl, rfl⟩ := hlistsPlace p y hp
    rw [hgonePlace q hq] at hy hy'
    exact hempty c hy hy'
  · obtain ⟨c, rfl, rfl⟩ := hlistsPlace q y hy
    exact hinside c hq
  · rw [hr.listed, ho.listed]
    unfold Allocated
    rw [hn, hc]

/-- A move that puts a new element on a slot. -/
theorem add (ho : Owned w g) {a : Process.Act} (hm : Move w t a w') {p : Slot} {x : Garbage}
    (hf : Frame w w' g g' t [p]) (hperm : (slots w' g' p).Perm (x :: slots w g p))
    (hx : ¬Allocated w.base x) (hall : ∀ y, Allocated w'.base y ↔ Allocated w.base y ∨ y = x)
    (hp : p.place = .root ∨ ∃ c, p = .lists c ∧
      ∃ r : Slot, r.place = .root ∧ .collector c ∈ slots w g r) : Owned w' g' := by
  have ha : Added p x (slots w g) (slots w' g') :=
    ⟨hperm, fun q hq => hf.same hm q fun h => hq (List.mem_singleton.mp h)⟩
  -- The new element is not on a slot yet, since it was not allocated.
  refine ⟨ho.forest.add ha (fun hl => hx ((ho.listed x).mp hl)) ?_, fun y => ?_⟩
  · refine hp.imp_right ?_
    rintro ⟨c, rfl, r, hr, hc⟩
    exact ⟨.collector c, r, rfl, hr, hc⟩
  · rw [ha.listed, ho.listed, hall]

end Owned

/-! ## Steps of the collector -/

/-- A write to one collector that keeps its lists. -/
theorem garbage_update (f : CollectorId → Collector) (c : CollectorId) (k : Collector)
    (h : k.garbage = (f c).garbage) (d : CollectorId) :
    (Function.update f c k d).garbage = (f d).garbage := by
  by_cases hd : d = c
  · rw [hd, Function.update_self, h]
  · rw [Function.update_of_ne hd]

/-- A thread that is not at a collector drops none. -/
theorem dropped_eq_nil (h : ∀ c d rest, b.pc t ≠ .drain c (.collector d :: rest)) :
    Process.dropped b t act = [] := by
  unfold Process.dropped
  split
  · split
    · rename_i c d rest hpc
      exact absurd hpc (h c d rest)
    · rfl
  · rfl

/-- What a step of the collector leaves alone. -/
theorem Frame.of_base (hchain : .chain ∈ ps ∨ g'.chain = g.chain)
    (hfreeing : g'.freeing = g.freeing)
    (hheld : .held t ∈ ps ∨ preparing (b'.pc t) = preparing (w.base.pc t))
    (hlists : ∀ c, .lists c ∈ ps ∨ (b'.collectors c).garbage = (w.base.collectors c).garbage)
    (hdrain : .drain t ∈ ps ∨ pendingGarbage (b'.pc t) = pendingGarbage (w.base.pc t))
    (hgone : .gone ∈ ps ∨ b'.dropped = w.base.dropped ∧ Process.dropped w.base t act = []) :
    Frame w (afterBase w t act b') g g' t ps where
  chain := hchain
  freeing := .inr hfreeing
  held := hheld.imp_right fun h => by
    unfold heldBy
    rw [afterBase_temp, show (afterBase w t act b').base = b' from rfl, h]
  lists := hlists
  drain := hdrain
  exit := .inr (afterBase_stage exitGarbage (fun s a => by cases s <;> cases a <;> rfl) t)
  gone := hgone.imp_right fun ⟨hd, hnil⟩ => ⟨hd, by
    show Process.dropped w.base t act ++ w.freed = w.freed
    rw [hnil]
    rfl⟩

section steps
variable {a : Process.Act} {rest : List Garbage}

/-- The collectors in the hands of a thread after its step. -/
theorem slots_held : slots (afterBase w t act b') g' (.held t) =
    (preparing (b'.pc t)).map .collector ++ (w.stage t).temp.toList.map .collector := by
  show List.map _ (preparing (b'.pc t) ++ _) = _
  rw [afterBase_temp, List.map_append]

/-- A step that drops nothing. -/
theorem slots_gone (hd : b'.dropped = w.base.dropped)
    (hno : ∀ c d rest, w.base.pc t ≠ .drain c (.collector d :: rest)) :
    slots (afterBase w t act b') g' .gone = slots w g .gone := by
  show b'.dropped.map Garbage.inst ++ (Process.dropped w.base t act ++ w.freed).map .collector = _
  rw [hd, dropped_eq_nil hno]
  rfl

/-- A step that drops nothing and rearranges the elements of two slots. -/
theorem Owned.exchange (ho : Owned w g) (hm : Move w t a (afterBase w t act b')) {p q : Slot}
    (hf : Frame w (afterBase w t act b') g g' t [p, q]) (hpq : p ≠ q)
    (hperm : (slots (afterBase w t act b') g' p ++ slots (afterBase w t act b') g' q).Perm
      (slots w g p ++ slots w g q))
    (hn : b'.nextInst = w.base.nextInst) (hc : b'.nextCollector = w.base.nextCollector)
    (hgone : slots (afterBase w t act b') g' .gone = slots w g .gone)
    (hinside : ∀ c, .lists c ∈ [p, q] → ∃ r : Slot, r.place = .root ∧
      .collector c ∈ slots (afterBase w t act b') g' r) : Owned (afterBase w t act b') g' := by
  refine ho.rearrange [p, q] hm hf (by simpa using hpq) (by simpa using hperm) hn hc
    (hgone ▸ fun _ h => h) (fun c hc hc' => absurd (hgone ▸ hc) hc') fun c hc => .inr (hinside c hc)

namespace Owned

/-- A thread begins to prepare a collector. -/
theorem allocBegin (ho : Owned w g) (hm : Move w t a (afterBase w t act b')) (hg : g' = g)
    (hpc : w.base.pc t = .idle)
    (hb : b' = { w.base with
      collectors := Function.update w.base.collectors w.base.nextCollector .new
      nextCollector := w.base.nextCollector + 1 }.goto t
        (.alloc w.base.nextCollector w.base.chainHead)) : Owned (afterBase w t act b') g' := by
  subst hg hb
  -- The collector that is allocated has nothing on its lists, as it had nothing before.
  have hnil : Collector.new.garbage = (w.base.collectors w.base.nextCollector).garbage :=
    (ho.garbage_eq_nil (Nat.le_refl _)).symm
  refine ho.add hm (p := .held t) (x := .collector w.base.nextCollector)
    (.of_base (.inr rfl) rfl (.inl List.mem_cons_self)
      (fun d => .inr (garbage_update _ _ _ hnil d)) (.inr ?_)
      (.inr ⟨rfl, dropped_eq_nil (by rw [hpc]; nofun)⟩)) ?_ (Nat.lt_irrefl _) (fun y => ?_) (.inl rfl)
  · rw [World.goto_pc, Function.update_self, hpc]
    rfl
  · rw [slots_held, World.goto_pc, Function.update_self]
    show List.Perm _ (_ :: (preparing (w.base.pc t) ++ _).map _)
    rw [hpc]
    exact .refl _
  · cases y with
    | inst i => exact (or_iff_left nofun).symm
    | collector c =>
      rw [Garbage.collector.injEq]
      exact Nat.lt_succ_iff_lt_or_eq

/-- A collector that was prepared is linked. -/
theorem allocDone (ho : Owned w g) (hm : Move w t a (afterBase w t act b'))
    (hg : g' = ⟨c :: g.chain, g.freeing⟩) {p : Ptr CollectorId} (hpc : w.base.pc t = .alloc c p)
    (hb : b' = { w.base.modify c fun k => { k with nextLink := p.addr } with
      chainHead := ⟨some c, p.tag⟩
      localCollector := Function.update w.base.localCollector t (some c) }.goto t .idle) :
    Owned (afterBase w t act b') g' := by
  subst hg hb
  have hno : ∀ c d rest, w.base.pc t ≠ .drain c (.collector d :: rest) := by
    rw [hpc]
    exact nofun
  -- The collector goes from the hands of the thread to the front of the chain.
  refine ho.exchange hm (p := .held t) (q := .chain)
    (.of_base (.inl (by simp)) rfl (.inl (by simp)) (fun d => .inr (garbage_update _ c _ (by rfl) d))
      (.inr ?_) (.inr ⟨rfl, dropped_eq_nil hno⟩)) nofun ?_ rfl rfl (slots_gone rfl hno) (by simp)
  · rw [World.goto_pc, Function.update_self, hpc]
    rfl
  · rw [slots_held, World.goto_pc, Function.update_self]
    show List.Perm _ ((preparing (w.base.pc t) ++ _).map _ ++ _)
    rw [hpc, List.map_append, List.append_assoc]
    exact List.perm_middle

/-- The lists of a collector move on, and what was on the next one is to be dropped. -/
theorem rotate (ho : Owned w g) (hm : Move w t a (afterBase w t act b'))
    (h' : Inv (afterBase w t act b') g') (hg : g' = g) {e : Epoch}
    (hpc : w.base.pc t = .newGuard c e) (hl : w.base.localCollector t = some c)
    (hb : b' = (w.base.modify c fun k =>
      { k with state := ⟨e, false, false⟩, announcement := e }.rotate).goto t
        (.drain c (w.base.collectors c).nextInstanceLink)) : Owned (afterBase w t act b') g' := by
  subst hg hb
  have hno : ∀ c d rest, w.base.pc t ≠ .drain c (.collector d :: rest) := by
    rw [hpc]
    exact nofun
  -- The lists of the collector change places, and the oldest one goes to the thread.
  refine ho.exchange hm (p := .lists c) (q := .drain t)
    (.of_base (.inr rfl) rfl (.inr ?_) (fun d => ?_) (.inl (by simp))
      (.inr ⟨rfl, dropped_eq_nil hno⟩)) nofun ?_ rfl rfl (slots_gone rfl hno) fun d hd => ?_
  · rw [World.goto_pc, Function.update_self, hpc]
    rfl
  · by_cases hd : d = c
    · exact .inl (by rw [hd]; exact List.mem_cons_self)
    · refine .inr ?_
      rw [World.goto_collectors, World.modify_collectors, Function.update_of_ne hd]
  · show List.Perm ((Function.update w.base.collectors c _ c).garbage ++
      pendingGarbage (Function.update w.base.pc t _ t))
      ((w.base.collectors c).garbage ++ pendingGarbage (w.base.pc t))
    rw [Function.update_self, Function.update_self, hpc]
    refine List.perm_iff_count.mpr fun x => ?_
    simp only [Collector.garbage, Collector.rotate, pendingGarbage, List.count_append, List.count_nil]
    omega
  · obtain rfl : d = c := by simpa using hd
    exact root_of_local h' hl

/-- An instance is dropped. -/
theorem drainInst (ho : Owned w g) (hm : Move w t a (afterBase w t act b')) (hg : g' = g)
    {i : InstId} (hpc : w.base.pc t = .drain c (.inst i :: rest))
    (hb : b' = { w.base with dropped := i :: w.base.dropped }.goto t (.destructor c rest)) :
    Owned (afterBase w t act b') g' := by
  subst hg hb
  have hno : ∀ c d rest, w.base.pc t ≠ .drain c (.collector d :: rest) := by
    rw [hpc]
    exact nofun
  have hgone : slots (afterBase w t act ({ w.base with dropped := i :: w.base.dropped }.goto t
      (.destructor c rest))) g' .gone = .inst i :: slots w g' .gone := by
    show (i :: w.base.dropped).map Garbage.inst ++
      (Process.dropped w.base t act ++ w.freed).map .collector = _
    rw [dropped_eq_nil hno]
    rfl
  -- The instance goes from the list in the hands of the thread to what is gone.
  refine ho.rearrange [.drain t, .gone] hm
    (.of_base (.inr rfl) rfl (.inr ?_) (fun d => .inr rfl) (.inl (by simp)) (.inl (by simp)))
      (by simp) ?_ rfl rfl ?_ (fun d hd hd' => ?_) (by simp)
  · rw [World.goto_pc, Function.update_self, hpc]
    rfl
  · simp only [List.flatMap_cons, List.flatMap_nil, List.append_nil]
    rw [hgone]
    show List.Perm (pendingGarbage (Function.update w.base.pc t _ t) ++ _)
      (pendingGarbage (w.base.pc t) ++ _)
    rw [Function.update_self, hpc]
    exact List.perm_middle
  · rw [hgone]
    exact List.subset_cons_self _ _
  · rw [hgone] at hd
    rcases List.mem_cons.mp hd with hd | hd
    · cases hd
    · exact absurd hd hd'

/-- A collector is dropped: what is on its lists is to be dropped first. -/
theorem drainCollector (ho : Owned w g) (hm : Move w t a (afterBase w t .proceed b'))
    (hg : g' = g) (hpc : w.base.pc t = .drain c (.collector d :: rest))
    (hb : b' = (w.base.modify d .cleared).goto t
      (.drain c ((w.base.collectors d).garbage ++ rest))) :
    Owned (afterBase w t .proceed b') g' := by
  subst hg hb
  have hgone : (slots (afterBase w t .proceed ((w.base.modify d .cleared).goto t
      (.drain c ((w.base.collectors d).garbage ++ rest)))) g' .gone).Perm
        (.collector d :: slots w g' .gone) := by
    show List.Perm (_ ++ (Process.dropped w.base t .proceed ++ w.freed).map Garbage.collector) _
    unfold Process.dropped
    rw [hpc]
    exact List.perm_middle
  have hself : (Function.update w.base.collectors d (w.base.collectors d).cleared d).garbage = [] := by
    rw [Function.update_self]
    rfl
  -- The collector goes to what is gone, and its three lists to the thread.
  refine ho.rearrange [.drain t, .lists d, .gone] hm
    (.of_base (.inr rfl) rfl (.inr ?_) (fun e => ?_) (.inl (by simp)) (.inl (by simp)))
      (by simp) ?_ rfl rfl (fun x hx => ?_) (fun e he he' => ?_) fun e he => .inl ?_
  · rw [World.goto_pc, Function.update_self, hpc]
    rfl
  · by_cases he : e = d
    · exact .inl (by simp [he])
    · refine .inr ?_
      rw [World.goto_collectors, World.modify_collectors, Function.update_of_ne he]
  · simp only [List.flatMap_cons, List.flatMap_nil, List.append_nil]
    show List.Perm (pendingGarbage (Function.update w.base.pc t _ t) ++ ((Function.update
      w.base.collectors d (w.base.collectors d).cleared d).garbage ++ _))
      (pendingGarbage (w.base.pc t) ++ ((w.base.collectors d).garbage ++ _))
    rw [Function.update_self, hself, hpc, List.nil_append]
    -- The two sides have the same elements: count them.
    refine (List.Perm.append_left _ hgone).trans (List.perm_iff_count.mpr fun x => ?_)
    simp only [pendingGarbage, List.count_append, List.count_cons]
    omega
  · exact hgone.mem_iff.mpr (List.mem_cons_of_mem _ hx)
  · rcases List.mem_cons.mp (hgone.mem_iff.mp he) with he | he
    · cases he
      exact hself
    · exact absurd he he'
  · obtain rfl : e = d := by simpa using he
    exact hself

/-- `scan` takes an obsolete collector out of the chain, and has it on its own list. -/
theorem unlink (ho : Owned w g) (hm : Move w t a (afterBase w t act b'))
    (h' : Inv (afterBase w t act b') g') {front after : List CollectorId}
    (hchain : g.chain = front ++ d :: after) (hchain' : g'.chain = front ++ after)
    (hfreeing : g'.freeing = g.freeing) {known : StateByte} {prev next : Option CollectorId}
    (hpc : w.base.pc t = .unlink c known prev d next) {pc : Pc} (hprep : preparing pc = [])
    (hpend : pendingGarbage pc = []) (hl : b'.localCollector t = some c)
    (hb : b' = (b.modify c (·.collect (.collector d))).goto t pc)
    (hlists : ∀ e, (b.collectors e).garbage = (w.base.collectors e).garbage)
    (hd : b.dropped = w.base.dropped) (hn : b.nextInst = w.base.nextInst)
    (hc : b.nextCollector = w.base.nextCollector) : Owned (afterBase w t act b') g' := by
  subst hb
  have hno : ∀ c d rest, w.base.pc t ≠ .drain c (.collector d :: rest) := by
    rw [hpc]
    exact nofun
  -- The obsolete collector goes from the chain to the lists of the thread that scans.
  refine ho.exchange hm (p := .chain) (q := .lists c)
    (.of_base (.inl (by simp)) hfreeing (.inr ?_) (fun e => ?_) (.inr ?_)
      (.inr ⟨hd, dropped_eq_nil hno⟩)) nofun ?_ hn hc (slots_gone hd hno) fun e he => ?_
  · rw [World.goto_pc, Function.update_self, hpc, hprep]
    rfl
  · by_cases he : e = c
    · exact .inl (by simp [he])
    · refine .inr ?_
      rw [World.goto_collectors, World.modify_collectors, Function.update_of_ne he, hlists]
  · rw [World.goto_pc, Function.update_self, hpc, hpend]
    rfl
  · show List.Perm (g'.chain.map .collector ++ (Function.update b.collectors c _ c).garbage)
      (g.chain.map .collector ++ (w.base.collectors c).garbage)
    rw [Function.update_self, hchain, hchain', ← hlists]
    refine List.perm_iff_count.mpr fun x => ?_
    simp only [Collector.garbage, Collector.collect, List.map_append, List.map_cons,
      List.count_append, List.count_cons]
    omega
  · obtain rfl : e = c := by simpa using he
    exact root_of_local h' hl

/-- An instance is retired. -/
theorem collect (ho : Owned w g) (hm : Move w t a (afterBase w t act b')) (h : Inv w g)
    (hg : g' = g) (hu : w.base.user t = some c)
    (hb : b' = { w.base.modify c (·.collect (.inst w.base.nextInst)) with
      nextInst := w.base.nextInst + 1 }) : Owned (afterBase w t act b') g' := by
  subst hg hb
  have hno : ∀ c d rest, w.base.pc t ≠ .drain c (.collector d :: rest) := by
    rcases Owning.user_cases hu with ⟨hpc, -⟩ | ⟨rest, hpc⟩ <;> rw [hpc] <;> simp
  -- The instance is new, and the lists of the own collector get it.
  refine ho.add hm (p := .lists c) (x := .inst w.base.nextInst)
    (.of_base (.inr rfl) rfl (.inr rfl) (fun e => ?_) (.inr rfl) (.inr ⟨rfl, dropped_eq_nil hno⟩))
    ?_ (Nat.lt_irrefl _) (fun y => ?_) (.inr ⟨c, rfl, root_of_local h (h.owning.local_of_user hu)⟩)
  · by_cases he : e = c
    · exact .inl (by simp [he])
    · refine .inr ?_
      show (Function.update w.base.collectors c _ e).garbage = _
      rw [Function.update_of_ne he]
  · show List.Perm (Function.update w.base.collectors c _ c).garbage
      (_ :: (w.base.collectors c).garbage)
    rw [Function.update_self]
    refine List.perm_iff_count.mpr fun x => ?_
    simp only [Collector.garbage, Collector.collect, List.count_append, List.count_cons]
    omega
  · cases y with
    | inst i =>
      rw [Garbage.inst.injEq]
      exact Nat.lt_succ_iff_lt_or_eq
    | collector e => exact (or_iff_left (by simp)).symm

end Owned

end steps

/-- A step of the collector keeps the ownership. -/
theorem Owned.base (ho : Owned w g) {a : Process.Act} (hm : Move w t a (afterBase w t act b'))
    (h : Inv w g) (h' : Inv (afterBase w t act b') g') (hg : GhostStep w t g g')
    (hu : (w.stage t).user = true) (hs : w.base.step ⟨t, act⟩ = some b') :
    Owned (afterBase w t act b') g' := by
  have hself : ∀ (x : World) (pc : Pc), (x.goto t pc).pc t = pc := fun x pc =>
    Function.update_self _ _ _
  -- A step that leaves all slots alone.
  have hquiet : ∀ {pc pc'}, w.base.pc t = pc → b'.pc t = pc' → preparing pc' = preparing pc →
      pendingGarbage pc' = pendingGarbage pc → (∀ c d rest, pc ≠ .drain c (.collector d :: rest)) →
        relinking w.base t = false →
          (∀ d, (b'.collectors d).garbage = (w.base.collectors d).garbage) →
            b'.dropped = w.base.dropped → b'.nextInst = w.base.nextInst →
              b'.nextCollector = w.base.nextCollector → Owned (afterBase w t act b') g' := by
    intro pc pc' hpc hpc' hprep hpend hno hr hlists hd hn hc
    obtain rfl := hg.eq_of_user hu hr
    subst hpc hpc'
    exact ho.keep hm (.of_base (.inr rfl) rfl (.inr hprep) (fun d => .inr (hlists d)) (.inr hpend)
      (.inr ⟨hd, dropped_eq_nil hno⟩)) hn hc
  -- A thread that runs user code stays where it is, or begins a call.
  have huser : ∀ {c pc'}, w.base.user t = some c → b'.pc t = pc' →
      (pc' = w.base.pc t ∨ preparing pc' = [] ∧ pendingGarbage pc' = [] ∧ w.base.pc t = .idle) →
        (∀ d, (b'.collectors d).garbage = (w.base.collectors d).garbage) →
          b'.dropped = w.base.dropped → b'.nextInst = w.base.nextInst →
            b'.nextCollector = w.base.nextCollector → Owned (afterBase w t act b') g' := by
    intro c pc' hus hpc' hcases hlists hd hn hc
    have hpc : ∀ pc, w.base.pc t = pc → (∀ c d rest, pc ≠ .drain c (.collector d :: rest)) →
        relinking w.base t = false → Owned (afterBase w t act b') g' := by
      intro pc hpc hno hr
      rcases hcases with rfl | ⟨hprep, hpend, hi⟩
      · exact hquiet hpc (hpc'.trans hpc) rfl rfl hno hr hlists hd hn hc
      · exact hquiet hi hpc' hprep hpend nofun hr hlists hd hn hc
    rcases Owning.user_cases hus with ⟨hi, -⟩ | ⟨rest, hi⟩
    · exact hpc _ hi nofun (by unfold relinking; rw [hi])
    · exact hpc _ hi nofun (by unfold relinking; rw [hi])
  -- Seven actions move something: the two ends of `alloc`, the rotation, the two drops, the unlink,
  -- and `collect`. All others are quiet.
  cases Proofs.move_of_step hs with
  | allocRetry c p hpc hp =>
    exact hquiet hpc (hself _ _) rfl rfl nofun (by unfold relinking; rw [hpc]; simpa using hp)
      (garbage_update _ c _ rfl) rfl rfl rfl
  | load c hu' hn =>
    exact huser hu' (hself _ _) (.inr ⟨rfl, rfl, (h.owning.user_quiet hu' hn).1⟩)
      (garbage_update _ c _ rfl) rfl rfl rfl
  | user c f hu' hn hf hk =>
    exact huser hu' rfl (.inl rfl) (garbage_update _ c _ (by rw [hk]; rfl)) rfl rfl rfl
  | suspendNone ha c hu' => exact huser hu' rfl (.inl rfl) (fun _ => rfl) rfl rfl rfl
  | suspend c hu' hn =>
    exact huser hu' (hself _ _) (.inr ⟨rfl, rfl, (h.owning.user_quiet hu' hn).1⟩)
      (garbage_update _ c _ rfl) rfl rfl rfl
  | publishSame c e hpc ha | publishQuiet c e hpc ha hgb | drainDone c hpc | endScan c hpc
    | endQuiet c u hpc | lockFail c hpc | unlock c hpc | setInactive c hpc =>
    exact hquiet hpc (hself _ _) rfl rfl nofun (by unfold relinking; rw [hpc])
      (garbage_update _ c _ rfl) rfl rfl rfl
  | destructor c rest hpc | lock c hpc | knownEpoch c current hpc | store c known prev hpc
    | scanOwn c known prev hpc | scanLoad c known prev d hpc | nextInvalid c known prev d state hpc
    | nextBreak c known prev d state hpc | nextPass c known prev d state hpc
    | markScanEnforced tag hpc =>
    exact hquiet hpc (hself _ _) rfl rfl nofun (by unfold relinking; rw [hpc]) (fun _ => rfl) rfl
      rfl rfl
  | unlinkFail c known d next hpc hd =>
    exact hquiet hpc (hself _ _) rfl rfl nofun (by unfold relinking; rw [hpc]; simpa using hd)
      (fun _ => rfl) rfl rfl rfl
  | allocBegin hpc hl =>
    exact ho.allocBegin hm (hg.eq_of_user hu (by unfold relinking; rw [hpc])) hpc rfl
  | allocDone c p hpc hp =>
    have hl : Linking w t c := by
      unfold Linking
      rw [hpc, hp]
    refine ho.allocDone hm (hg.of_linking h h' hl (Function.update_self _ _ _) ?_) hpc rfl
    -- A thread with a temporary collector does not allocate one.
    rw [afterBase_temp]
    by_contra htemp
    exact h.temps.noAlloc t htemp c p hpc
  | publishRotate c e hpc ha hgb =>
    exact ho.rotate hm h' (hg.eq_of_user hu (by unfold relinking; rw [hpc])) hpc
      (h.owning.local_of_own (by rw [hpc]; rfl)) rfl
  | drainInst c i rest hpc =>
    exact ho.drainInst hm (hg.eq_of_user hu (by unfold relinking; rw [hpc])) hpc rfl
  | drainCollector c d rest hpc =>
    obtain ⟨rfl, -⟩ := proceed_of_step hs (by rw [hpc]; nofun) (by rw [hpc]; nofun)
    exact ho.drainCollector hm (hg.eq_of_user hu (by unfold relinking; rw [hpc])) hpc rfl
  | unlinkHead c known d next hpc hd =>
    obtain ⟨front, after, hchain, hchain', hfreeing⟩ :=
      hg.of_cutting h h' hm ⟨c, known, none, next, hpc, fun _ => hd⟩
    exact ho.unlink (b := { w.base with chainHead := ⟨next, w.base.chainHead.tag⟩ }) hm h' hchain
      hchain' hfreeing hpc rfl rfl (h.owning.local_of_own (by rw [hpc]; rfl)) rfl
      (fun _ => rfl) rfl rfl rfl
  | unlinkMid c known p d next hpc =>
    obtain ⟨front, after, hchain, hchain', hfreeing⟩ :=
      hg.of_cutting h h' hm ⟨c, known, some p, next, hpc, nofun⟩
    exact ho.unlink (b := w.base.modify p fun k => { k with nextLink := next }) hm h' hchain
      hchain' hfreeing hpc rfl rfl (h.owning.local_of_own (by rw [hpc]; rfl)) rfl
      (garbage_update _ p _ (by rfl)) rfl rfl rfl
  | collect c hu' =>
    refine ho.collect hm h (hg.eq_of_user hu ?_) hu' rfl
    unfold relinking
    rcases Owning.user_cases hu' with ⟨hpc, -⟩ | ⟨rest, hpc⟩ <;> rw [hpc]

/-! ## Steps of the exit path -/

/-- What a step of the exit path leaves alone. -/
theorem Frame.of_exit {s : Stage} {freed : List CollectorId} (hpcs : b'.pc = w.base.pc)
    (hchain : .chain ∈ ps ∨ g'.chain = g.chain) (hfreeing : .freeing ∈ ps ∨ g'.freeing = g.freeing)
    (hheld : .held t ∈ ps ∨ s.temp = (w.stage t).temp)
    (hlists : ∀ c, .lists c ∈ ps ∨ (b'.collectors c).garbage = (w.base.collectors c).garbage)
    (hexit : .exit t ∈ ps ∨ exitGarbage s = exitGarbage (w.stage t))
    (hgone : .gone ∈ ps ∨ b'.dropped = w.base.dropped ∧ freed = w.freed) :
    Frame w (afterExit w t b' s freed) g g' t ps where
  chain := hchain
  freeing := hfreeing
  held := hheld.imp_right fun h => by
    unfold heldBy
    rw [afterExit_self, h, show (afterExit w t b' s freed).base = b' from rfl, hpcs]
  lists := hlists
  drain := .inr (by rw [show (afterExit w t b' s freed).base = b' from rfl, hpcs])
  exit := hexit.imp_right fun h => by rw [afterExit_self, h]
  gone := hgone

section loop
variable {running destructor : List Garbage → Stage} {finished : Stage}

theorem Loop.exitGarbage_running (hl : Loop running destructor finished) (l : List Garbage) :
    exitGarbage (running l) = l := by
  cases hl <;> rfl

theorem Loop.exitGarbage_destructor (hl : Loop running destructor finished) (l : List Garbage) :
    exitGarbage (destructor l) = l := by
  cases hl <;> rfl

theorem Loop.exitGarbage_finished (hl : Loop running destructor finished) :
    exitGarbage finished = [] := by
  cases hl <;> rfl

/-- A loop is neither at the walk nor before a collector of the chain. -/
theorem Loop.not_free (hl : Loop running destructor finished) (l : List Garbage) :
    (∀ temp head, running l ≠ .walk temp head none ∧ destructor l ≠ .walk temp head none) ∧
      ∀ temp d, running l ≠ .free temp (some d) ∧ destructor l ≠ .free temp (some d) := by
  cases hl <;> exact ⟨fun _ _ => ⟨nofun, nofun⟩, fun _ _ => ⟨nofun, nofun⟩⟩

end loop

namespace Owned

variable {a : Process.Act}

/-- A thread begins to exit: it has a temporary collector in its hands. -/
theorem exit (ho : Owned w g) (hm : Move w t a (w.exit t)) (hg : g' = g)
    (hs : w.stage t = .live) (hpc : w.base.pc t = .idle) : Owned (w.exit t) g' := by
  subst hg
  -- The own collector becomes obsolete and keeps its lists; the temporary one begins with none.
  have hlists : ∀ d, ((w.exit t).base.collectors d).garbage = (w.base.collectors d).garbage := by
    intro d
    rw [exit_collectors]
    by_cases hd : d = w.base.nextCollector
    · rw [if_pos hd, hd, ho.garbage_eq_nil (Nat.le_refl _)]
      rfl
    · rw [if_neg hd]
      split <;> rfl
  have hrest : (w.exit t).base.dropped = w.base.dropped ∧
      (w.exit t).base.nextInst = w.base.nextInst ∧ (w.exit t).freed = w.freed := by
    unfold Process.exit
    cases w.base.localCollector t <;> exact ⟨rfl, rfl, rfl⟩
  have hheld : heldBy (w.exit t) t = [w.base.nextCollector] ∧ heldBy w t = [] := by
    unfold heldBy
    rw [exit_pc, exit_stage, Function.update_self, hpc, hs]
    exact ⟨rfl, rfl⟩
  refine ho.add hm (p := .held t) (x := .collector w.base.nextCollector) ?_ ?_ (Nat.lt_irrefl _)
    (fun y => ?_) (.inl rfl)
  · refine ⟨.inr rfl, .inr rfl, .inl List.mem_cons_self, fun d => .inr (hlists d), .inr ?_, .inr ?_,
      .inr ⟨hrest.1, hrest.2.2⟩⟩
    · rw [exit_pc]
    · rw [exit_stage, Function.update_self, hs]
      rfl
  · show List.Perm ((heldBy (w.exit t) t).map _) (_ :: (heldBy w t).map _)
    rw [hheld.1, hheld.2]
    exact .refl _
  · cases y with
    | inst i =>
      unfold Allocated
      rw [hrest.2.1]
      exact (or_iff_left nofun).symm
    | collector c =>
      unfold Allocated
      rw [exit_nextCollector, Garbage.collector.injEq]
      exact Nat.lt_succ_iff_lt_or_eq

/-- `clear_chain` takes the chain. -/
theorem take (ho : Owned w g) {s : Stage} (hm : Move w t a (afterExit w t b' s w.freed))
    (hb : b' = { w.base with chainHead := ⟨none, w.base.chainHead.tag⟩ })
    (hnil : g.freeing = []) (hchain : g'.chain = []) (hfreeing : g'.freeing = g.chain)
    (htemp : s.temp = (w.stage t).temp) (hexit : exitGarbage s = exitGarbage (w.stage t)) :
    Owned (afterExit w t b' s w.freed) g' := by
  subst hb
  -- The whole chain goes from one slot to the other.
  refine ho.rearrange [.chain, .freeing] hm (.of_exit rfl (.inl (by simp)) (.inl (by simp))
    (.inr htemp) (fun _ => .inr rfl) (.inr hexit) (.inr ⟨rfl, rfl⟩)) (by simp) ?_ rfl rfl
    (fun _ hx => hx) (fun c hc hc' => absurd hc hc') (by simp)
  show List.Perm (g'.chain.map Garbage.collector ++ (g'.freeing.map Garbage.collector ++ []))
    (g.chain.map Garbage.collector ++ (g.freeing.map Garbage.collector ++ []))
  rw [hchain, hfreeing, hnil, List.append_nil, List.map_nil, List.append_nil, List.append_nil]
  exact .refl _

/-- A collector is dropped in the exit path: it leaves the list that it is on, and what is on
its own lists is to be dropped. -/
theorem drop (ho : Owned w g) {s : Stage}
    (hm : Move w t a (afterExit w t (w.base.modify d .cleared) s (d :: w.freed)))
    (hchain : g'.chain = g.chain) (htemp : s.temp = (w.stage t).temp)
    (hperm : (.collector d :: (g'.freeing.map Garbage.collector ++ exitGarbage s)).Perm
      (g.freeing.map Garbage.collector ++
        (exitGarbage (w.stage t) ++ (w.base.collectors d).garbage))) :
    Owned (afterExit w t (w.base.modify d .cleared) s (d :: w.freed)) g' := by
  have hself : (Function.update w.base.collectors d (w.base.collectors d).cleared d).garbage = [] := by
    rw [Function.update_self]
    rfl
  have hgone : (slots (afterExit w t (w.base.modify d .cleared) s (d :: w.freed)) g' .gone).Perm
      (.collector d :: slots w g .gone) := List.perm_middle
  -- The collector leaves what `clear_chain` frees, or the list that a loop drops, and its own lists
  -- join the rest of that list.
  refine ho.rearrange [.freeing, .exit t, .lists d, .gone] hm
    (.of_exit rfl (.inr hchain) (.inl (by simp)) (.inr htemp) (fun e => ?_) (.inl (by simp))
      (.inl (by simp))) (by simp) ?_ rfl rfl (fun x hx => ?_) (fun e he he' => ?_) fun e he => .inl ?_
  · by_cases he : e = d
    · exact .inl (by simp [he])
    · refine .inr ?_
      rw [World.modify_collectors, Function.update_of_ne he]
  · simp only [List.flatMap_cons, List.flatMap_nil, List.append_nil]
    show List.Perm (g'.freeing.map Garbage.collector ++ (exitGarbage (Function.update w.stage t s t) ++
      ((Function.update w.base.collectors d (w.base.collectors d).cleared d).garbage ++ _)))
      (g.freeing.map Garbage.collector ++ (exitGarbage (w.stage t) ++
        ((w.base.collectors d).garbage ++ _)))
    rw [Function.update_self, hself, List.nil_append]
    -- The two sides have the same elements: count them.
    refine List.perm_iff_count.mpr fun x => ?_
    have h₁ := hperm.count_eq x
    have h₂ := hgone.count_eq x
    simp only [List.count_append, List.count_cons] at h₁ h₂ ⊢
    omega
  · exact hgone.mem_iff.mpr (List.mem_cons_of_mem _ hx)
  · rcases List.mem_cons.mp (hgone.mem_iff.mp he) with he | he
    · cases he
      exact hself
    · exact absurd he he'
  · obtain rfl : e = d := by simpa using he
    exact hself

/-- An instance is dropped in the exit path. -/
theorem dropInst (ho : Owned w g) {s : Stage} {i : InstId} {rest : List Garbage}
    (hm : Move w t a (afterExit w t b' s w.freed)) (hg : g' = g)
    (hb : b' = { w.base with dropped := i :: w.base.dropped }) (htemp : s.temp = (w.stage t).temp)
    (hexit : exitGarbage (w.stage t) = .inst i :: rest) (hexit' : exitGarbage s = rest) :
    Owned (afterExit w t b' s w.freed) g' := by
  subst hg hb
  have hgone : slots (afterExit w t { w.base with dropped := i :: w.base.dropped } s w.freed) g'
      .gone = .inst i :: slots w g' .gone := rfl
  -- The instance goes from the list of the loop to what is gone.
  refine ho.rearrange [.exit t, .gone] hm
    (.of_exit rfl (.inr rfl) (.inr rfl) (.inr htemp) (fun _ => .inr rfl) (.inl (by simp))
      (.inl (by simp))) (by simp) ?_ rfl rfl ?_ (fun c hc hc' => ?_) (by simp)
  · simp only [List.flatMap_cons, List.flatMap_nil, List.append_nil]
    rw [hgone]
    show List.Perm (exitGarbage (Function.update w.stage t s t) ++ _) (exitGarbage (w.stage t) ++ _)
    rw [Function.update_self, hexit, hexit']
    exact List.perm_middle
  · rw [hgone]
    exact List.subset_cons_self _ _
  · rw [hgone] at hc
    rcases List.mem_cons.mp hc with hc | hc
    · cases hc
    · exact absurd hc hc'

/-- `clear_for_drop` takes the lists of the temporary collector. -/
theorem clear (ho : Owned w g) {temp : CollectorId} {s : Stage}
    (hm : Move w t a (afterExit w t (w.base.modify temp .cleared) s w.freed)) (hg : g' = g)
    (htemp : s.temp = (w.stage t).temp) (hexit : exitGarbage (w.stage t) = [])
    (hexit' : exitGarbage s = (w.base.collectors temp).garbage) :
    Owned (afterExit w t (w.base.modify temp .cleared) s w.freed) g' := by
  subst hg
  have hself : (Function.update w.base.collectors temp (w.base.collectors temp).cleared
      temp).garbage = [] := by
    rw [Function.update_self]
    rfl
  -- The lists of the temporary collector become the list of the loop.
  refine ho.rearrange [.lists temp, .exit t] hm
    (.of_exit rfl (.inr rfl) (.inr rfl) (.inr htemp) (fun e => ?_) (.inl (by simp))
      (.inr ⟨rfl, rfl⟩)) (by simp) ?_ rfl rfl (fun _ hx => hx) (fun c hc hc' => absurd hc hc')
        fun e he => .inl ?_
  · by_cases he : e = temp
    · exact .inl (by simp [he])
    · refine .inr ?_
      rw [World.modify_collectors, Function.update_of_ne he]
  · simp only [List.flatMap_cons, List.flatMap_nil, List.append_nil]
    show List.Perm ((Function.update w.base.collectors temp (w.base.collectors temp).cleared
      temp).garbage ++ exitGarbage (Function.update w.stage t s t))
      ((w.base.collectors temp).garbage ++ exitGarbage (w.stage t))
    rw [hself, Function.update_self, hexit, hexit', List.append_nil]
    exact .refl _
  · obtain rfl : e = temp := by simpa using he
    exact hself

/-- The temporary collector is dropped. -/
theorem done (ho : Owned w g) {temp : CollectorId} {s : Stage}
    (hm : Move w t a (afterExit w t b' s (temp :: w.freed))) (hg : g' = g)
    (hb : b' = { w.base with
      localCollector := Function.update w.base.localCollector t none })
    (hs : (w.stage t).temp = some temp) (hs' : s.temp = none) (hpc : w.base.pc t = .idle)
    (hexit : exitGarbage s = exitGarbage (w.stage t))
    (hnil : (w.base.collectors temp).garbage = []) :
    Owned (afterExit w t b' s (temp :: w.freed)) g' := by
  subst hg hb
  have hgone : (slots (afterExit w t { w.base with
      localCollector := Function.update w.base.localCollector t none } s (temp :: w.freed)) g'
        .gone).Perm (.collector temp :: slots w g' .gone) := List.perm_middle
  -- The temporary collector goes from the hands of the thread to what is gone: its lists are empty.
  refine ho.rearrange [.held t, .gone] hm
    (.of_exit rfl (.inr rfl) (.inr rfl) (.inl (by simp)) (fun _ => .inr rfl) (.inr hexit)
      (.inl (by simp))) (by simp) ?_ rfl rfl (fun x hx => ?_) (fun c hc hc' => ?_) (by simp)
  · simp only [List.flatMap_cons, List.flatMap_nil, List.append_nil]
    show List.Perm ((preparing (w.base.pc t) ++ (Function.update w.stage t s t).temp.toList).map
      Garbage.collector ++ _) ((preparing (w.base.pc t) ++ (w.stage t).temp.toList).map
        Garbage.collector ++ _)
    rw [Function.update_self, hpc, hs, hs']
    exact hgone
  · exact hgone.mem_iff.mpr (List.mem_cons_of_mem _ hx)
  · rcases List.mem_cons.mp (hgone.mem_iff.mp hc) with hc | hc
    · cases hc
      exact hnil
    · exact absurd hc hc'

/-- Every move keeps the ownership. -/
theorem step (ho : Owned w g) (h : Inv w g) (h' : Inv w' g') (hg : GhostStep w t g g')
    (hm : Move w t a w') : Owned w' g' := by
  have hm' := hm
  have hsame : w.base.pc t = .idle → (∀ temp, w.stage t ≠ .walk temp w.base.chainHead.addr none) →
      (∀ temp d, w.stage t ≠ .free temp (some d)) → g' = g := fun hpc =>
    hg.eq_of_quiet (by unfold relinking; rw [hpc])
  -- A step that leaves all slots alone.
  have hkeep : ∀ {s : Stage} {b' : World}, w' = afterExit w t b' s w.freed → g' = g →
      b'.pc = w.base.pc → s.temp = (w.stage t).temp → exitGarbage s = exitGarbage (w.stage t) →
        b'.collectors = w.base.collectors → b'.dropped = w.base.dropped →
          b'.nextInst = w.base.nextInst → b'.nextCollector = w.base.nextCollector → Owned w' g' := by
    rintro s b' rfl rfl hpcs htemp hexit hk hd hn hc
    exact ho.keep hm' (.of_exit hpcs (.inr rfl) (.inr rfl) (.inr htemp) (fun c => .inr (by rw [hk]))
      (.inr hexit) (.inr ⟨hd, rfl⟩)) hn hc
  -- The steps that lock, walk, unlock and mark leave the slots alone. The others take the chain,
  -- free a collector of it, drop the next element of a list, or drop the temporary collector.
  cases hm with
  | base act b hu ha hs => exact ho.base hm' h h' hg hu hs
  | exit ha hs hpc => exact ho.exit hm' (hsame hpc (by rw [hs]; nofun) (by rw [hs]; nofun)) hs hpc
  | lockFail temp hs hpc =>
    exact hkeep rfl (hsame hpc (by rw [hs]; nofun) (by rw [hs]; nofun)) rfl (by rw [hs]; rfl)
      (by rw [hs]; rfl) rfl rfl rfl rfl
  | lock temp hs hpc hf hb =>
    exact hkeep rfl (hsame hpc (by rw [hs]; nofun) (by rw [hs]; nofun)) rfl (by rw [hs]; rfl)
      (by rw [hs]; rfl) rfl rfl rfl rfl
  | walkStop temp d head hs hpc hv | walkPass temp d head hs hpc hv | walkNext temp d head hs hpc =>
    exact hkeep rfl (hsame hpc (by rw [hs]; nofun) (by rw [hs]; nofun)) rfl (by rw [hs]; rfl)
      (by rw [hs]; rfl) rfl rfl rfl rfl
  | take temp head hs hpc hh =>
    subst hh
    obtain ⟨hnil, hchain, hfreeing⟩ := hg.of_taking h h' hs hpc rfl
    exact ho.take hm' rfl hnil hchain hfreeing (by rw [hs]; rfl) (by rw [hs]; rfl)
  | takeFail temp head hs hpc hh =>
    refine hkeep rfl (hsame hpc (fun temp' heq => ?_) (by rw [hs]; nofun)) rfl (by rw [hs]; rfl)
      (by rw [hs]; rfl) rfl rfl rfl rfl
    rw [hs] at heq
    cases heq
    exact hh rfl
  | free temp d hs hpc =>
    obtain ⟨hfreeing, hchain⟩ := hg.of_freeing h hs hpc h'
    refine ho.drop hm' hchain (by rw [hs]; rfl) ?_
    rw [hfreeing, hs]
    exact .refl _
  | freeDone temp hs hpc =>
    exact hkeep rfl (hsame hpc (by rw [hs]; nofun) (by rw [hs]; nofun)) rfl (by rw [hs]; rfl)
      (by rw [hs]; rfl) rfl rfl rfl rfl
  | loopDone running destructor finished hl hs hpc =>
    refine hkeep rfl (hsame hpc (fun temp => ?_) fun temp d => ?_) rfl ?_ ?_ rfl rfl rfl rfl
    · rw [hs]
      exact ((hl.not_free _).1 temp _).1
    · rw [hs]
      exact ((hl.not_free _).2 temp d).1
    · rw [hs]
      exact (hl.finished_alike []).temp
    · rw [hs, hl.exitGarbage_running, hl.exitGarbage_finished]
  | loopInst running destructor finished hl i rest hs hpc =>
    refine ho.dropInst hm' (hsame hpc (fun temp => ?_) fun temp d => ?_) rfl ?_ ?_
      (hl.exitGarbage_destructor rest)
    · rw [hs]
      exact ((hl.not_free _).1 temp _).1
    · rw [hs]
      exact ((hl.not_free _).2 temp d).1
    · rw [hs]
      exact (hl.destructor_alike _ rest).temp
    · rw [hs, hl.exitGarbage_running]
  | loopCollector running destructor finished hl d rest hs hpc =>
    obtain rfl : g' = g := by
      refine hsame hpc (fun temp => ?_) fun temp d => ?_
      · rw [hs]
        exact ((hl.not_free _).1 temp _).1
      · rw [hs]
        exact ((hl.not_free _).2 temp d).1
    refine ho.drop hm' rfl ?_ ?_
    · rw [hs]
      exact (hl.running_alike _ _).temp
    · rw [hs, hl.exitGarbage_running, hl.exitGarbage_running]
      refine List.perm_iff_count.mpr fun x => ?_
      simp only [List.count_append, List.count_cons]
      omega
  | loopReturn running destructor finished hl rest hs hpc =>
    refine hkeep rfl (hsame hpc (fun temp => ?_) fun temp d => ?_) rfl ?_ ?_ rfl rfl rfl rfl
    · rw [hs]
      exact ((hl.not_free _).1 temp _).2
    · rw [hs]
      exact ((hl.not_free _).2 temp d).2
    · rw [hs]
      exact (hl.return_alike rest rest).temp
    · rw [hs, hl.exitGarbage_running, hl.exitGarbage_destructor]
  | unlock temp cleared hs hpc =>
    refine hkeep rfl (hsame hpc (by rw [hs]; nofun) (by rw [hs]; nofun)) rfl ?_ ?_ rfl rfl rfl rfl
    · rw [hs]
      cases cleared <;> rfl
    · rw [hs]
      cases cleared <;> rfl
  | mark temp hs hpc =>
    have hmark : w.base.markScanEnforced.pc = w.base.pc ∧
        w.base.markScanEnforced.collectors = w.base.collectors ∧
        w.base.markScanEnforced.dropped = w.base.dropped ∧
        w.base.markScanEnforced.nextInst = w.base.nextInst ∧
        w.base.markScanEnforced.nextCollector = w.base.nextCollector := by
      unfold World.markScanEnforced
      cases w.base.chainHead.tag <;> exact ⟨rfl, rfl, rfl, rfl, rfl⟩
    exact hkeep rfl (hsame hpc (by rw [hs]; nofun) (by rw [hs]; nofun)) hmark.1 (by rw [hs]; rfl)
      (by rw [hs]; rfl) hmark.2.1 hmark.2.2.1 hmark.2.2.2.1 hmark.2.2.2.2
  | clear temp hs hpc hnil =>
    exact ho.clear hm' (hsame hpc (by rw [hs]; nofun) (by rw [hs]; nofun)) (by rw [hs]; rfl)
      (by rw [hs]; rfl) rfl
  | done temp hs hpc hnil =>
    exact ho.done hm' (hsame hpc (by rw [hs]; nofun) (by rw [hs]; nofun)) rfl (by rw [hs]; rfl) rfl
      hpc (by rw [hs]; rfl) hnil

end Owned

/-! ## The result -/

/-- Where an instance or a collector can be. -/
inductive Spot where
  | chain
  | held (t : Tid)
  | previous (c : CollectorId)
  | current (c : CollectorId)
  | next (c : CollectorId)
  /-- The list that `epoch_updated` drops. -/
  | drain (t : Tid)
  /-- The list that `clear_chain` or `clear_for_drop` drops. -/
  | exit (t : Tid)
  deriving DecidableEq

/-- The first collector that `clear_chain` has taken from the chain and not freed yet. -/
def unfreed : Stage → Option CollectorId
  | .free _ current => current
  | .drop _ _ next | .dropping _ _ next => next
  | _ => none

/-- The thread is just moving or freeing the collector: it prepares it in `alloc`, or it is
its temporary one, or `clear_chain` is to free it. -/
def Holding (w : Process) (t : Tid) (c : CollectorId) : Prop :=
  c ∈ heldBy w t ∨ ∃ l, Linked (nextLinks w.base) (unfreed (w.stage t)) l ∧ c ∈ l

/-- The instance or the collector is at a spot. -/
def Spot.Has (w : Process) (x : Garbage) : Spot → Prop
  | .chain => ∃ c, x = .collector c ∧ InChain w.base c
  | .held t => ∃ c, x = .collector c ∧ Holding w t c
  | .previous c => x ∈ (w.base.collectors c).previousInstanceLink
  | .current c => x ∈ (w.base.collectors c).currentInstanceLink
  | .next c => x ∈ (w.base.collectors c).nextInstanceLink
  | .drain t => x ∈ pendingGarbage (w.base.pc t)
  | .exit t => x ∈ exitGarbage (w.stage t)

/-- The collector whose list the spot is. -/
def Spot.collector : Spot → Option CollectorId
  | .previous c | .current c | .next c => some c
  | .chain | .held _ | .drain _ | .exit _ => none

/-- The instance was dropped, or the collector was freed. -/
def Dropped (w : Process) : Garbage → Prop
  | .inst i => i ∈ w.base.dropped
  | .collector c => c ∈ w.freed

/-- The instance or the collector can be reached: it is at a spot that is no list of a
collector, or on a list of a collector that can be reached. -/
inductive Reachable (w : Process) : Garbage → Prop where
  | root {x : Garbage} {s : Spot} (hx : s.Has w x) (hs : s.collector = none) : Reachable w x
  | list {x : Garbage} {s : Spot} {c : CollectorId} (hx : s.Has w x) (hs : s.collector = some c)
      (hc : Reachable w (.collector c)) : Reachable w x

/-- The slots that a spot is part of. -/
inductive Part : Spot → Slot → Prop where
  | chain : Part .chain .chain
  | held (t : Tid) : Part (.held t) (.held t)
  | freeing (t : Tid) : Part (.held t) .freeing
  | previous (c : CollectorId) : Part (.previous c) (.lists c)
  | current (c : CollectorId) : Part (.current c) (.lists c)
  | next (c : CollectorId) : Part (.next c) (.lists c)
  | drain (t : Tid) : Part (.drain t) (.drain t)
  | exit (t : Tid) : Part (.exit t) (.exit t)

variable {x : Garbage} {s s' : Spot} {p : Slot}

/-- What was dropped is on the last slot. -/
theorem dropped_iff : x ∈ slots w g .gone ↔ Dropped w x := by
  cases x with
  | inst i => simp [slots, Dropped]
  | collector c => simp [slots, Dropped]

/-- The collectors that `clear_chain` is to free are those that it has taken. -/
theorem unfreed_linked (h : Inv w g) (ht : freeing (w.stage t) = true) :
    Linked (nextLinks w.base) (unfreed (w.stage t)) g.freeing := by
  have hstands := h.stands t
  cases hs : w.stage t with
  | free temp current | drop temp garbage next | dropping temp garbage next =>
    rw [hs] at hstands
    exact hstands
  | _ =>
    rw [hs] at ht
    cases ht

/-- An element on a slot that is not gone is at a spot of the slot. -/
theorem exists_spot (h : Inv w g) (hx : x ∈ slots w g p) (hp : p ≠ .gone) :
    ∃ s, s.Has w x ∧ Part s p := by
  cases p with
  | chain =>
    obtain ⟨c, hc, rfl⟩ := List.mem_map.mp hx
    exact ⟨.chain, ⟨c, rfl, (inChain_iff h).mpr hc⟩, .chain⟩
  | freeing =>
    obtain ⟨c, hc, rfl⟩ := List.mem_map.mp hx
    -- What was taken from the chain is in the hands of the thread that frees it.
    obtain ⟨t, ht⟩ : ∃ t, freeing (w.stage t) = true := by
      by_contra hno
      rw [h.chain.idle fun t => Bool.eq_false_iff.mpr fun ht => hno ⟨t, ht⟩] at hc
      cases hc
    exact ⟨.held t, ⟨c, rfl, .inr ⟨g.freeing, unfreed_linked h ht, hc⟩⟩, .freeing t⟩
  | held t =>
    obtain ⟨c, hc, rfl⟩ := List.mem_map.mp hx
    exact ⟨.held t, ⟨c, rfl, .inl hc⟩, .held t⟩
  | lists c =>
    rcases mem_garbage.mp hx with hx | hx | hx
    · exact ⟨.previous c, hx, .previous c⟩
    · exact ⟨.current c, hx, .current c⟩
    · exact ⟨.next c, hx, .next c⟩
  | drain t => exact ⟨.drain t, hx, .drain t⟩
  | exit t => exact ⟨.exit t, hx, .exit t⟩
  | gone => exact absurd rfl hp

/-- A thread that has collectors of the chain to free is in `clear_chain`. -/
theorem freeing_of_linked {l : List CollectorId}
    (hl : Linked (nextLinks w.base) (unfreed (w.stage t)) l) (hc : c ∈ l) :
    freeing (w.stage t) = true := by
  cases hs : w.stage t with
  | free | drop | dropping => rfl
  | _ =>
    rw [hs] at hl
    rw [show l = [] from hl.eq_nil] at hc
    cases hc

/-- An element at a spot is on a slot that the spot is part of. -/
theorem exists_slot (h : Inv w g) (hx : s.Has w x) : ∃ p, x ∈ slots w g p ∧ Part s p ∧
    (p = .freeing → ∃ t, s = .held t ∧ freeing (w.stage t) = true) := by
  cases s with
  | chain =>
    obtain ⟨c, rfl, hc⟩ := hx
    exact ⟨.chain, List.mem_map_of_mem ((inChain_iff h).mp hc), .chain, nofun⟩
  | held t =>
    obtain ⟨c, rfl, hc | ⟨l, hl, hc⟩⟩ := hx
    · exact ⟨.held t, List.mem_map_of_mem hc, .held t, nofun⟩
    · have ht := freeing_of_linked hl hc
      rw [hl.unique (unfreed_linked h ht)] at hc
      exact ⟨.freeing, List.mem_map_of_mem hc, .freeing t, fun _ => ⟨t, rfl, ht⟩⟩
  | previous c => exact ⟨.lists c, mem_garbage.mpr (.inl hx), .previous c, nofun⟩
  | current c => exact ⟨.lists c, mem_garbage.mpr (.inr (.inl hx)), .current c, nofun⟩
  | next c => exact ⟨.lists c, mem_garbage.mpr (.inr (.inr hx)), .next c, nofun⟩
  | drain t => exact ⟨.drain t, hx, .drain t, nofun⟩
  | exit t => exact ⟨.exit t, hx, .exit t, nofun⟩

/-- The three lists of a collector have no element in common. -/
theorem list_unique {k : Collector} (hn : k.garbage.Nodup) :
    (∀ x, x ∈ k.previousInstanceLink → x ∈ k.currentInstanceLink → False) ∧
    (∀ x, x ∈ k.previousInstanceLink → x ∈ k.nextInstanceLink → False) ∧
    (∀ x, x ∈ k.currentInstanceLink → x ∈ k.nextInstanceLink → False) := by
  obtain ⟨hpc, -, hn⟩ := List.nodup_append.mp hn
  obtain ⟨-, -, hpc⟩ := List.nodup_append.mp hpc
  exact ⟨fun x hp hc => hpc x hp x hc rfl,
    fun x hp hx => hn x (List.mem_append_left _ hp) x hx rfl,
    fun x hc hx => hn x (List.mem_append_right _ hc) x hx rfl⟩

/-- An element is at one spot at most. -/
theorem spot_unique (ho : Owned w g) (h : Inv w g) (hx : s.Has w x) (hx' : s'.Has w x) : s = s' := by
  obtain ⟨p, hp, hpart, hf⟩ := exists_slot h hx
  obtain ⟨q, hq, hpart', hf'⟩ := exists_slot h hx'
  -- The slots are disjoint, so that both spots are part of the same one.
  obtain rfl := ho.forest.disjoint p q x hp hq
  cases hpart with
  | chain | held | drain | exit =>
    cases hpart'
    rfl
  | freeing t =>
    -- Only one thread can be in `clear_chain`, since it has the lock.
    obtain ⟨t₁, ht₁, hfree⟩ := hf rfl
    obtain ⟨t₂, rfl, hfree'⟩ := hf' rfl
    cases ht₁
    have hlocks : ∀ {t}, freeing (w.stage t) = true → locks w t = true := by
      intro t ht
      unfold locks
      rw [holding_of_freeing ht, Bool.or_true]
    rw [h.unique t t₂ (hlocks hfree) (hlocks hfree')]
  | previous c =>
    -- One collector has three lists, which are disjoint.
    obtain ⟨hpc, hpn, -⟩ := list_unique (ho.forest.nodup (.lists c))
    cases hpart' with
    | previous => rfl
    | current => exact (hpc x hx hx').elim
    | next => exact (hpn x hx hx').elim
  | current c =>
    obtain ⟨hpc, -, hcn⟩ := list_unique (ho.forest.nodup (.lists c))
    cases hpart' with
    | previous => exact (hpc x hx' hx).elim
    | current => rfl
    | next => exact (hcn x hx hx').elim
  | next c =>
    obtain ⟨-, hpn, hcn⟩ := list_unique (ho.forest.nodup (.lists c))
    cases hpart' with
    | previous => exact (hpn x hx' hx).elim
    | current => exact (hcn x hx' hx).elim
    | next => rfl

/-- Nothing is on a list at the start. -/
theorem owned_init : Owned .init ⟨[], []⟩ := by
  have hnil : ∀ p, slots .init ⟨[], []⟩ p = [] := by
    intro p
    cases p <;> rfl
  have hno : ∀ x, ¬Listed (slots .init ⟨[], []⟩) x := by
    rintro x ⟨p, hx⟩
    rw [hnil] at hx
    cases hx
  refine ⟨⟨⟨fun p => hnil p ▸ List.nodup_nil, fun p q x hx => absurd ⟨p, hx⟩ (hno x)⟩,
    fun p x hx => absurd ⟨p, hx⟩ (hno x)⟩, fun x => iff_of_false (hno x) ?_⟩
  cases x <;> exact Nat.not_lt_zero _

/-- A run of the collector with thread exit keeps the ownership. -/
theorem owned_of_run {P : Process → Process.Action → Prop} (h : Run Process.step P .init w) :
    ∃ g, Inv w g ∧ Owned w g := by
  refine h.invariant (fun w => ∃ g, Inv w g ∧ Owned w g) ⟨_, inv_init, owned_init⟩ ?_
  rintro x a x' ⟨g, hg, ho⟩ _ hs
  obtain ⟨g', hg', hghost⟩ := hg.step (move_of_step hs)
  exact ⟨g', hg', ho.step hg hg' hghost (move_of_step hs)⟩

/-- What is not gone can be reached. -/
theorem reachable_of_rooted (h : Inv w g) (hx : Rooted Slot.place (slots w g) x) :
    Reachable w x := by
  induction hx with
  -- The element is on a slot of its own.
  | @root x p hx hp =>
    obtain ⟨s, hs, hpart⟩ := exists_spot h hx (by rintro rfl; cases hp)
    refine .root hs ?_
    cases hpart with
    | chain | held | freeing | drain | exit => rfl
    | previous | current | next => cases hp
  | @inside x y p hx hp hy ih =>
    -- The element is on a list of a collector that can be reached.
    obtain ⟨s, hs, hpart⟩ := exists_spot h hx (by rintro rfl; cases hp)
    cases hpart with
    | chain | held | freeing | drain | exit => cases hp
    | previous c | current c | next c =>
      cases hp
      exact .list hs rfl ih

/-- Everything that was retired or allocated, and not dropped, is owned once. In every state
that a run reaches:

* an instance or a collector is at exactly one spot if it was retired or allocated and not
  dropped, and at none otherwise;
* no list has an element twice;
* nothing was dropped twice;
* nothing that was not dropped is out of reach. -/
theorem owned_once {w : Process} (h : Run Process.step (fun _ _ => True) .init w) :
    (∀ x, Allocated w.base x → ¬Dropped w x → ∃! s : Spot, s.Has w x) ∧
    (∀ x (s : Spot), s.Has w x → Allocated w.base x ∧ ¬Dropped w x) ∧
    (∀ c, (w.base.collectors c).garbage.Nodup) ∧
    (∀ t, (pendingGarbage (w.base.pc t)).Nodup ∧ (exitGarbage (w.stage t)).Nodup) ∧
    (w.base.dropped.Nodup ∧ w.freed.Nodup) ∧
    ∀ x, Allocated w.base x → ¬Dropped w x → Reachable w x := by
  obtain ⟨g, hg, ho⟩ := owned_of_run h
  -- An element that was not dropped is on a slot, and not on the one for what is gone.
  have hslot : ∀ x, Allocated w.base x → ¬Dropped w x → ∃ p, x ∈ slots w g p ∧ p ≠ .gone := by
    intro x ha hd
    obtain ⟨p, hp⟩ := (ho.listed x).mpr ha
    refine ⟨p, hp, ?_⟩
    rintro rfl
    exact hd (dropped_iff.mp hp)
  refine ⟨fun x ha hd => ?_, fun x s hs => ?_, fun c => ho.forest.nodup (.lists c),
    fun t => ⟨ho.forest.nodup (.drain t), ho.forest.nodup (.exit t)⟩, ?_, fun x ha hd => ?_⟩
  · obtain ⟨p, hp, hne⟩ := hslot x ha hd
    obtain ⟨s, hs, -⟩ := exists_spot hg hp hne
    exact ⟨s, hs, fun s' hs' => spot_unique ho hg hs' hs⟩
  · obtain ⟨p, hp, hpart, -⟩ := exists_slot hg hs
    refine ⟨(ho.listed x).mp ⟨p, hp⟩, fun hd => ?_⟩
    obtain rfl := ho.forest.disjoint p .gone x hp (dropped_iff.mpr hd)
    cases hpart
  · have hgone := List.nodup_append.mp (ho.forest.nodup .gone)
    exact ⟨hgone.1.of_map _, hgone.2.1.of_map _⟩
  · obtain ⟨p, hp, hne⟩ := hslot x ha hd
    refine reachable_of_rooted hg (ho.forest.rooted p x hp fun hplace => hne ?_)
    cases p with
    | gone => rfl
    | chain | freeing | held | lists | drain | exit => cases hplace

/-- A thread retires an instance and suspends, and the scan of another one takes its
collector: the instance is on a list of the collector, which is on a list of the other one. -/
theorem owned_once_nested : ∃ w : Process, Run Process.step (fun _ _ => True) .init w ∧
    (Spot.current 1).Has w (.collector 0) ∧ (∃! s : Spot, s.Has w (.inst 0)) ∧
    Reachable w (.inst 0) := by
  have h : (exec Process.step (fun _ _ => true) .init (steps (register 0 ++ [⟨0, .newGuard⟩,
      ⟨0, .proceed⟩, ⟨0, .collect⟩, ⟨0, .endGuard⟩, ⟨0, .proceed⟩, ⟨0, .passGarbage⟩,
      ⟨0, .proceed⟩] ++ register 1 ++ scanning 1 ++ proceed 1 6))).any (fun w =>
        w.base.nextInst == 1 && (w.base.dropped == [] &&
        (w.base.collectors 1).currentInstanceLink == [.collector 0])) = true := by
    decide
  obtain ⟨w, hw, h⟩ := Run.of_exec_any h
  simp only [Bool.and_eq_true, beq_iff_eq] at h
  obtain ⟨hn, hd, hl⟩ := h
  have hrun : Run Process.step (fun _ _ => True) .init w := hw.mono fun _ _ _ => trivial
  have ha : Allocated w.base (.inst 0) := by
    show 0 < w.base.nextInst
    rw [hn]
    exact Nat.one_pos
  have hnot : ¬Dropped w (.inst 0) := by
    show 0 ∉ w.base.dropped
    rw [hd]
    exact List.not_mem_nil
  obtain ⟨hone, -, -, -, -, hreach⟩ := owned_once hrun
  refine ⟨w, hrun, ?_, hone _ ha hnot, hreach _ ha hnot⟩
  show Garbage.collector 0 ∈ (w.base.collectors 1).currentInstanceLink
  rw [hl]
  exact List.mem_singleton_self _

end Sdd.Proofs.Exit
