import Sdd.Proofs.AtomicOwned.Owners
import Sdd.Proofs.Exit.Guarded

/-!
# `Sdd.Proofs.AtomicOwned.Guarded`: what a `Ptr` points to

A `Ptr` is loaded from a word, or it is taken from an `Owned` handle, so that its instance has an
owner at that moment (`Called.ptrs`). It can be retired later, but a guard is alive then, and
protects the instance until it ends (`protected_of_collect`, `Protected.step`). `Safe` is the
invariant, and `safe_of_run` says that each sheltered run keeps it.

The runs are those in which the collector is safe, as `guarded_not_dropped` shows: they are
orderly. The threads may suspend, and they may exit.
-/

set_option autoImplicit false

namespace Sdd.Proofs.AtomicOwned

open Sdd.Collector (CollectorId Garbage InstId Tid)
open Sdd.AtomicOwned Sdd.Lib Sdd.Proofs.Exit List

/-! ## The handles -/

section cells

variable {A : Type} {c c' : Cells A} {g : Bool} {t r : Tid} {x : A}

/-- An address in a word is held. -/
theorem mem_held_of_word {cell : CellId} {p : Ptr A} (hp : c.word cell = some p)
    (hx : x ∈ p.addr) : x ∈ held c := by
  refine List.mem_append_left _ (List.mem_flatMap.mpr ⟨some p, ?_, ?_⟩)
  · exact List.mem_of_getElem? (word_eq.mp hp)
  · rw [pointee, Option.bind_some, Option.mem_def.mp hx]
    exact List.mem_singleton_self x

/-- A thread gets a `Ptr`. -/
theorem mem_point {o : Option A} :
    x ∈ (c.point t o).ptrs r ↔ x ∈ c.ptrs r ∨ r = t ∧ x ∈ o := by
  cases o with
  | none => simp [Cells.point]
  | some y =>
    show x ∈ Function.update c.ptrs t (y :: c.ptrs t) r ↔ _
    by_cases hr : r = t
    · subst hr
      rw [Function.update_self, List.mem_cons, Option.mem_some_iff]
      constructor
      · rintro (rfl | hx)
        · exact .inr ⟨rfl, rfl⟩
        · exact .inl hx
      · rintro (hx | ⟨-, rfl⟩)
        · exact .inr hx
        · exact .inl rfl
    · rw [Function.update_of_ne hr]
      exact ⟨.inl, fun h => h.resolve_right fun h => hr h.1⟩

/-- A handle is not a `Ptr`. -/
@[simp] theorem ptrs_give (o : Option A) : (c.give t o).ptrs = c.ptrs := by cases o <;> rfl

/-- The calls of `update_tag_if` stay when a thread gets a handle. -/
@[simp] theorem updates_give (o : Option A) : (c.give t o).updates = c.updates := by cases o <;> rfl

/-- The calls of `update_tag_if` stay when a thread gets a `Ptr`. -/
@[simp] theorem updates_point (o : Option A) : (c.point t o).updates = c.updates := by
  cases o <;> rfl

variable [DecidableEq A] {act : Act A}

/-- An address that a thread owns is held. -/
theorem mem_held_of_owns (hx : c.owns t x = true) : x ∈ held c :=
  List.mem_append_right _ (List.mem_map.mpr ⟨(t, x), of_decide_eq_true hx, rfl⟩)

/-- The `Ptr`s stay when a thread loses a handle. -/
@[simp] theorem ptrs_forget (o : Option A) : (c.forget t o).ptrs = c.ptrs := by cases o <;> rfl

/-- The calls of `update_tag_if` stay when a thread loses a handle. -/
@[simp] theorem updates_forget (o : Option A) : (c.forget t o).updates = c.updates := by
  cases o <;> rfl

/-- An exchange gives handles, not `Ptr`s. -/
@[simp] theorem ptrs_exchange {cell : CellId} {p : Ptr A} {new : Option A} {tag : Tag} :
    (c.exchange t cell p new tag).ptrs = c.ptrs := by
  rw [Cells.exchange, ptrs_give]
  exact ptrs_forget new

/-- The calls of `update_tag_if` stay when a word is exchanged. -/
@[simp] theorem updates_exchange {cell : CellId} {p : Ptr A} {new : Option A} {tag : Tag} :
    (c.exchange t cell p new tag).updates = c.updates := by
  rw [Cells.exchange, updates_give]
  exact updates_forget new

/-- A thread with a guard gets a `Ptr` to what it has found in a word, or to what it owns. -/
theorem Called.ptrs (h : Called c g t act c') (hx : x ∈ c'.ptrs r) :
    x ∈ c.ptrs r ∨ r = t ∧ g = true ∧ x ∈ held c := by
  cases h with
  | load cell p hg hp =>
    refine (mem_point.mp hx).imp_right fun ⟨hr, hx⟩ => ⟨hr, hg, mem_held_of_word hp hx⟩
  | getGuardedPtr y hg hy =>
    refine (mem_point.mp hx).imp_right fun ⟨hr, hx⟩ => ⟨hr, hg, ?_⟩
    cases hx
    exact mem_held_of_owns hy
  | exchange cell new tag p hg hnew hcur hp =>
    refine (mem_point.mp hx).imp (fun hx => ?_) fun ⟨hr, hx⟩ => ⟨hr, hg, ?_⟩
    · rwa [ptrs_exchange] at hx
    · exact mem_held_of_owns (hnew x hx)
  | exchangeFail cell current new tag spurious p hg hnew hcur hp hne =>
    exact (mem_point.mp hx).imp_right fun ⟨hr, hx⟩ => ⟨hr, hg, mem_held_of_word hp hx⟩
  | updateTagIf cell tag p hp =>
    refine (mem_point.mp hx).imp_right fun ⟨hr, hx⟩ => ?_
    cases g with
    | false => cases hx
    | true => exact ⟨hr, rfl, mem_held_of_word hp hx⟩
  | updateFail u rest spurious p hu hp hne =>
    refine (mem_point.mp hx).imp_right fun ⟨hr, hx⟩ => ?_
    cases g with
    | false => cases hx
    | true => exact ⟨hr, rfl, mem_held_of_word hp hx⟩
  | swap cell new tag p hnew hp =>
    rw [ptrs_exchange] at hx
    exact .inl hx
  | intoOwned cell p hp =>
    rw [ptrs_give] at hx
    exact .inl hx
  | «from» y hy =>
    exact .inl hx
  | send y receiver hy =>
    rw [ptrs_give, ptrs_forget] at hx
    exact .inl hx
  | null | met | unmet | update => exact .inl hx

/-- A call leaves the `Ptr`s of the threads. -/
theorem Called.keeps (h : Called c g t act c') (hx : x ∈ c.ptrs r) : x ∈ c'.ptrs r := by
  cases h with
  | load | getGuardedPtr | exchangeFail | updateTagIf | updateFail =>
    exact mem_point.mpr (.inl hx)
  | exchange =>
    refine mem_point.mpr (.inl ?_)
    rwa [ptrs_exchange]
  | swap => rwa [ptrs_exchange]
  | intoOwned => rwa [ptrs_give]
  | send => rwa [ptrs_give, ptrs_forget]
  | «from» | null | met | unmet | update => exact hx

/-- The word that a call of `update_tag_if` has loaded is as before, or it was in a cell, and is a
`Ptr` of its thread, if this one has a guard. -/
theorem Called.updates (h : Called c g t act c') {u : Update A} (hu : u ∈ c'.updates r) :
    (∃ u' ∈ c.updates r, u'.prev = u.prev) ∨
      r = t ∧ (c.updates t ≠ [] ∨ ∃ cell tag, act = .updateTagIf cell tag) ∧
        (∃ cell, c.word cell = some u.prev) ∧ (g = true → ∀ x ∈ u.prev.addr, x ∈ c'.ptrs t) := by
  have hset : ∀ {us : List (Update A)}, u ∈ Function.update c.updates t us r →
      r = t ∧ u ∈ us ∨ u ∈ c.updates r := by
    intro us hu
    by_cases hr : r = t
    · subst hr
      rw [Function.update_self] at hu
      exact .inl ⟨rfl, hu⟩
    · rw [Function.update_of_ne hr] at hu
      exact .inr hu
  have hask : ∀ {v : Update A} {rest : List (Update A)}, (∀ w ∈ rest, w ∈ c.updates t) →
      c.updates t ≠ [] ∨ (∃ cell tag, act = .updateTagIf cell tag) →
      (∃ cell, c.word cell = some v.prev) →
      u ∈ (c.ask g t v rest).updates r → (∃ u' ∈ c.updates r, u'.prev = u.prev) ∨
        r = t ∧ (c.updates t ≠ [] ∨ ∃ cell tag, act = .updateTagIf cell tag) ∧
          (∃ cell, c.word cell = some u.prev) ∧
          (g = true → ∀ x ∈ u.prev.addr, x ∈ (c.ask g t v rest).ptrs t) := by
    intro v rest hrest hact hv hu
    unfold Cells.ask at hu ⊢
    rw [updates_point] at hu
    rcases hset hu with ⟨rfl, hmem⟩ | hu
    · rcases List.mem_cons.mp hmem with rfl | hmem
      · refine .inr ⟨rfl, hact, hv, fun hg x hx => mem_point.mpr (.inr ⟨rfl, ?_⟩)⟩
        rwa [hg, if_pos rfl]
      · exact .inl ⟨u, hrest u hmem, rfl⟩
    · exact .inl ⟨u, hu, rfl⟩
  cases h with
  | updateTagIf cell tag p hp => exact hask (fun _ hw => hw) (.inr ⟨cell, tag, rfl⟩) ⟨cell, hp⟩ hu
  | updateFail v rest spurious p hv hp hne =>
    refine hask (fun w hw => ?_) (.inl ?_) ⟨v.cell, hp⟩ hu
    · rw [hv]
      exact List.mem_cons_of_mem v hw
    · rw [hv]
      exact List.cons_ne_nil v rest
  | met v rest hv =>
    rcases hset hu with ⟨rfl, hmem⟩ | hu
    · rw [hv]
      rcases List.mem_cons.mp hmem with rfl | hmem
      · exact .inl ⟨v, List.mem_cons_self, rfl⟩
      · exact .inl ⟨u, List.mem_cons_of_mem v hmem, rfl⟩
    · exact .inl ⟨u, hu, rfl⟩
  | unmet v rest hv | update v rest hv hp =>
    rcases hset hu with ⟨rfl, hmem⟩ | hu
    · rw [hv]
      exact .inl ⟨u, List.mem_cons_of_mem v hmem, rfl⟩
    · exact .inl ⟨u, hu, rfl⟩
  | load | getGuardedPtr => exact .inl ⟨u, by rwa [updates_point] at hu, rfl⟩
  | exchange =>
    refine .inl ⟨u, ?_, rfl⟩
    change u ∈ (Cells.point _ _ _).updates r at hu
    rwa [updates_point, updates_exchange] at hu
  | exchangeFail =>
    refine .inl ⟨u, ?_, rfl⟩
    change u ∈ (Cells.point _ _ _).updates r at hu
    rwa [updates_point] at hu
  | swap => exact .inl ⟨u, by rwa [updates_exchange] at hu, rfl⟩
  | intoOwned =>
    refine .inl ⟨u, ?_, rfl⟩
    rwa [updates_give] at hu
  | send => exact .inl ⟨u, by rwa [updates_give, updates_forget] at hu, rfl⟩
  | «from» | null => exact .inl ⟨u, hu, rfl⟩

end cells

/-! ## The worlds -/

section worlds

variable {w w' : World}

/-- What is asked of the runs. They are orderly, and a destructor that runs while its thread exits
passes nothing to the collector. `update_tag_if` is called by a thread with a guard, which does not
end before it returns. -/
def sheltered (w : World) (a : Action Address) : Bool :=
  match a.act with
  | .process act =>
    orderly w.process ⟨a.tid, act⟩ && ((w.cells.updates a.tid).isEmpty ||
      (w.process.step ⟨a.tid, act⟩).all fun p => p.base.guardAlive a.tid)
  | .updateTagIf _ _ => w.process.base.guardAlive a.tid
  | .drop _ => (w.process.stage a.tid).temp.isNone
  | .dropAtomic cell =>
    (w.cells.word cell).all (·.addr.isNone) || (w.process.stage a.tid).temp.isNone
  | _ => true

/-- A run that is sheltered. -/
abbrev ShelteredRun : World → World → Prop := Run World.step fun w a => sheltered w a

/-- A step of the collector in a sheltered run. -/
theorem sheltered_process {t : Tid} {act : Process.Act} {p : Process}
    (h : sheltered w ⟨t, .process act⟩ = true) (hs : w.process.step ⟨t, act⟩ = some p) :
    orderly w.process ⟨t, act⟩ = true ∧
      (w.cells.updates t ≠ [] → p.base.guardAlive t = true) := by
  unfold sheltered at h
  simp only [Bool.and_eq_true, Bool.or_eq_true, List.isEmpty_iff, hs, Option.all_some] at h
  exact ⟨h.1, fun hne => h.2.resolve_left hne⟩

/-- The instance at the address `x` is there until the guard of the thread `r` ends. -/
def Kept (w : World) (r : Tid) (x : Address) : Prop :=
  w.process.base.guardAlive r = true ∧ (w.memory x).isSome ∧
    ∀ i ∈ garbage w.process, w.retired i = some x → Protected r i w.process

/-- The `Ptr`s point to instances, and so do the words that `update_tag_if` has loaded. -/
structure Safe (w : World) : Prop where
  inv : Inv w
  orderly : OrderlyRun .init w.process
  ptrs : ∀ r, ∀ x ∈ w.cells.ptrs r, Kept w r x
  guarded : ∀ r, w.cells.updates r ≠ [] → w.process.base.guardAlive r = true
  updates : ∀ r, ∀ u ∈ w.cells.updates r, ∀ x ∈ u.prev.addr, x ∈ w.cells.ptrs r

/-- What has an owner other than the collector is kept by every guard. -/
theorem Inv.kept (h : Inv w) {r : Tid} {x : Address} (hr : w.process.base.guardAlive r = true)
    (hx : x ∈ held w.cells) : Kept w r x := by
  refine ⟨hr, (h.owned x).mp (List.mem_append_left _ hx), fun i hi hret => ?_⟩
  have hdisj := (List.nodup_append.mp h.nodup).2.2
  exact absurd rfl (hdisj x hx x (List.mem_filterMap.mpr ⟨i, hi, hret⟩))

/-- The instance of a known address was retired. -/
theorem Inv.garbage (h : Inv w) {i : InstId} {x : Address} (hret : w.retired i = some x)
    (hi : i ∉ w.process.base.dropped) : i ∈ garbage w.process := by
  refine List.mem_filter.mpr ⟨List.mem_range.mpr ?_, decide_eq_true hi⟩
  by_contra hlt
  rw [h.retired i (Nat.not_lt.mp hlt)] at hret
  cases hret

/-- A step of the collector keeps what a guard protects. -/
theorem Kept.proceed {r : Tid} {x : Address} (h : Kept w r x) (hinv : Inv w) {a : Process.Action}
    {p : Process} (ha : orderly w.process a = true) (hs : w.process.step a = some p)
    (hr : p.base.guardAlive r = true) :
    Kept (w.proceed p) r x ∧ (w.proceed p).memory x = w.memory x := by
  obtain ⟨halive, hmem, hprot⟩ := h
  have hdrop := dropped_eq hs
  have hnodup := (dropped_of_run (hinv.process.tail _ trivial hs)).1
  rw [hdrop] at hnodup
  have hstay : ∀ i, w.retired i = some x → i ∉ w.process.base.dropped →
      Protected r i p := fun i hret hi =>
    (hprot i (hinv.garbage hret hi) hret).step ha hs halive hr
  have hnot : x ∉ (w.dropping p).filterMap w.retired := by
    intro hx
    obtain ⟨i, hi, hret⟩ := List.mem_filterMap.mp hx
    have hold : i ∉ w.process.base.dropped := fun hd =>
      (List.nodup_append.mp hnodup).2.2 i hi i hd rfl
    refine (hstay i hret hold).not_dropped ?_
    rw [hdrop]
    exact List.mem_append_left _ hi
  have hsame : (w.proceed p).memory x = w.memory x := if_neg hnot
  refine ⟨⟨hr, by rwa [hsame], fun i hi hret => ?_⟩, hsame⟩
  have hi' : i ∉ p.base.dropped := of_decide_eq_true (List.mem_filter.mp hi).2
  refine hstay i hret fun hd => hi' ?_
  rw [hdrop]
  exact List.mem_append_right _ hd

/-- The retirement of an instance keeps what a guard protects. -/
theorem Kept.retire {r t : Tid} {x y : Address} (h : Kept w r x)
    (horderly : OrderlyRun .init w.process) {c : Cells Address} (hinv : Inv w)
    (htemp : (w.process.stage t).temp = none)
    (hs : World.retire { w with cells := c } t y = some w') : Kept w' r x := by
  obtain ⟨halive, hmem, hprot⟩ := h
  obtain ⟨p, hp, rfl⟩ := Option.map_eq_some_iff.mp hs
  obtain ⟨-, hdrop, hguard⟩ := process_collect hp
  have ho := orderly_collect htemp hp
  have hr' : p.base.guardAlive r = true := (hguard r).trans halive
  refine ⟨hr', hmem, fun i hi hret => ?_⟩
  change Function.update w.retired w.process.base.nextInst (some y) i = some x at hret
  by_cases hnew : i = w.process.base.nextInst
  · subst hnew
    exact protected_of_collect horderly halive hp ho
  · rw [Function.update_of_ne hnew] at hret
    have hi' : i ∉ p.base.dropped := of_decide_eq_true (List.mem_filter.mp hi).2
    rw [hdrop] at hi'
    exact (hprot i (hinv.garbage hret hi') hret).step ho hp halive hr'

/-- A handle is consumed, and its instance retired. -/
theorem Safe.retire (h : Safe w) (hinv' : Inv w') {c : Cells Address} {t : Tid} {y : Address}
    (hptrs : c.ptrs = w.cells.ptrs) (hupdates : c.updates = w.cells.updates)
    (htemp : (w.process.stage t).temp = none)
    (hs : World.retire { w with cells := c } t y = some w') : Safe w' := by
  have hkept : ∀ r x, Kept w r x → Kept w' r x := fun r x hk =>
    hk.retire h.orderly h.inv htemp hs
  obtain ⟨p, hp, rfl⟩ := Option.map_eq_some_iff.mp hs
  obtain ⟨-, -, hguard⟩ := process_collect hp
  refine ⟨hinv', h.orderly.tail _ (orderly_collect htemp hp) hp, fun r x hx => ?_, fun r hr => ?_,
    fun r u hu x hx => ?_⟩
  · rw [hptrs] at hx
    exact hkept r x (h.ptrs r x hx)
  · rw [hupdates] at hr
    exact (hguard r).trans (h.guarded r hr)
  · rw [hupdates] at hu
    rw [hptrs]
    exact h.updates r u hu x hx

/-- Every action of a sheltered run keeps the `Ptr`s. -/
theorem Safe.step (h : Safe w) {a : Action Address} (ha : sheltered w a = true)
    (hs : w.step a = some w') : Safe w' := by
  have hinv' := inv_step h.inv hs
  obtain ⟨t, act⟩ := a
  have hstep : Stepped w t act w' := stepped_of_step hs
  cases hstep with
  | process act p hp =>
    obtain ⟨ho, hown⟩ := sheltered_process ha hp
    obtain ⟨g, hg⟩ := Exit.inv_of_run h.orderly
    have hguard : ∀ r, w.cells.updates r ≠ [] → p.base.guardAlive r = true := by
      intro r hne
      by_cases hr : r = t
      · subst hr
        exact hown hne
      · exact ((Exit.move_of_step hp).guardAlive_of_ne hg hr).trans (h.guarded r hne)
    refine ⟨hinv', h.orderly.tail _ ho hp, fun r x hx => ?_, hguard, fun r u hu x hx => ?_⟩
    · by_cases hr : p.base.guardAlive r = true
      · change x ∈ (if p.base.guardAlive r then w.cells.ptrs r else []) at hx
        rw [if_pos hr] at hx
        exact ((h.ptrs r x hx).proceed h.inv ho hp hr).1
      · change x ∈ (if p.base.guardAlive r then w.cells.ptrs r else []) at hx
        rw [if_neg hr] at hx
        cases hx
    · show x ∈ (if p.base.guardAlive r then w.cells.ptrs r else [])
      rw [if_pos (hguard r (List.ne_nil_of_mem hu))]
      exact h.updates r u hu x hx
  | new y hu hy =>
    refine ⟨hinv', h.orderly, fun r x hx => ?_, fun r hr => ?_, fun r u hur x hx => ?_⟩
    · have hk := h.ptrs r x hx
      have hxy : x ≠ y := by
        rintro rfl
        have hsome := hk.2.1
        rw [hy] at hsome
        cases hsome
      refine ⟨hk.1, ?_, hk.2.2⟩
      show (Function.update w.memory y (some w.nextSerial) x).isSome = true
      rw [Function.update_of_ne hxy]
      exact hk.2.1
    · exact h.guarded r hr
    · exact h.updates r u hur x hx
  | drop y w' hu hy hret =>
    exact h.retire (c := w.cells.forget t (some y)) hinv' (ptrs_forget _) (updates_forget _)
      (Option.isNone_iff_eq_none.mp ha) hret
  | dropNull cell p hu hp hn =>
    exact ⟨hinv', h.orderly, h.ptrs, h.guarded, h.updates⟩
  | dropAtomic cell p y w' hu hp hy hret =>
    have htemp : (w.process.stage t).temp = none := by
      unfold sheltered at ha
      simpa [hp, hy] using ha
    exact h.retire (c := w.cells.setWord cell none) hinv' rfl rfl htemp hret
  | call act c hu hc =>
    have hold : ∀ r, w.cells.updates r ≠ [] → w.process.base.guardAlive r = true := h.guarded
    have hnew : (w.cells.updates t ≠ [] ∨ ∃ cell tag, act = .updateTagIf cell tag) →
        w.process.base.guardAlive t = true := by
      rintro (hne | ⟨cell, tag, rfl⟩)
      · exact hold t hne
      · exact ha
    refine ⟨hinv', h.orderly, fun r x hx => ?_, fun r hr => ?_, fun r u hur x hx => ?_⟩
    · rcases hc.ptrs hx with hx | ⟨rfl, hg, hx⟩
      · exact h.ptrs r x hx
      · exact h.inv.kept hg hx
    · obtain ⟨u, hur⟩ := List.exists_mem_of_ne_nil _ hr
      rcases hc.updates hur with ⟨u', hu', -⟩ | ⟨rfl, hact, -⟩
      · exact hold r (List.ne_nil_of_mem hu')
      · exact hnew hact
    · rcases hc.updates hur with ⟨u', hu', hprev⟩ | ⟨rfl, hact, -, hptr⟩
      · exact hc.keeps (h.updates r u' hu' x (hprev ▸ hx))
      · exact hptr (hnew hact) x hx

/-- Nothing is retired in the beginning. -/
theorem safe_init : Safe .init where
  inv := inv_init
  orderly := .refl
  ptrs _ _ hx := by cases hx
  guarded _ hr := absurd rfl hr
  updates _ _ hu := by cases hu

/-- Every state of a sheltered run is safe. -/
theorem safe_of_run (h : ShelteredRun .init w) : Safe w :=
  h.invariant Safe safe_init fun _ _ _ hsafe ha hs => hsafe.step ha hs

end worlds

end Sdd.Proofs.AtomicOwned
