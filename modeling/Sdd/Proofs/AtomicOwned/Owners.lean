import Sdd.AtomicOwned
import Sdd.Proofs.Exit.Garbage

/-!
# `Sdd.Proofs.AtomicOwned.Owners`: every instance has one owner

`Called` and `Stepped` say what a call and an action can do. `held` lists what the words and the
`Owned` handles point to, and each call only moves that between them (`Called.perm`). Together with
the instances that the collector has not dropped yet these are the `owners` of the memory. `Inv`
says that an address is allocated if and only if it is on this list, and that no address is on it
twice. The collector drops an instance once, so that its memory is freed once (`Inv.proceed`).

`single_owner` is the main result, for every run, with threads that suspend and exit.
-/

set_option autoImplicit false

namespace Sdd.Proofs.AtomicOwned

open Sdd.Collector (CollectorId Garbage InstId Tid)
open Sdd.AtomicOwned Sdd.Lib Sdd.Proofs.Exit List

/-! ## The handles -/

section cells

variable {A : Type}

/-- What the word of a handle points to. -/
def pointee (p : Option (Ptr A)) : List A := (p.bind (·.addr)).toList

/-- What the words and the `Owned` handles point to. -/
def held (c : Cells A) : List A := c.words.flatMap pointee ++ c.owned.map (·.2)

variable {c c' : Cells A} {g : Bool} {t : Tid} {cell : CellId}

/-- What a cell holds, in terms of the list of words. -/
theorem word_eq {p : Ptr A} :
    c.word cell = some p ↔ c.words[cell]? = some (some p) := by
  unfold Cells.word
  cases c.words[cell]? with
  | none => simp
  | some q => simp

/-- A handle that a thread gets. -/
theorem held_give (o : Option A) : held (c.give t o) ~ o.toList ++ held c := by
  cases o with
  | none => exact .refl _
  | some x => exact List.perm_middle

/-- A `Ptr` is not a handle. -/
@[simp] theorem held_point (o : Option A) : held (c.point t o) = held c := by
  cases o <;> rfl

/-- A call of `update_tag_if` holds nothing. -/
@[simp] theorem held_setUpdates (us : List (Update A)) : held (c.setUpdates t us) = held c := rfl

/-- An answer holds nothing. -/
@[simp] theorem held_log (ok : Bool) : held (c.log t ok) = held c := rfl

/-- The handles do not depend on guards. -/
@[simp] theorem held_expire (alive : Tid → Bool) : held (c.expire alive) = held c := rfl

/-- The call of a condition holds nothing. -/
@[simp] theorem held_ask (u : Update A) (rest : List (Update A)) :
    held (c.ask g t u rest) = held c := by
  unfold Cells.ask
  rw [held_point, held_setUpdates]

variable [DecidableEq A]

/-- A word is replaced. -/
theorem held_setWord {p : Ptr A} (h : c.word cell = some p) (q : Option (Ptr A)) :
    p.addr.toList ++ held (c.setWord cell q) ~ pointee q ++ held c := by
  obtain ⟨hlt, hp⟩ := List.getElem?_eq_some_iff.mp (word_eq.mp h)
  have hold : c.words = c.words.take cell ++ some p :: c.words.drop (cell + 1) := by
    rw [← hp, List.getElem_cons_drop, List.take_append_drop]
  have hnew : c.words.set cell q = c.words.take cell ++ q :: c.words.drop (cell + 1) :=
    List.set_eq_take_append_cons_drop ▸ if_pos hlt
  have hw : c.words.flatMap pointee = (c.words.take cell).flatMap pointee ++
      (p.addr.toList ++ (c.words.drop (cell + 1)).flatMap pointee) := by
    conv_lhs => rw [hold, List.flatMap_append, List.flatMap_cons]
    rfl
  have hw' : (c.words.set cell q).flatMap pointee = (c.words.take cell).flatMap pointee ++
      (pointee q ++ (c.words.drop (cell + 1)).flatMap pointee) := by
    rw [hnew, List.flatMap_append, List.flatMap_cons]
  unfold held Cells.setWord
  rw [hw, hw']
  refine List.perm_iff_count.mpr fun x => ?_
  simp only [List.count_append]
  omega

/-- A handle that a thread forgets. -/
theorem held_forget {o : Option A} (h : ∀ x ∈ o, c.owns t x = true) :
    o.toList ++ held (c.forget t o) ~ held c := by
  cases o with
  | none => exact .refl _
  | some x =>
    have hmem : (t, x) ∈ c.owned := of_decide_eq_true (h x rfl)
    have hp : c.owned.map (·.2) ~ x :: (c.owned.erase (t, x)).map (·.2) :=
      (List.perm_cons_erase hmem).map Prod.snd
    have hq : held c ~ c.words.flatMap pointee ++ x :: (c.owned.erase (t, x)).map (·.2) :=
      hp.append_left _
    exact (hq.trans List.perm_middle).symm

/-- A handle that is given up is not in a cell. -/
@[simp] theorem word_forget (o : Option A) : (c.forget t o).word cell = c.word cell := by
  cases o <;> rfl

/-- An exchange of a word moves the instances. -/
theorem held_exchange {prev : Ptr A} {new : Option A} {tag : Tag} (hw : c.word cell = some prev)
    (h : ∀ x ∈ new, c.owns t x = true) : held (c.exchange t cell prev new tag) ~ held c := by
  have hforget := held_forget h
  have hword : (c.forget t new).word cell = some prev := by
    rw [word_forget, hw]
  have hset := held_setWord hword (some ⟨new, tag⟩)
  have hgive := held_give (c := (c.forget t new).setWord cell (some ⟨new, tag⟩)) (t := t) prev.addr
  exact (hgive.trans hset).trans hforget

/-- A call, or a step of `update_tag_if`, with the branches of `Cells.call` resolved. -/
inductive Called (c : Cells A) (g : Bool) (t : Tid) : Act A → Cells A → Prop where
  | null : Called c g t .null { c with words := c.words ++ [some .null] }
  | from (x : A) (hx : c.owns t x = true) :
      Called c g t (.from x)
        { c.forget t (some x) with words := c.words ++ [some ⟨some x, .none⟩] }
  | load (cell : CellId) (p : Ptr A) (hg : g = true) (hp : c.word cell = some p) :
      Called c g t (.load cell) (c.point t p.addr)
  | getGuardedPtr (x : A) (hg : g = true) (hx : c.owns t x = true) :
      Called c g t (.getGuardedPtr x) (c.point t (some x))
  | swap (cell : CellId) (new : Option A) (tag : Tag) (p : Ptr A)
      (hnew : ∀ x ∈ new, c.owns t x = true) (hp : c.word cell = some p) :
      Called c g t (.swap cell new tag) (c.exchange t cell p new tag)
  /-- A compare-and-exchange that succeeds. -/
  | exchange (cell : CellId) (new : Option A) (tag : Tag) (p : Ptr A) (hg : g = true)
      (hnew : ∀ x ∈ new, c.owns t x = true) (hcur : ∀ x ∈ p.addr, x ∈ c.ptrs t)
      (hp : c.word cell = some p) :
      Called c g t (.compareExchange cell p new tag false)
        (((c.exchange t cell p new tag).point t new).log t true)
  | exchangeFail (cell : CellId) (current : Ptr A) (new : Option A) (tag : Tag) (spurious : Bool)
      (p : Ptr A) (hg : g = true) (hnew : ∀ x ∈ new, c.owns t x = true)
      (hcur : ∀ x ∈ current.addr, x ∈ c.ptrs t) (hp : c.word cell = some p)
      (hne : ¬(p = current ∧ spurious = false)) :
      Called c g t (.compareExchange cell current new tag spurious)
        ((c.point t p.addr).log t false)
  | updateTagIf (cell : CellId) (tag : Tag) (p : Ptr A) (hp : c.word cell = some p) :
      Called c g t (.updateTagIf cell tag) (c.ask g t ⟨cell, tag, p, false⟩ (c.updates t))
  | met (u : Update A) (rest : List (Update A)) (hu : c.updates t = u :: rest) :
      Called c g t (.answer true) (c.setUpdates t ({ u with met := true } :: rest))
  | unmet (u : Update A) (rest : List (Update A)) (hu : c.updates t = u :: rest) :
      Called c g t (.answer false) ((c.setUpdates t rest).log t false)
  /-- The compare-and-exchange of `update_tag_if` succeeds. -/
  | update (u : Update A) (rest : List (Update A)) (hu : c.updates t = u :: rest)
      (hp : c.word u.cell = some u.prev) :
      Called c g t (.updateTag false)
        (((c.setWord u.cell (some (u.prev.withTag u.tag))).setUpdates t rest).log t true)
  | updateFail (u : Update A) (rest : List (Update A)) (spurious : Bool) (p : Ptr A)
      (hu : c.updates t = u :: rest) (hp : c.word u.cell = some p)
      (hne : ¬(p = u.prev ∧ spurious = false)) :
      Called c g t (.updateTag spurious) (c.ask g t { u with prev := p, met := false } rest)
  | intoOwned (cell : CellId) (p : Ptr A) (hp : c.word cell = some p) :
      Called c g t (.intoOwned cell) ((c.setWord cell none).give t p.addr)
  | send (x : A) (receiver : Tid) (hx : c.owns t x = true) :
      Called c g t (.send x receiver) ((c.forget t (some x)).give receiver (some x))

/-- The handle that a call may take is one of the thread. -/
theorem all_owns {new : Option A} : new.all (c.owns t) = true ↔ ∀ x ∈ new, c.owns t x = true := by
  cases new <;> simp

/-- Each call is one of the cases. -/
theorem called_of_call {act : Act A} (h : c.call g t act = some c') : Called c g t act c' := by
  cases act with
  | process act => cases h
  | new x => cases h
  | drop x => cases h
  | dropAtomic cell => cases h
  | null =>
    cases h
    exact .null
  | «from» x =>
    obtain ⟨hx, h⟩ := Option.ite_none_right_eq_some.mp h
    cases h
    exact .from x hx
  | load cell =>
    obtain ⟨hg, h⟩ := Option.ite_none_right_eq_some.mp h
    obtain ⟨p, hp, rfl⟩ := Option.map_eq_some_iff.mp h
    exact .load cell p hg hp
  | getGuardedPtr x =>
    obtain ⟨hok, h⟩ := Option.ite_none_right_eq_some.mp h
    rw [Bool.and_eq_true] at hok
    cases h
    exact .getGuardedPtr x hok.1 hok.2
  | swap cell new tag =>
    obtain ⟨hnew, h⟩ := Option.ite_none_right_eq_some.mp h
    obtain ⟨p, hp, rfl⟩ := Option.map_eq_some_iff.mp h
    exact .swap cell new tag p (all_owns.mp hnew) hp
  | compareExchange cell current new tag spurious =>
    obtain ⟨hok, h⟩ := Option.ite_none_right_eq_some.mp h
    obtain ⟨p, hp, rfl⟩ := Option.map_eq_some_iff.mp h
    simp only [Bool.and_eq_true] at hok
    obtain ⟨⟨hg, hnew⟩, hcur⟩ := hok
    have hptrs : ∀ x ∈ current.addr, x ∈ c.ptrs t := by
      intro x hx
      rw [Option.mem_def.mp hx] at hcur
      exact of_decide_eq_true hcur
    -- The comparison decides which of the two outcomes the step has.
    split
    · rename_i heq
      obtain ⟨rfl, rfl⟩ := heq
      exact .exchange cell new tag p hg (all_owns.mp hnew) hptrs hp
    · rename_i hne
      exact .exchangeFail cell current new tag spurious p hg (all_owns.mp hnew) hptrs hp hne
  | updateTagIf cell tag =>
    obtain ⟨p, hp, rfl⟩ := Option.map_eq_some_iff.mp h
    exact .updateTagIf cell tag p hp
  | answer ok =>
    simp only [Cells.call] at h
    split at h
    · cases h
    -- The answer belongs to the innermost call that asks.
    · rename_i u rest hu
      cases ok with
      | true =>
        cases h
        exact .met u rest hu
      | false =>
        cases h
        exact .unmet u rest hu
  | updateTag spurious =>
    simp only [Cells.call] at h
    split at h
    · cases h
    · rename_i u rest hu
      obtain ⟨p, hp, rfl⟩ := Option.map_eq_some_iff.mp h
      -- As in compare_exchange, the comparison decides.
      split
      · rename_i heq
        obtain ⟨rfl, rfl⟩ := heq
        exact .update u rest hu hp
      · rename_i hne
        exact .updateFail u rest spurious p hu hp hne
  | intoOwned cell =>
    obtain ⟨p, hp, rfl⟩ := Option.map_eq_some_iff.mp h
    exact .intoOwned cell p hp
  | send x receiver =>
    obtain ⟨hx, h⟩ := Option.ite_none_right_eq_some.mp h
    cases h
    exact .send x receiver hx

/-- Each of the cases is a call. -/
theorem Called.call_eq {act : Act A} (h : Called c g t act c') : c.call g t act = some c' := by
  cases h with
  | null => rfl
  | «from» x hx => exact if_pos hx
  | load cell p hg hp =>
    simp only [Cells.call, hg, hp, if_true, Option.map_some]
  | getGuardedPtr x hg hx =>
    subst hg
    exact if_pos hx
  | swap cell new tag p hnew hp =>
    simp only [Cells.call, all_owns.mpr hnew, hp, if_true, Option.map_some]
  | exchange cell new tag p hg hnew hcur hp =>
    have hptrs : p.addr.all (fun x => decide (x ∈ c.ptrs t)) = true := by
      rw [Option.all_eq_true]
      exact fun x hx => decide_eq_true (hcur x hx)
    simp only [Cells.call, all_owns.mpr hnew, hp, hg, hptrs, Bool.and_self, if_true,
      Option.map_some, and_self]
  | exchangeFail cell current new tag spurious p hg hnew hcur hp hne =>
    have hptrs : current.addr.all (fun x => decide (x ∈ c.ptrs t)) = true := by
      rw [Option.all_eq_true]
      exact fun x hx => decide_eq_true (hcur x hx)
    simp only [Cells.call, all_owns.mpr hnew, hp, hg, hptrs, Bool.and_self, if_true,
      Option.map_some, if_neg hne]
  | updateTagIf cell tag p hp => simp only [Cells.call, hp, Option.map_some]
  | met u rest hu => simp only [Cells.call, hu, if_true]
  | unmet u rest hu => simp only [Cells.call, hu, Bool.false_eq_true, if_false]
  | update u rest hu hp => simp only [Cells.call, hu, hp, Option.map_some, and_self, if_true]
  | updateFail u rest spurious p hu hp hne =>
    simp only [Cells.call, hu, hp, Option.map_some, if_neg hne]
  | intoOwned cell p hp => simp only [Cells.call, hp, Option.map_some]
  | send x receiver hx => exact if_pos hx

/-- A call keeps the instances. -/
theorem Called.perm {act : Act A} (h : Called c g t act c') : held c' ~ held c := by
  cases h with
  | null =>
    refine .of_eq ?_
    simp [held, pointee]
  | «from» x hx =>
    -- The handle leaves the thread for the structure, so the list of what is held is a permutation.
    have hforget := held_forget (c := c) (t := t) (o := some x) fun y hy => by
      cases hy
      exact hx
    refine .trans (List.perm_iff_count.mpr fun y => ?_) hforget
    simp only [held, List.flatMap_append, List.flatMap_cons, List.flatMap_nil,
      List.count_append, pointee, Option.bind_some, Option.toList_some, Cells.forget,
      List.append_nil]
    omega
  | swap cell new tag p hnew hp => exact held_exchange hp hnew
  | exchange cell new tag p hg hnew hcur hp =>
    rw [held_log, held_point]
    exact held_exchange hp hnew
  | update u rest hu hp =>
    rw [held_log, held_setUpdates]
    -- The word keeps its address and changes its tag, so it owns what it owned.
    exact (List.perm_append_left_iff u.prev.addr.toList).mp
      (held_setWord hp (some (u.prev.withTag u.tag)))
  | intoOwned cell p hp => exact (held_give _).trans (held_setWord hp none)
  | send x receiver hx =>
    -- The handle goes from one thread to the other.
    refine (held_give _).trans (held_forget fun y hy => ?_)
    cases hy
    exact hx
  | load | getGuardedPtr => rw [held_point]
  | exchangeFail => rw [held_log, held_point]
  | updateTagIf | updateFail => rw [held_ask]
  | met | unmet => exact .refl _

end cells

/-! ## The worlds -/

section worlds

variable {w w' : World}

/-- What points to an instance that is not dropped: a word, an `Owned` handle, or a list of the
collector. -/
def owners (w : World) : List Address :=
  held w.cells ++ (garbage w.process).filterMap w.retired

/-- The invariant of the memory. -/
structure Inv (w : World) : Prop where
  process : Run Process.step (fun _ _ => True) .init w.process
  retired : ∀ i, w.process.base.nextInst ≤ i → w.retired i = none
  nodup : (owners w).Nodup
  owned : ∀ x, x ∈ owners w ↔ (w.memory x).isSome
  serial : ∀ x s, w.memory x = some s → s < w.nextSerial
  inj : ∀ x y s, w.memory x = some s → w.memory y = some s → x = y
  once : w.freed.Nodup
  freed : ∀ o, o ∈ w.freed ↔ ∃ s, o = some s ∧ s < w.nextSerial ∧ ∀ x, w.memory x ≠ some s

/-- The owners change places. -/
theorem Inv.perm (h : Inv w) {c : Cells Address} {p : Process} {r : InstId → Option Address}
    (hp : Run Process.step (fun _ _ => True) .init p)
    (hr : ∀ i, p.base.nextInst ≤ i → r i = none)
    (ho : held c ++ (garbage p).filterMap r ~ owners w) :
    Inv { w with cells := c, process := p, retired := r } where
  process := hp
  retired := hr
  nodup := ho.nodup_iff.mpr h.nodup
  owned x := ho.mem_iff.trans (h.owned x)
  serial := h.serial
  inj := h.inj
  once := h.once
  freed := h.freed

/-- A handle is consumed, and its instance retired. -/
theorem Inv.retire (h : Inv w) {c : Cells Address} {t : Tid} {x : Address}
    (hc : x :: held c ~ held w.cells) (hs : World.retire { w with cells := c } t x = some w') :
    Inv w' := by
  obtain ⟨p, hp, rfl⟩ := Option.map_eq_some_iff.mp hs
  obtain ⟨hnext, hdrop, -⟩ := process_collect hp
  have hrun : Run Process.step (fun _ _ => True) .init p := h.process.tail _ trivial hp
  have hlt := (dropped_of_run h.process).2
  have hgarbage : garbage p = garbage w.process ++ [w.process.base.nextInst] := by
    unfold garbage
    rw [hnext, hdrop, List.range_succ, List.filter_append, List.filter_singleton]
    have hnot : w.process.base.nextInst ∉ w.process.base.dropped :=
      fun hi => Nat.lt_irrefl _ (hlt _ hi)
    simp [hnot]
  have hold : (garbage w.process).filterMap
      (Function.update w.retired w.process.base.nextInst (some x)) =
        (garbage w.process).filterMap w.retired := by
    refine List.filterMap_congr fun i hi => ?_
    have hi : i < w.process.base.nextInst := List.mem_range.mp (List.mem_of_mem_filter hi)
    rw [Function.update_of_ne (Nat.ne_of_lt hi)]
  refine h.perm hrun (fun i (hi : p.base.nextInst ≤ i) => ?_) ?_
  · show Function.update w.retired w.process.base.nextInst (some x) i = none
    rw [hnext] at hi
    have hlt : w.process.base.nextInst < i := hi
    rw [Function.update_of_ne (Nat.ne_of_gt hlt)]
    exact h.retired i (Nat.le_of_lt hlt)
  · show held c ++ (garbage p).filterMap (Function.update w.retired w.process.base.nextInst
      (some x)) ~ owners w
    rw [hgarbage, List.filterMap_append, hold]
    simp only [List.filterMap_cons, List.filterMap_nil, Function.update_self]
    refine .trans ?_ (hc.append_right _)
    refine List.perm_iff_count.mpr fun y => ?_
    simp only [List.count_append, List.count_cons, List.count_nil]
    omega

/-- What a step of the collector drops. -/
theorem dropped_eq {a : Process.Action} {p : Process} (hs : w.process.step a = some p) :
    p.base.dropped = w.dropping p ++ w.process.base.dropped := by
  obtain ⟨-, l, hl⟩ := process_step hs
  unfold World.dropping
  rw [← hl, List.length_append, Nat.add_sub_cancel, List.take_left]

/-- The memory is freed of what the collector has dropped. -/
theorem Inv.proceed (h : Inv w) {a : Process.Action} {p : Process}
    (hs : w.process.step a = some p) : Inv (w.proceed p) := by
  have hrun : Run Process.step (fun _ _ => True) .init p := h.process.tail _ trivial hs
  have hle := (process_step hs).1
  obtain ⟨hnodup, hlt⟩ := dropped_of_run hrun
  have hperm := garbage_step hnodup hlt hle (dropped_eq hs) h.retired
  have howners : (w.dropping p).filterMap w.retired ++ owners (w.proceed p) ~ owners w := by
    refine .trans ?_ (hperm.append_left (held w.cells))
    refine List.perm_iff_count.mpr fun y => ?_
    simp only [owners, World.proceed, held_expire, List.count_append]
    omega
  have hmem : ∀ x, (w.proceed p).memory x =
      if x ∈ (w.dropping p).filterMap w.retired then none else w.memory x := fun _ => rfl
  have hfreed : (w.proceed p).freed =
      ((w.dropping p).filterMap w.retired).map w.memory ++ w.freed := rfl
  generalize (w.dropping p).filterMap w.retired = free at howners hmem hfreed
  obtain ⟨hfree, hown, hdisj⟩ := List.nodup_append.mp (howners.nodup_iff.mpr h.nodup)
  have hwas : ∀ x ∈ free, (w.memory x).isSome := fun x hx =>
    (h.owned x).mp (howners.mem_iff.mp (List.mem_append_left _ hx))
  have hkept : ∀ x s, (w.proceed p).memory x = some s → x ∉ free ∧ w.memory x = some s := by
    intro x s hx
    rw [hmem] at hx
    split at hx
    · cases hx
    · exact ⟨by assumption, hx⟩
  refine
    { process := hrun
      retired := fun i hi => h.retired i (Nat.le_trans hle hi)
      nodup := hown
      owned := fun x => ?_
      serial := fun x s hx => h.serial x s (hkept x s hx).2
      inj := fun x y s hx hy => h.inj x y s (hkept x s hx).2 (hkept y s hy).2
      once := ?_
      freed := fun o => ?_ }
  · rw [hmem]
    by_cases hx : x ∈ free
    · rw [if_pos hx]
      exact iff_of_false (fun hx' => hdisj x hx x hx' rfl) (by simp)
    · rw [if_neg hx, ← h.owned x, ← howners.mem_iff, List.mem_append]
      exact ⟨.inr, fun hor => hor.resolve_left hx⟩
  · rw [hfreed]
    refine List.nodup_append.mpr ⟨?_, h.once, ?_⟩
    · refine List.Nodup.map_on (fun x hx y _ hxy => ?_) hfree
      obtain ⟨s, hs⟩ := Option.isSome_iff_exists.mp (hwas x hx)
      exact h.inj x y s hs (hxy.symm.trans hs)
    · rintro o ho o' ho' rfl
      obtain ⟨x, -, rfl⟩ := List.mem_map.mp ho
      obtain ⟨s, hs, -, hnone⟩ := (h.freed _).mp ho'
      exact hnone x hs
  · rw [hfreed, List.mem_append, List.mem_map]
    constructor
    · rintro (⟨x, hx, rfl⟩ | ho)
      · obtain ⟨s, hs⟩ := Option.isSome_iff_exists.mp (hwas x hx)
        refine ⟨s, hs, h.serial x s hs, fun y hy => ?_⟩
        obtain ⟨hnot, hy⟩ := hkept y s hy
        exact hnot (h.inj x y s hs hy ▸ hx)
      · obtain ⟨s, rfl, hlts, hnone⟩ := (h.freed o).mp ho
        exact ⟨s, rfl, hlts, fun x hx => hnone x (hkept x s hx).2⟩
    · rintro ⟨s, rfl, hlts, hnone⟩
      by_cases hex : ∃ x, w.memory x = some s
      · obtain ⟨x, hx⟩ := hex
        refine .inl ⟨x, ?_, hx⟩
        by_contra hnot
        refine hnone x ?_
        rw [hmem, if_neg hnot, hx]
      · exact .inr ((h.freed _).mpr ⟨s, rfl, hlts, fun x hx => hex ⟨x, hx⟩⟩)

/-- Memory is allocated for a new instance. -/
theorem Inv.new (h : Inv w) {t : Tid} {x : Address} (hx : w.memory x = none) :
    Inv { w with
      cells := w.cells.give t (some x)
      memory := Function.update w.memory x (some w.nextSerial)
      nextSerial := w.nextSerial + 1 } := by
  have howners : held (w.cells.give t (some x)) ++ (garbage w.process).filterMap w.retired ~
      x :: owners w := (held_give (some x)).append_right _
  have hnot : x ∉ owners w := by
    rw [h.owned, hx]
    exact Bool.false_ne_true
  have hcases : ∀ y s, Function.update w.memory x (some w.nextSerial) y = some s →
      y = x ∧ s = w.nextSerial ∨ y ≠ x ∧ w.memory y = some s := by
    intro y s hy
    by_cases hyx : y = x
    · subst hyx
      rw [Function.update_self] at hy
      exact .inl ⟨rfl, (Option.some.inj hy).symm⟩
    · rw [Function.update_of_ne hyx] at hy
      exact .inr ⟨hyx, hy⟩
  refine
    { process := h.process
      retired := h.retired
      nodup := howners.nodup_iff.mpr (List.nodup_cons.mpr ⟨hnot, h.nodup⟩)
      owned := fun y => howners.mem_iff.trans ?_
      serial := fun y s hy => ?_
      inj := fun y z s hy hz => ?_
      once := h.once
      freed := fun o => (h.freed o).trans ?_ }
  · show y ∈ x :: owners w ↔ (Function.update w.memory x (some w.nextSerial) y).isSome = true
    rw [List.mem_cons, h.owned]
    by_cases hyx : y = x
    · subst hyx
      rw [Function.update_self]
      exact iff_of_true (.inl rfl) rfl
    · rw [Function.update_of_ne hyx]
      exact ⟨fun hor => hor.resolve_left hyx, .inr⟩
  · rcases hcases y s hy with ⟨-, rfl⟩ | ⟨-, hy⟩
    · exact Nat.lt_succ_self _
    · exact Nat.lt_succ_of_lt (h.serial y s hy)
  · rcases hcases y s hy with ⟨hyx, hs⟩ | ⟨-, hy⟩ <;> rcases hcases z s hz with ⟨hzx, hs'⟩ | ⟨-, hz⟩
    · exact hyx.trans hzx.symm
    · exact absurd (h.serial z s hz) (hs ▸ Nat.lt_irrefl _)
    · exact absurd (h.serial y s hy) (hs' ▸ Nat.lt_irrefl _)
    · exact h.inj y z s hy hz
  · constructor
    · rintro ⟨s, rfl, hlt, hnone⟩
      refine ⟨s, rfl, Nat.lt_succ_of_lt hlt, fun y hy => ?_⟩
      rcases hcases y s hy with ⟨-, rfl⟩ | ⟨-, hy⟩
      · exact Nat.lt_irrefl _ hlt
      · exact hnone y hy
    · rintro ⟨s, rfl, hlt, hnone⟩
      have hne : s ≠ w.nextSerial := by
        rintro rfl
        exact hnone x (Function.update_self x _ _)
      refine ⟨s, rfl, Nat.lt_of_le_of_ne (Nat.le_of_lt_succ hlt) hne, fun y hy => ?_⟩
      have hyx : y ≠ x := by
        rintro rfl
        rw [hx] at hy
        cases hy
      exact hnone y (by
        show Function.update w.memory x (some w.nextSerial) y = some s
        rw [Function.update_of_ne hyx, hy])

/-- A call moves instances between the handles. -/
theorem Inv.called (h : Inv w) {g : Bool} {t : Tid} {act : Act Address} {c : Cells Address}
    (hc : Called w.cells g t act c) : Inv { w with cells := c } :=
  h.perm h.process h.retired (hc.perm.append_right _)

/-- What an action does, with the branches of `World.step` resolved. -/
inductive Stepped (w : World) (t : Tid) : Act Address → World → Prop where
  | process (act : Process.Act) (p : Process) (hs : w.process.step ⟨t, act⟩ = some p) :
      Stepped w t (.process act) (w.proceed p)
  | new (x : Address) (hu : user w.process t = true) (hx : w.memory x = none) :
      Stepped w t (.new x) { w with
        cells := w.cells.give t (some x)
        memory := Function.update w.memory x (some w.nextSerial)
        nextSerial := w.nextSerial + 1 }
  | drop (x : Address) (w' : World) (hu : user w.process t = true) (hx : w.cells.owns t x = true)
      (hs : { w with cells := w.cells.forget t (some x) }.retire t x = some w') :
      Stepped w t (.drop x) w'
  | dropNull (cell : CellId) (p : Ptr Address) (hu : user w.process t = true)
      (hp : w.cells.word cell = some p) (hn : p.addr = none) :
      Stepped w t (.dropAtomic cell) { w with cells := w.cells.setWord cell none }
  | dropAtomic (cell : CellId) (p : Ptr Address) (x : Address) (w' : World)
      (hu : user w.process t = true) (hp : w.cells.word cell = some p) (hx : p.addr = some x)
      (hs : { w with cells := w.cells.setWord cell none }.retire t x = some w') :
      Stepped w t (.dropAtomic cell) w'
  | call (act : Act Address) (c : Cells Address) (hu : user w.process t = true)
      (hc : Called w.cells (w.process.base.guardAlive t) t act c) :
      Stepped w t act { w with cells := c }

/-- Each step is one of the cases. -/
theorem stepped_of_step {a : Action Address} (h : w.step a = some w') :
    Stepped w a.tid a.act w' := by
  obtain ⟨t, act⟩ := a
  obtain ⟨-, h⟩ := Option.ite_none_right_eq_some.mp h
  have hcall : ∀ b : Act Address, (if user w.process t then
      (w.cells.call (w.process.base.guardAlive t) t b).map fun c => { w with cells := c }
      else none) = some w' → Stepped w t b w' := by
    intro b hb
    obtain ⟨hu, hb⟩ := Option.ite_none_right_eq_some.mp hb
    obtain ⟨c, hc, rfl⟩ := Option.map_eq_some_iff.mp hb
    exact .call b c hu (called_of_call hc)
  cases act with
  | process act =>
    obtain ⟨p, hp, rfl⟩ := Option.map_eq_some_iff.mp h
    exact .process act p hp
  | new x =>
    obtain ⟨hok, h⟩ := Option.ite_none_right_eq_some.mp h
    rw [Bool.and_eq_true, Option.isNone_iff_eq_none] at hok
    cases h
    exact .new x hok.1 hok.2
  | drop x =>
    obtain ⟨hok, h⟩ := Option.ite_none_right_eq_some.mp h
    rw [Bool.and_eq_true] at hok
    exact .drop x w' hok.1 hok.2 h
  | dropAtomic cell =>
    obtain ⟨hu, h⟩ := Option.ite_none_right_eq_some.mp h
    obtain ⟨p, hp, h⟩ := Option.bind_eq_some_iff.mp h
    split at h
    · rename_i hn
      cases h
      exact .dropNull cell p hu hp hn
    · rename_i x hx
      exact .dropAtomic cell p x w' hu hp hx h
  | null => exact hcall .null h
  | «from» x => exact hcall (.from x) h
  | load cell => exact hcall (.load cell) h
  | getGuardedPtr x => exact hcall (.getGuardedPtr x) h
  | swap cell new tag => exact hcall (.swap cell new tag) h
  | compareExchange cell current new tag spurious =>
    exact hcall (.compareExchange cell current new tag spurious) h
  | updateTagIf cell tag => exact hcall (.updateTagIf cell tag) h
  | answer ok => exact hcall (.answer ok) h
  | updateTag spurious => exact hcall (.updateTag spurious) h
  | intoOwned cell => exact hcall (.intoOwned cell) h
  | send x receiver => exact hcall (.send x receiver) h

/-- Every action keeps the invariant. -/
theorem inv_step (h : Inv w) {a : Action Address} (hs : w.step a = some w') : Inv w' := by
  obtain ⟨t, act⟩ := a
  have hstep : Stepped w t act w' := stepped_of_step hs
  cases hstep with
  | process act p hp => exact h.proceed hp
  | new x hu hx => exact h.new hx
  | drop x w' hu hx hret =>
    exact h.retire (held_forget (o := some x) fun y hy => by
      cases hy
      exact hx) hret
  | dropNull cell p hu hp hn =>
    refine h.perm h.process h.retired (.append_right _ ?_)
    have hset := held_setWord hp none
    rw [hn] at hset
    exact hset
  | dropAtomic cell p x w' hu hp hx hret =>
    have hset := held_setWord hp none
    rw [hx] at hset
    exact h.retire hset hret
  | call act c hu hc => exact h.called hc

/-- At the start there is nothing. -/
theorem inv_init : Inv .init where
  process := .refl
  retired _ _ := rfl
  nodup := List.nodup_nil
  owned _ := iff_of_false List.not_mem_nil Bool.false_ne_true
  serial _ _ hx := by cases hx
  inj _ _ _ hx := by cases hx
  once := List.nodup_nil
  freed o := iff_of_false List.not_mem_nil fun ⟨_, _, hlt, _⟩ => Nat.not_lt_zero _ hlt

/-- Every state of a run has the invariant. -/
theorem inv_of_run {P : World → Action Address → Prop} (h : Run World.step P .init w) : Inv w :=
  h.invariant Inv inv_init fun _ _ _ hinv _ hs => inv_step hinv hs

/-- For the concrete runs: steps of the collector. -/
def collecting (t : Tid) (acts : List Collector.Act) : List (Action Address) :=
  acts.map fun act => ⟨t, .process (.base act)⟩

/-- A thread gets a collector. -/
def register (t : Tid) : List (Action Address) := collecting t [.alloc, .proceed]

/-- A thread creates a guard; `n` is the number of instances that are dropped. -/
def guard (t : Tid) (n : Nat) : List (Action Address) :=
  collecting t (.newGuard :: .proceed :: List.replicate n .proceed)

/-- A thread ends its guard with a scan. -/
def scan (t : Tid) (n : Nat) : List (Action Address) :=
  collecting t (.accelerate :: .endGuard :: List.replicate n .proceed)

end worlds

end Sdd.Proofs.AtomicOwned
