import Sdd.Proofs.AtomicOwned.Refines
import Sdd.Proofs.TaggedWord.Word

/-!
# `Sdd.Proofs.TaggedWord.Calls`: the methods of `AtomicOwned` on words

`packCells` makes one word of each pointer, and there is a lemma for each operation on the cells
that goes with it. `call_pack` is the result: a call on words has the same effect as one on
pointers, if everything that is in use is aligned. A compare-and-exchange compares words, and that
is where `pack_inj` is needed.
-/

set_option autoImplicit false

namespace Sdd.Proofs.TaggedWord

open Sdd.Collector (Tid)
open Sdd.AtomicOwned (Act CellId)
open Sdd.TaggedWord
open Sdd.Proofs.AtomicOwned (Called Uses)

variable {bits : Nat}

section cells

/-- A call of `update_tag_if`, with the word that it has loaded. -/
def packUpdate (u : AtomicOwned.Update (BitVec bits)) : Update bits :=
  ⟨u.cell, u.tag, pack u.prev, u.met⟩

/-- The handles, where each pointer is one word. -/
def packCells (c : AtomicOwned.Cells (BitVec bits)) : Cells bits where
  words := c.words.map (Option.map pack)
  owned := c.owned
  ptrs := c.ptrs
  updates t := (c.updates t).map packUpdate
  answers := c.answers

variable {c c' : AtomicOwned.Cells (BitVec bits)} {g : Bool} {t : Tid} {cell : CellId}
  {p : Ptr (BitVec bits)}

/-- The word of a cell is the packed pointer. -/
theorem word_pack : (packCells c).word cell = (c.word cell).map pack := by
  unfold AtomicOwned.Cells.word Cells.word packCells
  rw [List.getElem?_map]
  cases c.words[cell]? <;> rfl

/-- A handle has no tag, so that there is nothing to pack when a thread gets one. -/
theorem pack_give (o : Option (BitVec bits)) :
    packCells (c.give t o) = (packCells c).give t o := by
  cases o <;> rfl

/-- Nor is there when a thread gives its handle up. -/
theorem pack_forget (o : Option (BitVec bits)) :
    packCells (c.forget t o) = (packCells c).forget t o := by
  cases o with
  | none => rfl
  | some x =>
    unfold packCells AtomicOwned.Cells.forget Cells.forget
    congr

/-- A store to a cell stores the packed pointer. -/
theorem pack_setWord (o : Option (Ptr (BitVec bits))) :
    packCells (c.setWord cell o) = (packCells c).setWord cell (o.map pack) := by
  unfold packCells AtomicOwned.Cells.setWord Cells.setWord
  rw [List.map_set]

/-- The calls of `update_tag_if` hold packed words. -/
theorem pack_setUpdates (us : List (AtomicOwned.Update (BitVec bits))) :
    packCells (c.setUpdates t us) = (packCells c).setUpdates t (us.map packUpdate) := by
  unfold packCells AtomicOwned.Cells.setUpdates Cells.setUpdates
  congr 1
  funext r
  exact Function.apply_update (fun _ => List.map packUpdate) c.updates t us r

/-- A thread gets a `Ptr`: the address that it reads back from the word is the one of the pair. -/
theorem pack_point {ptr : BitVec bits} {o : Option (BitVec bits)} (h : pointee ptr = o) :
    packCells (c.point t o) = (packCells c).point t ptr := by
  subst h
  unfold Cells.point
  cases pointee ptr <;> rfl

/-- The condition is called with a word whose address is the one of the pair. -/
theorem pack_ask {u : AtomicOwned.Update (BitVec bits)}
    (h : pointee (pack u.prev) = u.prev.addr) (rest : List (AtomicOwned.Update (BitVec bits))) :
    packCells (c.ask g t u rest) =
      (packCells c).ask g t (packUpdate u) (rest.map packUpdate) := by
  unfold AtomicOwned.Cells.ask Cells.ask
  cases g with
  | false => exact pack_setUpdates _
  | true =>
    show packCells ((c.setUpdates t (u :: rest)).point t u.prev.addr) = _
    rw [pack_point h, pack_setUpdates]
    rfl

/-- Packing does not change which threads are before their compare-and-exchange. -/
theorem updating_pack : (packCells c).updating t = c.updating t := by
  unfold AtomicOwned.Cells.updating Cells.updating
  show ((c.updates t).map packUpdate).head?.any (·.met) = _
  cases c.updates t <;> rfl

/-- An exchange returns the address that it reads back from the word. -/
theorem pack_exchange (h : pointee (pack p) = p.addr) (new : Option (BitVec bits)) (tag : Tag) :
    packCells (c.exchange t cell p new tag) = (packCells c).exchange t cell (pack p) new tag := by
  unfold AtomicOwned.Cells.exchange Cells.exchange
  rw [pack_give, pack_setWord, pack_forget, h]
  rfl

/-- A thread owns the same addresses. -/
theorem owns_pack (x : BitVec bits) : (packCells c).owns t x = c.owns t x := by
  unfold AtomicOwned.Cells.owns Cells.owns
  congr

/-- What a thread owns as a pair it owns as a word. -/
theorem all_owns_pack {new : Option (BitVec bits)} (h : ∀ x ∈ new, c.owns t x = true) :
    new.all ((packCells c).owns t) = true := by
  cases new with
  | none => rfl
  | some x => exact (owns_pack x).trans (h x rfl)

end cells

section call

variable {c c' : AtomicOwned.Cells (BitVec bits)} {g : Bool} {t : Tid}

/-- A call on words has the same effect as on pointers, if everything that is in use is aligned. -/
theorem call_pack (hbits : 2 ≤ bits) (ha : ∀ x, Uses c x → Aligned x) {act : Act (BitVec bits)}
    (h : Called c g t act c') : (packCells c).call g t act = some (packCells c') := by
  have hword : ∀ {cell : CellId} {p : Ptr (BitVec bits)}, c.word cell = some p →
      (packCells c).word cell = some (pack p) ∧ ∀ x ∈ p.addr, Aligned x := fun hp =>
    ⟨by rw [word_pack, hp, Option.map_some],
      fun x hx => ha x (.inl (AtomicOwned.mem_held_of_word hp hx))⟩
  have hupdate : ∀ {u : AtomicOwned.Update (BitVec bits)}
      {rest : List (AtomicOwned.Update (BitVec bits))}, c.updates t = u :: rest →
      (packCells c).updates t = packUpdate u :: rest.map packUpdate ∧
        ∀ x ∈ u.prev.addr, Aligned x := fun {u rest} hu =>
    ⟨congrArg (List.map packUpdate) hu,
      fun x hx => ha x (.inr (.inr ⟨t, u, hu ▸ List.mem_cons_self, hx⟩))⟩
  -- The argument `current` is a `Ptr` of the thread, and so it is in use.
  have hcurrent : ∀ {p : Ptr (BitVec bits)}, (∀ x ∈ p.addr, x ∈ c.ptrs t) →
      (∀ x ∈ p.addr, Aligned x) ∧
        (pointee (pack p)).all (fun x => x ∈ (packCells c).ptrs t) = true := by
    intro p hp
    have haligned : ∀ x ∈ p.addr, Aligned x := fun x hx => ha x (.inr (.inl ⟨t, hp x hx⟩))
    rw [pointee_pack haligned, Option.all_eq_true]
    exact ⟨haligned, fun x hx => decide_eq_true (hp x hx)⟩
  have hlog : ∀ (d : AtomicOwned.Cells (BitVec bits)) (ok : Bool),
      packCells (d.log t ok) = (packCells d).log t ok := fun _ _ => rfl
  unfold Cells.call
  cases h with
  | null =>
    refine congrArg some ?_
    unfold packCells
    rw [List.map_append, List.map_singleton, Option.map_some, pack_null]
  | «from» x hx =>
    have hx' : Aligned x := ha x (.inl (AtomicOwned.mem_held_of_owns hx))
    simp only [owns_pack, hx, if_true]
    refine congrArg some ?_
    rw [← pack_forget]
    unfold packCells
    rw [List.map_append, List.map_singleton, Option.map_some, pack_untagged hx']
  | load cell p hg hp =>
    obtain ⟨hp', hok⟩ := hword hp
    rw [pack_point (pointee_pack hok)]
    simp only [hg, if_true, hp', Option.map_some]
  | getGuardedPtr x hg hx =>
    have hx' : Aligned x := ha x (.inl (AtomicOwned.mem_held_of_owns hx))
    rw [pack_point (pointee_aligned hx')]
    simp only [hg, owns_pack, hx, Bool.and_self, if_true]
  | swap cell new tag p hnew hp =>
    obtain ⟨hp', hok⟩ := hword hp
    rw [pack_exchange (pointee_pack hok)]
    simp only [all_owns_pack hnew, if_true, hp', Option.map_some]
  | exchange cell new tag p hg hnew hcur hp =>
    obtain ⟨hp', hok⟩ := hword hp
    have hnew' : pointee (desired new tag) = new :=
      pointee_pack (p := ⟨new, tag⟩) fun x hx =>
        ha x (.inl (AtomicOwned.mem_held_of_owns (hnew x hx)))
    rw [hlog, pack_point hnew', pack_exchange (pointee_pack hok)]
    simp only [hg, all_owns_pack hnew, (hcurrent hcur).2, Bool.and_self, if_true, hp',
      Option.map_some, and_self]
  | exchangeFail cell current new tag spurious p hg hnew hcur hp hne =>
    obtain ⟨hp', hok⟩ := hword hp
    obtain ⟨hcurok, hcur'⟩ := hcurrent hcur
    -- Words that are equal are of equal pointers, so that this comparison fails as well.
    have hne' : ¬(pack p = pack current ∧ spurious = false) := by
      rw [pack_inj hbits hok hcurok]
      exact hne
    rw [hlog, pack_point (pointee_pack hok)]
    simp only [hg, all_owns_pack hnew, hcur', Bool.and_self, if_true, hp', Option.map_some,
      if_neg hne']
  | updateTagIf cell tag p hp =>
    obtain ⟨hp', hok⟩ := hword hp
    rw [pack_ask (pointee_pack hok)]
    simp only [hp', Option.map_some]
    rfl
  | met u rest hu =>
    obtain ⟨hu', -⟩ := hupdate hu
    rw [pack_setUpdates]
    simp only [hu', if_true]
    rfl
  | unmet u rest hu =>
    obtain ⟨hu', -⟩ := hupdate hu
    rw [hlog, pack_setUpdates]
    simp only [hu', Bool.false_eq_true, if_false]
  | update u rest hu hp =>
    -- Only the tag of the word that was loaded is replaced.
    obtain ⟨hu', -⟩ := hupdate hu
    obtain ⟨hp', -⟩ := hword hp
    have hcell : (packCells c).word (packUpdate u).cell = some (pack u.prev) := hp'
    rw [hlog, pack_setUpdates, pack_setWord, Option.map_some, pack_withTag]
    simp only [hu', hcell, Option.map_some]
    exact congrArg some (if_pos ⟨rfl, trivial⟩)
  | updateFail u rest spurious p hu hp hne =>
    obtain ⟨hu', huok⟩ := hupdate hu
    obtain ⟨hp', hok⟩ := hword hp
    have hcell : (packCells c).word (packUpdate u).cell = some (pack p) := hp'
    have hne' : ¬(pack p = (packUpdate u).prev ∧ spurious = false) := by
      rw [show (packUpdate u).prev = pack u.prev from rfl, pack_inj hbits hok huok]
      exact hne
    rw [pack_ask (pointee_pack hok)]
    simp only [hu', hcell, Option.map_some, if_neg hne']
    rfl
  | intoOwned cell p hp =>
    obtain ⟨hp', hok⟩ := hword hp
    rw [pack_give, pack_setWord]
    simp only [hp', Option.map_some, pointee_pack hok]
    rfl
  | send x receiver hx =>
    rw [pack_give, pack_forget]
    simp only [owns_pack, hx, if_true]

end call

end Sdd.Proofs.TaggedWord
