import Sdd.TaggedWord

/-!
# `Sdd.Proofs.TaggedWord.Word`: the two parts of a word

The tag is in the two low bits of a word, and the address in the others. `intoTag_updateTag` and
`unsetTag_updateTag` say that neither part gets in the way of the other. `pack_reads` is the result:
a pointer to an aligned address is read back as it was. So `pack` tells different pointers apart
(`pack_inj`), and a comparison of words is one of pointers.

The proofs look at each bit: `unsetTag_bit` and `updateTag_bit` say what it is.
-/

set_option autoImplicit false

namespace Sdd.Proofs.TaggedWord

open Sdd.TaggedWord

variable {bits : Nat} {ptr : BitVec bits} {tag : Tag} {p q : Ptr (BitVec bits)}

/-- The mask `3`. -/
theorem mask_bit (i : Nat) :
    (BitVec.ofNat bits 3).getLsbD i = (decide (i < bits) && decide (i < 2)) := by
  rw [BitVec.getLsbD_ofNat, show (3 : Nat) = 2 ^ 2 - 1 from rfl, Nat.testBit_two_pow_sub_one]

/-- The two tag bits are the lowest ones. -/
theorem value_bit {i : Nat} (hi : 2 ≤ i) : (value tag : BitVec bits).getLsbD i = false := by
  have hlt : ∀ k : Nat, k < 4 → k.testBit i = false := fun k hk =>
    Nat.testBit_lt_two_pow (Nat.lt_of_lt_of_le hk (Nat.pow_le_pow_right (n := 2) (by decide) hi))
  cases tag <;> simp [value, BitVec.getLsbD_ofNat, hlt]

/-- The address part of a word. -/
theorem unsetTag_bit (i : Nat) :
    (unsetTag ptr).getLsbD i = (ptr.getLsbD i && !decide (i < 2)) := by
  unfold unsetTag
  rw [BitVec.getLsbD_and, BitVec.getLsbD_not, mask_bit]
  -- The complement has no bits beyond the word, and neither has the pointer.
  by_cases hi : i < bits
  · simp [hi]
  · simp [hi, BitVec.getLsbD_of_ge ptr i (Nat.le_of_not_lt hi)]

/-- `update_tag` replaces the two lowest bits, and keeps the others. -/
theorem updateTag_bit (i : Nat) : (updateTag ptr tag).getLsbD i =
    if i < 2 then (value tag : BitVec bits).getLsbD i else ptr.getLsbD i := by
  have hor : updateTag ptr tag = unsetTag ptr ||| value tag := rfl
  rw [hor, BitVec.getLsbD_or, unsetTag_bit]
  split
  · rename_i hi
    simp [hi]
  · rename_i hi
    simp [hi, value_bit (Nat.le_of_not_lt hi)]

/-- A new tag leaves the address as it is. -/
theorem unsetTag_updateTag : unsetTag (updateTag ptr tag) = unsetTag ptr := by
  refine BitVec.eq_of_getLsbD_eq fun i _ => ?_
  rw [unsetTag_bit, unsetTag_bit, updateTag_bit]
  by_cases hi : i < 2
  · simp [hi]
  · simp [hi]

/-- The tag that was set is read. -/
theorem intoTag_updateTag (hbits : 2 ≤ bits) : intoTag (updateTag ptr tag) = tag := by
  -- The mask takes the whole address away, so that the value of the tag is left.
  have hlow : updateTag ptr tag &&& BitVec.ofNat bits 3 = value tag := by
    refine BitVec.eq_of_getLsbD_eq fun i hlt => ?_
    rw [BitVec.getLsbD_and, mask_bit, updateTag_bit]
    by_cases hi : i < 2
    · simp [hi, hlt]
    · simp [hi, value_bit (Nat.le_of_not_lt hi)]
  -- The four values are different ones, as the word has two bits.
  have hpow : 4 ≤ 2 ^ bits := Nat.pow_le_pow_right (n := 2) (by decide) hbits
  unfold intoTag
  rw [hlow]
  cases tag with
  | none => rfl
  | first =>
    rw [value, BitVec.toNat_ofNat, Nat.mod_eq_of_lt (by omega)]
    rfl
  | second =>
    rw [value, BitVec.toNat_ofNat, Nat.mod_eq_of_lt (by omega)]
    rfl
  | both =>
    rw [value, BitVec.toNat_ofNat, Nat.mod_eq_of_lt (by omega)]
    rfl

/-- A second tag takes the place of the first one. -/
theorem updateTag_updateTag (tag' : Tag) :
    updateTag (updateTag ptr tag) tag' = updateTag ptr tag' := by
  refine BitVec.eq_of_getLsbD_eq fun i _ => ?_
  rw [updateTag_bit, updateTag_bit, updateTag_bit]
  split <;> rfl

/-- The word of a `RefCounted`: it is aligned, and not null. -/
structure Aligned (x : BitVec bits) : Prop where
  nonzero : x ≠ BitVec.ofNat bits 0
  untagged : unsetTag x = x

/-- `unset_tag` does not see which tag a word has. -/
theorem pointee_updateTag : pointee (updateTag ptr tag) = pointee ptr := by
  unfold pointee
  rw [unsetTag_updateTag]

/-- An aligned address without a tag is read back as it is. -/
theorem pointee_aligned (h : Aligned ptr) : pointee ptr = some ptr := by
  unfold pointee nonNull
  rw [h.untagged, if_neg h.nonzero]

/-- The null word points to nothing. -/
theorem pointee_zero : pointee (BitVec.ofNat bits 0) = none := by
  unfold pointee nonNull unsetTag
  rw [BitVec.zero_and, if_pos rfl]

/-- The address part of a pointer is read back. -/
theorem pointee_pack (h : ∀ x ∈ p.addr, Aligned x) : pointee (pack p) = p.addr := by
  unfold pack desired
  rw [pointee_updateTag]
  cases hp : p.addr with
  | none => exact pointee_zero
  | some x => exact pointee_aligned (h x hp)

/-- Both parts of a pointer are read back. -/
theorem pack_reads (hbits : 2 ≤ bits) (h : ∀ x ∈ p.addr, Aligned x) :
    (⟨pointee (pack p), intoTag (pack p)⟩ : Ptr (BitVec bits)) = p := by
  obtain ⟨addr, tag⟩ := p
  rw [Ptr.mk.injEq]
  exact ⟨pointee_pack h, intoTag_updateTag hbits⟩

/-- Words are equal if and only if the pointers are. -/
theorem pack_inj (hbits : 2 ≤ bits) (hp : ∀ x ∈ p.addr, Aligned x) (hq : ∀ x ∈ q.addr, Aligned x) :
    pack p = pack q ↔ p = q := by
  refine ⟨fun h => ?_, congrArg pack⟩
  rw [← pack_reads hbits hp, ← pack_reads hbits hq, h]

/-- The null pointer is the null word. -/
theorem pack_null : pack (.null : Ptr (BitVec bits)) = BitVec.ofNat bits 0 := by
  refine BitVec.eq_of_getLsbD_eq fun i _ => ?_
  unfold pack desired
  rw [updateTag_bit]
  simp [value]

/-- A pointer without a tag is its address. -/
theorem pack_untagged (h : Aligned ptr) : pack ⟨some ptr, .none⟩ = ptr := by
  unfold pack desired updateTag
  show unsetTag ptr ||| BitVec.ofNat bits 0 = ptr
  rw [h.untagged, BitVec.or_zero]

/-- `update_tag` on the word is the other tag on the pair. -/
theorem pack_withTag : pack (p.withTag tag) = updateTag (pack p) tag :=
  (updateTag_updateTag tag).symm

end Sdd.Proofs.TaggedWord
