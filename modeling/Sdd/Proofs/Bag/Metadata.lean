import Sdd.Storage

/-!
# `Sdd.Proofs.Bag.Metadata`: the bits of the metadata

What the words that `Storage` computes from its metadata say about the slots: the bit
`i + len` is the one of the initialization bitmap (`inst`), the bit `i` the one of the owned
state bitmap (`owned`). `search_some` and `search_none` are about the search of `push` and `pop`
for a slot.
-/

set_option autoImplicit false

namespace Sdd.ArrayLen

variable {bits len : Nat}

/-- Half of the bits of a `usize` are enough for a slot each, and a bitmap is a `u32`. -/
theorem le_32 (h : ArrayLen bits len) : len ≤ 32 := by
  have := h.half
  have := h.word
  omega

/-- `ARRAY_LEN` is a shift amount. -/
theorem lt_bits (h : ArrayLen bits len) : len < bits := by
  have := h.half
  have := h.pos
  omega

/-- Each slot has its bit in the upper half. -/
theorem add_lt (h : ArrayLen bits len) {i : Nat} (hi : i < len) : i + len < bits := by
  have := h.half
  omega

end Sdd.ArrayLen

namespace Sdd.Proofs.Bag

open Storage (instanceBitmap ownedBitmap trailingOnes search)

variable {bits len : Nat} {m : BitVec bits} {i index : Nat}

/-- The slot `i` is instantiated. -/
def inst (len : Nat) (m : BitVec bits) (i : Nat) : Bool := m.getLsbD (i + len)

/-- The slot `i` is owned. -/
def owned (m : BitVec bits) (i : Nat) : Bool := m.getLsbD i

/-- The slot `i` is instantiated and not owned. -/
def valid (len : Nat) (m : BitVec bits) (i : Nat) : Bool := inst len m i && !owned m i

/-- No bit above the two bitmaps is set. -/
def High (len : Nat) (m : BitVec bits) : Prop := ∀ j, 2 * len ≤ j → m.getLsbD j = false

/-- `1 << k` has the bit `k` only. -/
theorem getLsbD_one_shiftLeft {k : Nat} (hk : k < bits) :
    (BitVec.ofNat bits 1 <<< k).getLsbD i = decide (i = k) := by
  rw [← BitVec.twoPow_eq, BitVec.getLsbD_twoPow]
  simp [hk, eq_comm]

/-- The instance bitmap has a bit for each slot with an instance. -/
theorem getLsbD_instanceBitmap (hi : i < 32) :
    (instanceBitmap len m).getLsbD i = inst len m i := by
  unfold instanceBitmap inst
  rw [BitVec.getLsbD_setWidth, BitVec.getLsbD_ushiftRight, Nat.add_comm]
  simp [hi]

/-- The owned bitmap has a bit for each slot that is owned. -/
theorem getLsbD_ownedBitmap (h : ArrayLen bits len) :
    (ownedBitmap len m).getLsbD i = (decide (i < len) && owned m i) := by
  have hlt : BitVec.ofNat bits 1 <<< len = BitVec.twoPow bits len := (BitVec.twoPow_eq bits len).symm
  have hmod : (m % BitVec.twoPow bits len).getLsbD i = (decide (i < len) && m.getLsbD i) := by
    rw [BitVec.getLsbD, BitVec.toNat_umod, BitVec.toNat_twoPow_of_lt h.lt_bits,
      Nat.testBit_mod_two_pow, BitVec.getLsbD]
  unfold ownedBitmap owned
  rw [BitVec.getLsbD_setWidth, hlt, hmod]
  by_cases hi : i < len
  · simp [Nat.lt_of_lt_of_le hi h.le_32]
  · simp [hi]

/-- The bitmap of the valid slots. -/
theorem getLsbD_validBitmap (h : ArrayLen bits len) (hm : High len m) (hi : i < 32) :
    (instanceBitmap len m &&& ~~~ownedBitmap len m).getLsbD i
      = (decide (i < len) && valid len m i) := by
  rw [BitVec.getLsbD_and, BitVec.getLsbD_not, getLsbD_instanceBitmap hi, getLsbD_ownedBitmap h]
  by_cases hlt : i < len
  · simp [hi, hlt, valid]
  · have hinst : inst len m i = false := hm _ (by omega)
    simp [hlt, hinst]

/-- The test of `push` whether a storage has a valid slot. -/
theorem valid_eq_zero (h : ArrayLen bits len) (hm : High len m) :
    instanceBitmap len m &&& ~~~ownedBitmap len m = 0 ↔ ∀ i < len, valid len m i = false := by
  constructor
  · intro hzero i hi
    have h0 := getLsbD_validBitmap h hm (Nat.lt_of_lt_of_le hi h.le_32)
    rw [hzero] at h0
    simpa [hi] using h0.symm
  · intro hnone
    refine BitVec.eq_of_getLsbD_eq fun i hi => ?_
    rw [getLsbD_validBitmap h hm hi]
    by_cases hlt : i < len
    · simpa [hlt] using hnone i hlt
    · simp [hlt]

/-- The test of `pop` whether no slot is instantiated any more. -/
theorem inst_eq_zero (h : ArrayLen bits len) (hzero : instanceBitmap len m = 0) (hi : i < len) :
    inst len m i = false := by
  rw [← getLsbD_instanceBitmap (Nat.lt_of_lt_of_le hi h.le_32), hzero]
  exact BitVec.getLsbD_zero

/-- If `pop` finds that a slot is instantiated, there is one. -/
theorem inst_of_ne_zero (hm : High len m) (hne : instanceBitmap len m ≠ 0) :
    ∃ i < len, inst len m i = true := by
  by_contra hnone
  refine hne (BitVec.eq_of_getLsbD_eq fun i hi => ?_)
  rw [getLsbD_instanceBitmap hi]
  by_cases hlt : i < len
  · by_contra hinst
    exact hnone ⟨i, hlt, by simpa using hinst⟩
  · have hhigh : inst len m i = false := hm (i + len) (by omega)
    rw [hhigh]
    simp

section changes

variable (h : ArrayLen bits len) (hindex : index < len)

/-- Clearing bits. -/
theorem getLsbD_and_not (x : BitVec bits) :
    (m &&& ~~~x).getLsbD i = (m.getLsbD i && !x.getLsbD i) := by
  rw [BitVec.getLsbD_and, BitVec.getLsbD_not]
  by_cases hi : i < bits
  · simp [hi]
  · simp [BitVec.getLsbD_of_ge m i (Nat.not_lt.mp hi)]

include h hindex

/-- The bit that marks the slot as owned. -/
theorem getLsbD_ownedBit : (BitVec.ofNat bits 1 <<< index).getLsbD i = decide (i = index) :=
  getLsbD_one_shiftLeft (Nat.lt_trans hindex h.lt_bits)

/-- The bit that marks the slot as instantiated. -/
theorem getLsbD_instBit :
    (BitVec.ofNat bits 1 <<< (index + len)).getLsbD i = decide (i = index + len) :=
  getLsbD_one_shiftLeft (h.add_lt hindex)

/-- A slot is marked as owned. -/
theorem inst_lock : inst len (m ||| (BitVec.ofNat bits 1 <<< index)) i = inst len m i := by
  unfold inst
  have hne : i + len ≠ index := by omega
  rw [BitVec.getLsbD_or, getLsbD_ownedBit h hindex, decide_eq_false hne, Bool.or_false]

/-- `push` and `pop` take one slot. -/
theorem owned_lock :
    owned (m ||| (BitVec.ofNat bits 1 <<< index)) i = (owned m i || decide (i = index)) := by
  unfold owned
  rw [BitVec.getLsbD_or, getLsbD_ownedBit h hindex]

/-- The bits of the slots lie in the lower half. -/
theorem high_lock (hm : High len m) : High len (m ||| (BitVec.ofNat bits 1 <<< index)) := by
  intro j hj
  have hne : j ≠ index := by omega
  rw [BitVec.getLsbD_or, getLsbD_ownedBit h hindex, hm j hj, decide_eq_false hne, Bool.or_false]

/-- The owner of a slot lets go of it. -/
theorem inst_rollBack : inst len (m &&& ~~~(BitVec.ofNat bits 1 <<< index)) i = inst len m i := by
  unfold inst
  have hne : i + len ≠ index := by omega
  rw [getLsbD_and_not, getLsbD_ownedBit h hindex, decide_eq_false hne, Bool.not_false, Bool.and_true]

/-- A `push` that is not let in gives its slot back. -/
theorem owned_rollBack :
    owned (m &&& ~~~(BitVec.ofNat bits 1 <<< index)) i = (owned m i && !decide (i = index)) := by
  unfold owned
  rw [getLsbD_and_not, getLsbD_ownedBit h hindex]

/-- The owner of a slot marks it as instantiated and lets go of it. -/
theorem inst_publish :
    inst len ((m &&& ~~~(BitVec.ofNat bits 1 <<< index)) ||| (BitVec.ofNat bits 1 <<< (index + len))) i
    = (inst len m i || decide (i = index)) := by
  have hold : inst len (m &&& ~~~(BitVec.ofNat bits 1 <<< index)) i = inst len m i :=
    inst_rollBack h hindex
  unfold inst at hold ⊢
  rw [BitVec.getLsbD_or, getLsbD_instBit h hindex, hold]
  simp

/-- A `push` that is done gives its slot back. -/
theorem owned_publish (hi : i < len) :
    owned ((m &&& ~~~(BitVec.ofNat bits 1 <<< index)) ||| (BitVec.ofNat bits 1 <<< (index + len))) i
      = (owned m i && !decide (i = index)) := by
  have hold : owned (m &&& ~~~(BitVec.ofNat bits 1 <<< index)) i =
      (owned m i && !decide (i = index)) :=
    owned_rollBack h hindex
  have hne : i ≠ index + len := by omega
  unfold owned at hold ⊢
  rw [BitVec.getLsbD_or, getLsbD_instBit h hindex, hold, decide_eq_false hne, Bool.or_false]

/-- The owner of a slot marks it as not instantiated and lets go of it. -/
theorem inst_clear :
    inst len (m &&& ~~~((BitVec.ofNat bits 1 <<< index) ||| (BitVec.ofNat bits 1 <<< (index + len)))) i
      = (inst len m i && !decide (i = index)) := by
  unfold inst
  have hne : i + len ≠ index := by omega
  rw [getLsbD_and_not, BitVec.getLsbD_or, getLsbD_ownedBit h hindex, getLsbD_instBit h hindex,
    decide_eq_false hne]
  simp

/-- A `pop` that is done gives its slot back. -/
theorem owned_clear (hi : i < len) :
    owned (m &&& ~~~((BitVec.ofNat bits 1 <<< index) ||| (BitVec.ofNat bits 1 <<< (index + len)))) i
      = (owned m i && !decide (i = index)) := by
  unfold owned
  have hne : i ≠ index + len := by omega
  rw [getLsbD_and_not, BitVec.getLsbD_or, getLsbD_ownedBit h hindex, getLsbD_instBit h hindex,
    decide_eq_false hne, Bool.or_false]

omit h hindex

/-- Clearing bits sets no bit. -/
theorem high_and_not (hm : High len m) (x : BitVec bits) : High len (m &&& ~~~x) := by
  intro j hj
  rw [getLsbD_and_not, hm j hj, Bool.false_and]

include h hindex

/-- The new instance bit belongs to a slot. -/
theorem high_publish (hm : High len m) :
    High len ((m &&& ~~~(BitVec.ofNat bits 1 <<< index)) |||
      (BitVec.ofNat bits 1 <<< (index + len))) := by
  intro j hj
  have hne : j ≠ index + len := by omega
  rw [BitVec.getLsbD_or, getLsbD_instBit h hindex, high_and_not hm _ j hj, decide_eq_false hne,
    Bool.or_false]

end changes

section instances

open AllCall (instancesToPop)

variable (h : ArrayLen bits len) {x : BitVec bits}

/-- The slots that `pop_all` takes are the valid ones. -/
theorem getLsbD_instancesToPop (h : ArrayLen bits len) (hm : High len m) :
    (instancesToPop len m).getLsbD i = (decide (i < len) && valid len m i) := by
  unfold instancesToPop
  rw [getLsbD_and_not, BitVec.getLsbD_setWidth, BitVec.getLsbD_setWidth, getLsbD_ownedBitmap h]
  by_cases hi : i < len
  · have h32 := Nat.lt_of_lt_of_le hi h.le_32
    have hbits := Nat.lt_trans hi h.lt_bits
    rw [getLsbD_instanceBitmap h32]
    simp [hi, hbits, valid]
  · by_cases h32 : i < 32
    · have hi' : inst len m i = false := hm _ (by omega)
      rw [getLsbD_instanceBitmap h32, hi']
      simp [hi]
    · rw [BitVec.getLsbD_of_ge _ i (Nat.not_lt.mp h32)]
      simp [hi]

/-- The slots are marked as owned. -/
theorem inst_lockAll (hx : ∀ i, x.getLsbD i = true → i < len) :
    inst len (m ||| x) i = inst len m i := by
  unfold inst
  have hbit : x.getLsbD (i + len) = false := by
    by_contra hne
    have := hx _ ((Bool.not_eq_false _).mp hne)
    omega
  rw [BitVec.getLsbD_or, hbit, Bool.or_false]

/-- `pop_all` takes several slots at once. -/
theorem owned_lockAll : owned (m ||| x) i = (owned m i || x.getLsbD i) := BitVec.getLsbD_or

/-- These bits lie in the lower half as well. -/
theorem high_lockAll (hm : High len m) (hx : ∀ i, x.getLsbD i = true → i < len) :
    High len (m ||| x) := by
  intro j hj
  have hbit : x.getLsbD j = false := by
    by_contra hne
    have := hx _ ((Bool.not_eq_false _).mp hne)
    omega
  rw [BitVec.getLsbD_or, hbit, hm j hj]
  rfl

include h

/-- The slots are marked as not instantiated, and as not owned. -/
theorem inst_unlock (hi : i < len) (hx : ∀ i, x.getLsbD i = true → i < len) :
    inst len (m &&& ~~~((x <<< len) ||| x)) i = (inst len m i && !x.getLsbD i) := by
  unfold inst
  have hbit : x.getLsbD (i + len) = false := by
    by_contra hne
    have := hx _ ((Bool.not_eq_false _).mp hne)
    omega
  have hbits := h.add_lt hi
  have hge : ¬i + len < len := by omega
  rw [getLsbD_and_not, BitVec.getLsbD_or, BitVec.getLsbD_shiftLeft, hbit]
  simp [hbits, hge]

omit h in

/-- `pop_all` gives its slots back at once. -/
theorem owned_unlock (hi : i < len) :
    owned (m &&& ~~~((x <<< len) ||| x)) i = (owned m i && !x.getLsbD i) := by
  unfold owned
  rw [getLsbD_and_not, BitVec.getLsbD_or, BitVec.getLsbD_shiftLeft]
  simp [hi]

omit h in
/-- The first slot of a word. -/
theorem getLsbD_ctz (hlt : x.ctz.toNat < len) (hbits : len ≤ bits) :
    x.getLsbD x.ctz.toNat = true := by
  refine BitVec.getLsbD_true_ctz_of_ne_zero ?_
  rw [← BitVec.ctz_lt_iff_ne_zero, BitVec.lt_def]
  simpa using Nat.lt_of_lt_of_le hlt hbits

/-- The slots that `pop_all` has not folded yet. -/
theorem getLsbD_rest (hindex : index < len) :
    (x &&& ~~~((BitVec.ofNat bits 1 <<< (index + 1)) - 1)).getLsbD i
      = (x.getLsbD i && decide (index < i)) := by
  have hlt : index + 1 < bits := Nat.lt_of_le_of_lt hindex h.lt_bits
  have hpow : (BitVec.ofNat bits 1 <<< (index + 1)).toNat = 2 ^ (index + 1) := by
    rw [← BitVec.twoPow_eq, BitVec.toNat_twoPow_of_lt hlt]
  have hone : (BitVec.ofNat bits 1).toNat = 1 := BitVec.toNat_one (by omega)
  have hle : BitVec.ofNat bits 1 ≤ BitVec.ofNat bits 1 <<< (index + 1) := by
    rw [BitVec.le_def, hpow, hone]
    exact Nat.one_le_two_pow
  have hmask : ((BitVec.ofNat bits 1 <<< (index + 1)) - BitVec.ofNat bits 1).getLsbD i =
      decide (i < index + 1) := by
    rw [BitVec.getLsbD, BitVec.toNat_sub_of_le hle, hpow, hone, Nat.testBit_two_pow_sub_one]
  rw [getLsbD_and_not]
  refine congrArg _ ?_
  show (!((BitVec.ofNat bits 1 <<< (index + 1)) - BitVec.ofNat bits 1).getLsbD i) = _
  rw [hmask]
  by_cases hi : index < i
  · simp [hi, Nat.not_lt.mpr hi]
  · simp [hi, Nat.lt_succ_of_le (Nat.not_lt.mp hi)]

end instances

section search

variable {b o : BitVec 32} {fuel : Nat}

/-- The first bit that is not set. -/
theorem getLsbD_trailingOnes (hlt : trailingOnes b < 32) :
    b.getLsbD (trailingOnes b) = false := by
  have hne : ~~~b ≠ 0#32 := by
    rw [← BitVec.ctz_lt_iff_ne_zero, BitVec.lt_def]
    exact hlt
  have h := BitVec.getLsbD_true_ctz_of_ne_zero hne
  rw [BitVec.getLsbD_not, Bool.and_eq_true] at h
  simpa [trailingOnes] using h.2

/-- `trailing_ones` counts bits that are set. -/
theorem getLsbD_of_lt_trailingOnes (hi : i < trailingOnes b) (h32 : i < 32) :
    b.getLsbD i = true := by
  have h := BitVec.getLsbD_false_of_lt_ctz (x := ~~~b) hi
  rw [BitVec.getLsbD_not] at h
  simpa [h32] using h

/-- The bit that a turn of the search sets. -/
theorem getLsbD_setBit (hlt : trailingOnes b < 32) :
    (b ||| (1#32 <<< trailingOnes b)).getLsbD i = (b.getLsbD i || decide (i = trailingOnes b)) := by
  rw [BitVec.getLsbD_or, getLsbD_one_shiftLeft hlt]

/-- A test of one bit. -/
theorem and_bit_eq_zero {w : Nat} {x : BitVec w} (hlt : index < w) :
    x &&& (BitVec.ofNat w 1 <<< index) = 0 ↔ x.getLsbD index = false := by
  constructor
  · intro hzero
    have h : (x &&& (BitVec.ofNat w 1 <<< index)).getLsbD index = false := by
      rw [hzero]
      exact BitVec.getLsbD_zero
    rw [BitVec.getLsbD_and, getLsbD_one_shiftLeft hlt] at h
    simpa using h
  · intro hbit
    refine BitVec.eq_of_getLsbD_eq fun i _ => ?_
    rw [BitVec.getLsbD_and, getLsbD_one_shiftLeft hlt]
    by_cases hi : i = index
    · rw [hi, hbit]
      simp
    · simp [hi]

/-- The search finds a slot whose bit is not set, and that is not owned. -/
theorem search_some (h32 : len ≤ 32) (hs : search len o fuel b = some index) :
    index < len ∧ b.getLsbD index = false ∧ o.getLsbD index = false := by
  induction fuel generalizing b with
  | zero => cases hs
  | succ fuel ih =>
    rw [search] at hs
    split at hs
    · rename_i hlt
      have hlt32 := Nat.lt_of_lt_of_le hlt h32
      split at hs
      · rename_i hfree
        cases hs
        exact ⟨hlt, getLsbD_trailingOnes hlt32, (and_bit_eq_zero hlt32).mp hfree⟩
      · obtain ⟨hi, hb, ho⟩ := ih hs
        rw [getLsbD_setBit hlt32] at hb
        exact ⟨hi, (Bool.or_eq_false_iff.mp hb).1, ho⟩
    · cases hs

/-- The search finds no slot only if there is none: each turn sets the first bit that was not
set. -/
theorem search_none (h32 : len ≤ 32) (hset : ∀ i, i + fuel < 33 → b.getLsbD i = true)
    (hs : search len o fuel b = none) (hi : i < len) :
    b.getLsbD i = true ∨ o.getLsbD i = true := by
  induction fuel generalizing b with
  | zero => exact .inl (hset i (by omega))
  | succ fuel ih =>
    rw [search] at hs
    split at hs
    · rename_i hlt
      have hlt32 := Nat.lt_of_lt_of_le hlt h32
      split at hs
      · cases hs
      · rename_i howned
        have hor := ih (fun j hj => ?_) hs
        · rw [getLsbD_setBit hlt32] at hor
          rcases hor with hb | ho
          · rcases Bool.or_eq_true_iff.mp hb with hb | hk
            · exact .inl hb
            · refine .inr ?_
              rw [of_decide_eq_true hk]
              by_contra hfree
              exact howned ((and_bit_eq_zero hlt32).mpr ((Bool.not_eq_true _).mp hfree))
          · exact .inr ho
        · rw [getLsbD_setBit hlt32]
          -- All bits below the one that is set now were set.
          by_cases hjk : j < trailingOnes b
          · rw [getLsbD_of_lt_trailingOnes hjk (by omega)]
            rfl
          · by_cases hj' : j + (fuel + 1) < 33
            · rw [hset j hj']
              rfl
            · by_cases heq : j = trailingOnes b
              · simp [heq]
              · exfalso
                have hfirst := getLsbD_trailingOnes hlt32
                rw [hset (trailingOnes b) (by omega)] at hfirst
                cases hfirst
    · rename_i hge
      exact .inl (getLsbD_of_lt_trailingOnes (by omega) (by omega))

end search

end Sdd.Proofs.Bag
