import Sdd.Checked
import Sdd.Proofs.Bag.IterMut

/-!
# `Sdd.Proofs.Bag.Checked`: nothing goes wrong in the arithmetic of a bag

Each access of a call does the same with the checks as without them (`pushStep_checked`,
`popStep_checked`, `allStep_checked`, `callStep_checked`): the shift amounts are lengths or indices
of slots that the call owns or has found, and the `debug_assert`s say what the claims of the call
say. The iterator goes through indices up to `len` (`iterStep_checked`), and the destructor through
the slots whose bits are set (`drop_checked`).

If `ARRAY_LEN` is zero nothing is ever stored (`Barren`), and `push` panics in `with_val`.
-/

set_option autoImplicit false

namespace Sdd

namespace Admitted

variable {bits len : Nat}

/-- An admitted length is a shift amount. -/
theorem lt_bits (h : Admitted bits len) : len < bits := by
  have := h.check
  rcases h.width with hw | hw <;> omega

/-- An admitted length is at most the number of bits of a bitmap. -/
theorem le_32 (h : Admitted bits len) : len ≤ 32 := by
  have := h.check
  rcases h.width with hw | hw <;> omega

/-- An admitted length is one for which the bag works, if it is not zero. -/
theorem arrayLen (h : Admitted bits len) (hpos : 1 ≤ len) : ArrayLen bits len :=
  ⟨hpos, h.check, by rcases h.width with hw | hw <;> omega⟩

end Admitted

namespace Proofs.Bag

open Checked (Fault)
open Sdd.Lib
open Sdd.Lib.Linearize (Event)
open Sdd.Bag (Mem Call Pc Op Res World LenCall EmptyCall IterMut IterCall IterPc)

variable {bits n len : Nat} {T : Type}

section words

variable {w k : Nat} {x y : BitVec w}

/-- A shift by less than the width does not overflow. -/
theorem shl_ok (h : k < w) : Checked.shl x k = .ok (x <<< k) := if_pos h

/-- The same of a single bit. -/
theorem bit_ok (h : k < w) : Checked.bit k = .ok (BitVec.ofNat w 1 <<< k) := if_pos h

/-- An index below `ARRAY_LEN` is in the array. -/
theorem slot_ok (h : k < len) : Checked.slot len k = .ok () := if_pos h

/-- An assertion that holds does nothing. -/
theorem assertion_ok {b : Bool} (h : b = true) : Checked.assertion b = .ok () := if_pos h

/-- A single bit is not zero. -/
theorem one_shl_ne (h : k < w) : BitVec.ofNat w 1 <<< k ≠ 0 := by
  intro hzero
  have hbit := getLsbD_one_shiftLeft (i := k) h
  rw [hzero, decide_eq_true rfl] at hbit
  cases BitVec.getLsbD_zero.symm.trans hbit

end words

section storage

variable (h : Admitted bits len) {s : Storage bits T} {metadata : BitVec bits}
include h

/-- The instance bitmap is a shift by `ARRAY_LEN` and a truncation. -/
theorem instanceBitmap_checked :
    Checked.instanceBitmap len metadata = Storage.instanceBitmap len metadata := by
  unfold Checked.instanceBitmap Checked.wrappingShr Storage.instanceBitmap
  rw [Nat.mod_eq_of_lt h.lt_bits]

/-- The mask of the owned bitmap is computed without an overflow. -/
theorem ownedBitmap_checked :
    Checked.ownedBitmap len metadata = .ok (Storage.ownedBitmap len metadata) := by
  unfold Checked.ownedBitmap
  rw [bit_ok h.lt_bits]
  show (Checked.rem metadata _).bind _ = _
  unfold Checked.rem
  rw [if_neg (one_shl_ne h.lt_bits)]
  rfl

/-- `with_val` writes the slot 0, which is there. -/
theorem withVal_checked (hpos : 1 ≤ len) (val : T) :
    Checked.withVal len val = .ok (Storage.withVal len val : Storage bits T) := by
  unfold Checked.withVal
  rw [bit_ok h.lt_bits, slot_ok hpos]
  rfl

/-- Every index that the search shifts by is one of a slot. -/
theorem search_checked {o : BitVec 32} {fuel : Nat} {bitmap : BitVec 32} :
    Checked.search len o fuel bitmap = .ok (Storage.search len o fuel bitmap) := by
  induction fuel generalizing bitmap with
  | zero => rfl
  | succ fuel ih =>
    rw [Checked.search, Storage.search]
    split
    · rename_i hlt
      rw [shl_ok (Nat.lt_of_lt_of_le hlt h.le_32)]
      show (if _ then _ else _) = _
      split
      · rfl
      · exact ih
    · rfl

/-- The head of the loop of `push` computes the two bitmaps and looks for a free slot. -/
theorem pushLoop_checked (allowEmpty : Bool) (val : T) :
    Checked.pushLoop len allowEmpty val metadata
      = .ok (PushCall.loop len allowEmpty val metadata) := by
  unfold Checked.pushLoop PushCall.loop
  rw [ownedBitmap_checked h, instanceBitmap_checked h]
  show (if _ then _ else _) = Except.ok (if _ then _ else _)
  split
  · rfl
  · rw [search_checked h]
    generalize Storage.search len (Storage.ownedBitmap len metadata) 33
      (Storage.instanceBitmap len metadata) = o
    cases o <;> rfl

/-- The head of the loop of `pop` looks for an instance that nobody owns. -/
theorem popLoop_checked :
    Checked.popLoop len metadata = .ok (PopCall.loop (T := T) len metadata) := by
  unfold Checked.popLoop PopCall.loop
  rw [ownedBitmap_checked h, instanceBitmap_checked h]
  simp only [bind, Except.bind, search_checked h]
  generalize Storage.search len (Storage.ownedBitmap len metadata) 33
    (~~~Storage.instanceBitmap len metadata) = o
  cases o <;> rfl

/-- The instances to pop are not owned. -/
theorem allLoop_checked (acc : List T) :
    Checked.allLoop len acc metadata = .ok (AllCall.loop len acc metadata) := by
  have hassert : ((Storage.instanceBitmap len metadata).setWidth bits &&&
      ~~~(Storage.ownedBitmap len metadata).setWidth bits &&&
        (Storage.ownedBitmap len metadata).setWidth bits == 0) = true := by
    rw [beq_iff_eq]
    refine BitVec.eq_of_getLsbD_eq fun i hi => ?_
    rw [BitVec.getLsbD_and, getLsbD_and_not, Bool.and_assoc, Bool.not_and_self, Bool.and_false]
    exact BitVec.getLsbD_zero.symm
  unfold Checked.allLoop AllCall.loop AllCall.instancesToPop
  rw [ownedBitmap_checked h, instanceBitmap_checked h]
  show (Checked.assertion _).bind _ = _
  rw [assertion_ok hassert]
  show (if _ then _ else _) = Except.ok (if _ then _ else _)
  split <;> rfl

/-- The bit that a `debug_assert` looks at. -/
theorem low_ne {index : Nat} (hi : index < len) (howned : owned s.metadata index = true) :
    (s.metadata &&& (BitVec.ofNat bits 1 <<< index) != 0) = true := by
  rw [bne_iff_ne]
  intro hzero
  have hbit := (and_bit_eq_zero (Nat.lt_trans hi h.lt_bits)).mp hzero
  rw [show s.metadata.getLsbD index = true from howned] at hbit
  cases hbit

/-- The bit of an instance is a shift amount. -/
theorem high_lt {index : Nat} (hi : index < len) : index + len < bits := by
  have := h.check
  omega

/-- `push` on a storage. -/
theorem pushStep_checked {val : T} {call : PushCall bits T} (allowEmpty fails : Bool)
    (hok : PushOk len val call) (hk : Knows len s (pushClaims val call)) :
    Checked.pushStep len allowEmpty fails s call = .ok (call.step len allowEmpty fails s) := by
  cases call with
  | load v =>
    rw [Checked.pushStep, pushLoop_checked h]
    rfl
  | exchange v metadata index =>
    -- The index comes from a free bit below ARRAY_LEN, so the shift does not overflow.
    obtain ⟨-, hi, -, -⟩ := hok
    rw [Checked.pushStep, PushCall.step, bit_ok (Nat.lt_trans hi h.lt_bits), pushLoop_checked h]
    show (if _ then _ else _) = Except.ok (if _ then _ else _)
    split <;> rfl
  | write v index =>
    obtain ⟨hi, -⟩ := hk.claimed index _ claims_self
    rw [Checked.pushStep, slot_ok hi]
    rfl
  | publish index =>
    obtain ⟨hi, howned, hinst, -⟩ := hk.claimed index _ claims_self
    -- The slot is claimed and has no instance yet, which is what the two assertions ask.
    have hhigh : (s.metadata &&& (BitVec.ofNat bits 1 <<< (index + len)) == 0) = true := by
      rw [beq_iff_eq, and_bit_eq_zero (high_lt h hi)]
      exact hinst
    rw [Checked.pushStep, PushCall.step, bit_ok (Nat.lt_trans hi h.lt_bits),
      bit_ok (high_lt h hi)]
    show (Checked.assertion _).bind _ = _
    rw [assertion_ok (low_ne h hi howned)]
    show (Checked.assertion _).bind _ = _
    rw [assertion_ok hhigh, ownedBitmap_checked h, instanceBitmap_checked h]
    show (if _ then _ else _) = Except.ok (if _ then _ else _)
    split <;> rfl
  | readBack index =>
    obtain ⟨hi, -⟩ := hk.claimed index _ claims_self
    rw [Checked.pushStep, PushCall.step, slot_ok hi]
    cases s.slots index <;> rfl
  | rollBack v index =>
    obtain ⟨hi, -⟩ := hk.claimed index _ claims_self
    rw [Checked.pushStep, bit_ok (Nat.lt_trans hi h.lt_bits)]
    rfl
  | uninit => rfl

/-- `pop` on a storage. -/
theorem popStep_checked {call : PopCall bits T} (fails : Bool) (hok : PopOk len call)
    (hk : Knows len s (popClaims call)) :
    Checked.popStep len fails s call = .ok (call.step len fails s) := by
  cases call with
  | load =>
    rw [Checked.popStep, popLoop_checked h]
    rfl
  | exchange metadata index =>
    obtain ⟨hi, -, -⟩ := hok
    rw [Checked.popStep, PopCall.step, bit_ok (Nat.lt_trans hi h.lt_bits), popLoop_checked h]
    show (if _ then _ else _) = Except.ok (if _ then _ else _)
    split <;> rfl
  | read index =>
    obtain ⟨hi, -⟩ := hk.claimed index _ claims_self
    rw [Checked.popStep, PopCall.step, slot_ok hi]
    cases s.slots index <;> rfl
  | clear inst' index =>
    obtain ⟨hi, howned, hinst, -⟩ := hk.claimed index _ claims_self
    -- The slot is claimed and its instance is there, which is what the two assertions ask.
    have hhigh : (s.metadata &&& (BitVec.ofNat bits 1 <<< (index + len)) != 0) = true := by
      rw [bne_iff_ne]
      intro hzero
      have hbit := (and_bit_eq_zero (high_lt h hi)).mp hzero
      cases hbit.symm.trans hinst
    rw [Checked.popStep, PopCall.step, bit_ok (Nat.lt_trans hi h.lt_bits),
      bit_ok (high_lt h hi)]
    show (Checked.assertion _).bind _ = _
    rw [assertion_ok (low_ne h hi howned)]
    show (Checked.assertion _).bind _ = _
    rw [assertion_ok hhigh]
    exact congrArg (fun b => Except.ok (_, Outcome.done (_, b == 0))) (instanceBitmap_checked h)
  | uninit => rfl

/-- The mask of `pop_all` does not underflow. -/
theorem mask_checked {index : Nat} (hi : index < len) :
    Checked.sub (BitVec.ofNat bits 1 <<< (index + 1)) 1
      = .ok ((BitVec.ofNat bits 1 <<< (index + 1)) - 1) := by
  refine if_pos ?_
  have hlt : index + 1 < bits := Nat.lt_of_le_of_lt hi h.lt_bits
  rw [← BitVec.twoPow_eq, BitVec.toNat_twoPow_of_lt hlt]
  refine Nat.le_trans (Nat.le_of_eq ?_) (Nat.one_le_two_pow (n := index + 1))
  exact BitVec.toNat_one (by omega)

/-- `pop_all` on a storage. -/
theorem allStep_checked {call : AllCall bits T} (fails : Bool) (hok : AllOk len call) :
    Checked.allStep len fails s call = .ok (call.step len fails s) := by
  cases call with
  | load acc =>
    rw [Checked.allStep, allLoop_checked h]
    rfl
  | exchange acc metadata instances =>
    rw [Checked.allStep, AllCall.step, allLoop_checked h]
    split <;> rfl
  | fold acc metadata instances index =>
    obtain ⟨hi, -⟩ := hok
    -- The shift by index cannot overflow, and the mask is not taken from zero.
    rw [Checked.allStep, AllCall.step, slot_ok hi, bit_ok (Nat.lt_of_le_of_lt hi h.lt_bits)]
    cases s.slots index with
    | none => rfl
    | some inst =>
      show (Checked.sub _ _).bind _ = _
      rw [mask_checked h hi]
      rfl
  | unlock acc metadata instances =>
    rw [Checked.allStep, AllCall.step, shl_ok h.lt_bits]
    show (if _ then _ else _) = Except.ok (if _ then _ else _)
    split <;> rfl
  | uninit acc => rfl

/-- The destructor of a storage reaches no index beyond the slots. -/
theorem drop_checked (hm : High len s.metadata) :
    Checked.drop len s = .ok (s.drop len) := by
  -- By induction on the fuel: a bit that is cleared leaves the others below len.
  have hloop : ∀ (fuel : Nat) (b : BitVec 32), (∀ i, b.getLsbD i = true → i < len) →
      Checked.dropLoop len s.slots fuel b = .ok (Storage.dropLoop s.slots fuel b) := by
    intro fuel
    induction fuel with
    | zero => exact fun _ _ => rfl
    | succ fuel ih =>
      intro b hb
      rw [Checked.dropLoop, Storage.dropLoop]
      split
      · rfl
      · rename_i hne
        -- The bitmap is not zero, so its lowest set bit is one of the 32.
        have hlt : b.ctz.toNat < 32 := by
          have hle : b.ctz ≤ 32#32 := BitVec.clz_le
          rw [BitVec.le_def] at hle
          exact Nat.lt_of_le_of_ne hle hne
        have hslot : b.ctz.toNat < len := hb _ (getLsbD_ctz hlt (Nat.le_refl 32))
        rw [shl_ok hlt, slot_ok hslot]
        show (Checked.dropLoop _ _ _ _).bind _ = _
        rw [ih _ fun i hi => hb i ?_]
        · rfl
        · rw [getLsbD_and_not, Bool.and_eq_true] at hi
          exact hi.1
  unfold Checked.drop Storage.drop
  rw [instanceBitmap_checked h]
  refine hloop 33 _ fun i hi => ?_
  have h32 : i < 32 := BitVec.lt_of_getLsbD hi
  rw [getLsbD_instanceBitmap h32] at hi
  -- A bit from len on would be a bit of metadata beyond the two bitmaps.
  by_contra hge
  have hhigh : inst len s.metadata i = false := hm (i + len) (by omega)
  cases hhigh.symm.trans hi

end storage

section halves

variable {metadata : BitVec bits}

/-- The metadata consists of the two bitmaps, each of which fits into `ARRAY_LEN` bits. -/
def Halves (len : Nat) (metadata : BitVec bits) : Prop :=
  (Storage.ownedBitmap len metadata).toNat < 2 ^ len ∧
    (Storage.instanceBitmap len metadata).toNat < 2 ^ len ∧
    metadata.toNat = (Storage.ownedBitmap len metadata).toNat
      + 2 ^ len * (Storage.instanceBitmap len metadata).toNat

/-- The metadata of an admitted bag. -/
theorem halves (h : Admitted bits len) (hm : High len metadata) : Halves len metadata := by
  have hpow : 2 ^ len ≤ 2 ^ 32 := Nat.pow_le_pow_right (by omega) h.le_32
  have hlow : metadata.toNat % 2 ^ len < 2 ^ len := Nat.mod_lt _ (Nat.two_pow_pos len)
  have hhigh : metadata.toNat / 2 ^ len < 2 ^ len := by
    -- metadata has its bits below twice ARRAY_LEN only.
    rw [Nat.div_lt_iff_lt_mul (Nat.two_pow_pos len), ← Nat.pow_add, ← Nat.two_mul]
    exact Nat.lt_pow_two_of_testBit _ hm
  have howned : (Storage.ownedBitmap len metadata).toNat = metadata.toNat % 2 ^ len := by
    unfold Storage.ownedBitmap
    rw [BitVec.toNat_setWidth, BitVec.toNat_umod, ← BitVec.twoPow_eq,
      BitVec.toNat_twoPow_of_lt h.lt_bits]
    exact Nat.mod_eq_of_lt (Nat.lt_of_lt_of_le hlow hpow)
  have hinst : (Storage.instanceBitmap len metadata).toNat = metadata.toNat / 2 ^ len := by
    unfold Storage.instanceBitmap
    rw [BitVec.toNat_setWidth, BitVec.toNat_ushiftRight, Nat.shiftRight_eq_div_pow]
    exact Nat.mod_eq_of_lt (Nat.lt_of_lt_of_le hhigh hpow)
  refine ⟨?_, ?_, ?_⟩
  · rw [howned]
    exact hlow
  · rw [hinst]
    exact hhigh
  · rw [howned, hinst]
    exact (Nat.mod_add_div _ _).symm

end halves

section calls

variable {m : Mem bits T n} {t : Fin n} {c : Call bits T}

/-- A new storage is pushed. -/
theorem startNew_checked (h : Admitted bits len) (hpos : 1 ≤ len) (val : T) :
    Checked.startNew len val = .ok (Call.startNew len val : Outcome (Call bits T) (Res T)) := by
  unfold Checked.startNew
  rw [withVal_checked h hpos]
  rfl

/-- What has to be known of a call. -/
structure Ready (len : Nat) (m : Mem bits T n) (c : Call bits T) : Prop where
  ok : CallOk len m c
  primary : Knows len m.primary (callClaims none c)
  storage : ∀ x b, callPlace c = .uses x b → Knows len (m.storage x) (callClaims (some x) c)
  pushes : (∃ val, c.op = .push val) → 1 ≤ len

/-- Nothing goes wrong in the next access of a call. -/
theorem callStep_checked (h : Admitted bits len) (hr : Ready len m c) (fails : Bool) :
    Checked.callStep len fails t m c = .ok (c.step len fails t m) := by
  obtain ⟨hok, hprimary, hstorage, hpushes⟩ := hr
  cases c with
  | pushPrimary tries val call =>
    rw [Checked.callStep, pushStep_checked h _ _ hok (by simpa [callClaims] using hprimary)]
    rfl
  | pushPeek val call =>
    -- What peek returned decides whether a new storage is made.
    have hpeeked : ∀ out, Checked.pushPeeked len val out
        = .ok (Call.pushPeeked len val out : Outcome (Call bits T) (Res T)) := by
      intro out
      cases out with
      | running call => rfl
      | done res =>
        cases res with
        | peeked e =>
          cases e with
          | none => exact startNew_checked h (hpushes ⟨val, rfl⟩) val
          | some x => rfl
        | _ => exact startNew_checked h (hpushes ⟨val, rfl⟩) val
    rw [Checked.callStep, hpeeked]
    rfl
  | pushStorage val x call =>
    -- A storage that is full sends the push to a new one.
    have hpushed : ∀ out, Checked.pushedStorage len val x out
        = .ok (Call.pushedStorage len val x out : Outcome (Call bits T) (Res T)) := by
      intro out
      cases out with
      | running call => rfl
      | done o =>
        cases o with
        | none => rfl
        | some val => exact startNew_checked h (hpushes ⟨_, rfl⟩) val
    rw [Checked.callStep,
      pushStep_checked h _ _ hok (by simpa [callClaims] using hstorage x false rfl)]
    show (Checked.pushedStorage len val x _).bind _ = _
    rw [hpushed]
    rfl
  | popStorage x call =>
    rw [Checked.callStep,
      popStep_checked h _ hok (by simpa [callClaims] using hstorage x false rfl)]
    rfl
  | popPrimary call =>
    rw [Checked.callStep, popStep_checked h _ hok (by simpa [callClaims] using hprimary)]
    rfl
  | allStorage x call =>
    rw [Checked.callStep, allStep_checked h _ hok.1]
    rfl
  | allPrimary call =>
    rw [Checked.callStep, allStep_checked h _ hok]
    rfl
  | pushNew val call => rfl
  | popPeek call => rfl
  | popDelete x val => rfl
  | allSwap => rfl
  | allPop acc call => rfl

end calls

section iterator

variable {m : Mem bits T n} {it : IterMut}

/-- Where the index of an iterator is: it has left a storage, or is not behind its last slot. -/
def IterOk (len : Nat) (c : IterCall bits T) : Prop :=
  match c.pc with
  | .load => c.it.currentIndex.toNat ≤ len
  | .next _ _ | .peek _ => c.it.currentIndex = BitVec.allOnes 32

/-- The iterator goes on from a slot, or from the end of a storage. -/
theorem resume_ok (hit : it.currentIndex.toNat ≤ len ∨ it.currentIndex = BitVec.allOnes 32)
    (y : List (Option (Option Addr × Nat))) (k : Nat) :
    outcome (fun c : IterCall bits T => IterOk len c) (fun _ => True) (IterCall.resume it y k) := by
  induction k generalizing y with
  | zero => exact trivial
  | succ k ih =>
    rw [IterCall.resume]
    split
    · exact ih _
    · rename_i hne
      exact hit.resolve_right hne

/-- The iterator has found the next storage, and starts with its first slot. -/
theorem found_ok {c : IterCall bits T} (hc : c.it.currentIndex = BitVec.allOnes 32)
    (o : Option Addr) : outcome (IterOk len) (fun _ => True) (c.found o) := by
  cases o with
  | none => exact resume_ok (.inr hc) _ _
  | some y => exact Nat.zero_le len

/-- The sum of the index and a number of zeros does not overflow. -/
theorem add_ok {x y : BitVec 32} (hx : x.toNat ≤ 64) (hy : y.toNat ≤ 32) :
    Checked.add x y = .ok (x + y) ∧ (x + y).toNat = x.toNat + y.toNat := by
  have hlt : x.toNat + y.toNat < 2 ^ 32 := by omega
  refine ⟨if_pos hlt, ?_⟩
  rw [BitVec.toNat_add]
  exact Nat.mod_eq_of_lt hlt

/-- Nothing goes wrong in the next access of an iterator. -/
theorem iterStep_checked (h : Admitted bits len) {c : IterCall bits T} (hc : IterOk len c) :
    Checked.iterStep len m c = .ok (c.step len m) := by
  unfold IterOk at hc
  unfold Checked.iterStep
  cases hpc : c.pc with
  | next x call => rfl
  | peek call => rfl
  | load =>
    rw [hpc] at hc
    have h32 := h.le_32
    have hctz : ∀ b : BitVec 32, b.ctz.toNat ≤ 32 := fun _ => BitVec.clz_le
    have hloaded : Checked.loaded len c (c.it.currentStorage m).metadata
        = .ok (c.loaded len (c.it.currentStorage m).metadata) := by
      generalize (c.it.currentStorage m).metadata = metadata
      unfold Checked.loaded IterCall.loaded IterMut.nextOccupied
      rw [instanceBitmap_checked h]
      unfold Checked.wrappingShr
      have hfirst := hctz
        (Storage.instanceBitmap len metadata >>> (c.it.currentIndex.toNat % 32))
      generalize (Storage.instanceBitmap len metadata >>> (c.it.currentIndex.toNat % 32)).ctz
        = firstOccupied at hfirst
      obtain ⟨hadd, hnext⟩ := add_ok (x := c.it.currentIndex) (y := firstOccupied)
        (Nat.le_trans hc (by omega)) hfirst
      obtain ⟨hadd', -⟩ := add_ok (x := c.it.currentIndex + firstOccupied) (y := 1)
        (by rw [hnext]; omega) (by decide)
      show (Checked.add _ _).bind _ = _
      rw [hadd]
      show (Checked.add _ _).bind _ = _
      rw [hadd']
      show (if _ then _ else _) = Except.ok (if _ then _ else _)
      split
      · rename_i hlt
        rw [slot_ok hlt]
        rfl
      · cases c.it.currentStackEntry <;> rfl
    rw [hloaded]
    unfold IterCall.step
    rw [hpc]
    rfl

/-- An access of an iterator leaves its index in range. -/
theorem iterOk_step (h32 : len ≤ 32) {c : IterCall bits T} (hc : IterOk len c) :
    outcome (IterOk len) (fun _ => True) (c.step len m).2 := by
  unfold IterOk at hc
  unfold IterCall.step
  cases hpc : c.pc with
  | load =>
    rw [hpc] at hc
    obtain ⟨hge, -, -⟩ := nextOccupied_spec (c.it.currentStorage m).metadata h32 rfl hc
    show outcome _ _ (c.loaded len (c.it.currentStorage m).metadata)
    unfold IterCall.loaded
    simp only
    split
    · rename_i hlt
      refine resume_ok (.inl ?_) _ _
      show (_ + 1 : BitVec 32).toNat ≤ len
      rw [(add_ok (Nat.le_trans (Nat.le_of_lt hlt) (by omega)) (by decide)).2]
      exact hlt
    · split
      · exact rfl
      · exact rfl
  | next x call =>
    rw [hpc] at hc
    show outcome _ _ (c.advanced x (call.step m.family.heap).2)
    cases (call.step m.family.heap).2 with
    | running call' => exact hc
    | done p => exact found_ok hc _
  | peek call =>
    rw [hpc] at hc
    show outcome _ _ (c.peeked ((m.family.mem none).step call).2)
    cases ((m.family.mem none).step call).2 with
    | running call' => exact hc
    | done res =>
      cases res with
      | peeked e => exact found_ok hc e
      | _ => exact found_ok hc none

/-- The states of `k + 1` calls of `next` of a new iterator. -/
def Iterating (len : Nat) (m₀ : Mem bits T n) (k : Nat) (m : Mem bits T n)
    (c : IterCall bits T) : Prop :=
  Relation.ReflTransGen
    (fun s s' => Outcome.advance (IterCall.step len) s = some s' ∨
      Mem.LetsGo IterCall.holds s s')
    (m₀, .running (.start k)) (m, .running c)

/-- Along a run of the iterator its index is in range. -/
theorem iterating_ok (h32 : len ≤ 32) {m₀ : Mem bits T n} {k : Nat} {c : IterCall bits T}
    (hc : Iterating len m₀ k m c) : IterOk len c := by
  refine env_invariant (P := fun s : Mem bits T n × Outcome (IterCall bits T) _ =>
    outcome (IterOk len) (fun _ => True) s.2) (fun s s' hs hstep => ?_) hc (Nat.zero_le len)
  obtain ⟨m, out⟩ := s
  rcases hstep with hown | ⟨x, -, -, -, -, rfl⟩
  · cases out with
    | running c =>
      cases hown
      exact iterOk_step h32 hs
    | done res => cases hown
  · exact hs

end iterator

section empty

variable {w w' : World bits T n} {t : Fin n}

/-- `push` has not been called. -/
def NoPush (history : List (Event (Fin n) (Bag.Op T) (Res T))) : Prop :=
  ∀ t val, Event.invoke t (.push val) ∉ history

/-- A call on a bag with `ARRAY_LEN` zero. -/
def BarrenCall : Call bits T → Prop
  | .pushPrimary tries val c => tries = true ∧ c = .load val
  | .popPeek c => c = .start .peek
  | .popPrimary c => c = .load
  | .allSwap => True
  | .allPop acc c => acc = [] ∧ c = .start .pop
  | .allPrimary c => c = .load []
  | _ => False

/-- Nothing has been stored. -/
structure Barren (w : World bits T n) : Prop where
  mem : w.mem = ⟨.new, .empty⟩
  pc : ∀ t, w.pc t = .idle ∨ ∃ c, w.pc t = .call c ∧ BarrenCall c

/-- A call on a stack that is empty changes nothing. -/
theorem setMem_empty (i : Option (Fin n)) :
    (Sdd.Stacks.Family.empty : Sdd.Stacks.Family (Storage bits T) (Option (Fin n))).setMem i
      (Sdd.Stacks.Family.empty.mem i) = .empty := by
  unfold Sdd.Stacks.Family.setMem
  rw [show (Sdd.Stacks.Family.empty.mem i : Stack.Mem (Storage bits T)).newest
    = (Sdd.Stacks.Family.empty : Sdd.Stacks.Family (Storage bits T) (Option (Fin n))).newest i
    from rfl, Function.update_eq_self]
  rfl

/-- Without slots there is none to take. -/
theorem search_zero (o : BitVec 32) (fuel : Nat) (b : BitVec 32) :
    Storage.search 0 o fuel b = none := by
  cases fuel with
  | zero => rfl
  | succ fuel => rw [Storage.search, if_neg (Nat.not_lt_zero _)]

/-- `push` finds no slot in the primary storage. -/
theorem pushLoop_zero (val : T) :
    PushCall.loop 0 true val (0 : BitVec bits) = .done (some val) := by
  unfold PushCall.loop
  simp only [search_zero]
  rfl

/-- `push` goes on to the stack, and `with_val` panics. -/
theorem push_panics (h : Admitted bits 0) (val : T) (fails : Bool) :
    Checked.callStep 0 fails t (⟨.new, .empty⟩ : Mem bits T n) (.pushPeek val (.start .peek))
      = .error .slot := by
  show (Checked.startNew 0 val).bind _ = _
  unfold Checked.startNew Checked.withVal
  rw [bit_ok h.lt_bits]
  rfl

/-- No access of a call changes anything. -/
theorem barren_step {c : Call bits T} (hc : BarrenCall c) (fails : Bool) :
    (c.step 0 fails t ⟨.new, .empty⟩).1 = ⟨.new, .empty⟩ ∧
      outcome BarrenCall (fun _ => True) (c.step 0 fails t ⟨.new, .empty⟩).2 := by
  have hsame : ∀ i : Option (Fin n), (⟨.new, .empty⟩ : Mem bits T n).setFamily
      (Sdd.Stacks.Family.empty.setMem i (Sdd.Stacks.Family.empty.mem i)) = ⟨.new, .empty⟩ :=
    fun i => congrArg (Mem.mk .new) (setMem_empty i)
  cases c with
  | pushPrimary tries val call =>
    obtain ⟨rfl, rfl⟩ := hc
    refine ⟨rfl, ?_⟩
    show outcome _ _ (Call.pushedPrimary true val (PushCall.loop 0 true val (0 : BitVec bits)))
    rw [pushLoop_zero]
    exact trivial
  | popPeek call =>
    cases hc
    exact ⟨hsame none, rfl⟩
  | popPrimary call =>
    cases hc
    have hloop : PopCall.loop (T := T) 0 (0 : BitVec bits) = .done (none, false) := by
      unfold PopCall.loop
      simp only [search_zero]
    refine ⟨rfl, ?_⟩
    show outcome _ _ (Call.poppedPrimary (PopCall.loop 0 (0 : BitVec bits)))
    rw [hloop]
    exact trivial
  | allSwap =>
    refine ⟨?_, rfl, rfl⟩
    show Mem.mk _ (Sdd.Stacks.Family.mk _ _ _ _) = _
    refine congrArg (Mem.mk .new) (congrArg (fun f => Sdd.Stacks.Family.mk f _ _ _) ?_)
    funext i
    by_cases hi : i = none
    · rw [hi, Function.update_self]
    · rw [Function.update_of_ne hi]
      by_cases ht : i = some t
      · rw [ht, Function.update_self]
        rfl
      · rw [Function.update_of_ne ht]
        rfl
  | allPop acc call =>
    obtain ⟨rfl, rfl⟩ := hc
    exact ⟨hsame (some t), rfl⟩
  | allPrimary call =>
    cases hc
    have hloop : AllCall.loop 0 ([] : List T) (0 : BitVec bits) = .done [] := by
      unfold AllCall.loop AllCall.instancesToPop Storage.instanceBitmap
      simp
    refine ⟨rfl, ?_⟩
    show outcome _ _ (Call.allTakenPrimary (AllCall.loop 0 [] (0 : BitVec bits)))
    rw [hloop]
    exact trivial
  | pushPeek val call => exact hc.elim
  | pushStorage val x call => exact hc.elim
  | pushNew val call => exact hc.elim
  | popStorage x call => exact hc.elim
  | popDelete x val => exact hc.elim
  | allStorage x call => exact hc.elim

/-- A call that looks through the bag changes nothing. -/
theorem leaves_empty {C R : Type} {step : Mem bits T n → C → Mem bits T n × Outcome C R}
    {holds : Addr → C → Bool} {call : C} {res : R} {m : Mem bits T n} (Q : C → Prop)
    (hstep : ∀ c, Q c → (step ⟨.new, .empty⟩ c).1 = ⟨.new, .empty⟩ ∧
      outcome Q (fun _ => True) (step ⟨.new, .empty⟩ c).2) (hq : Q call)
    (h : Mem.Leaves ⟨.new, .empty⟩ step holds call res m) : m = ⟨.new, .empty⟩ := by
  refine (env_invariant (P := fun s : Mem bits T n × Outcome C R =>
    s.1 = ⟨.new, .empty⟩ ∧ outcome Q (fun _ => True) s.2) (fun s s' hs hnext => ?_) h
    ⟨rfl, hq⟩).1
  obtain ⟨m, out⟩ := s
  obtain ⟨rfl, hs⟩ := hs
  rcases hnext with hown | ⟨x, hlt, -⟩
  · cases out with
    | running c =>
      cases hown
      exact hstep c hs
    | done res => cases hown
  · exact absurd hlt (Nat.not_lt_zero x)

/-- What other threads see of an empty bag without slots stays empty. -/
theorem observed_empty {m : Mem bits T n} (h : World.Observed 0 ⟨.new, .empty⟩ m) :
    m = ⟨.new, .empty⟩ := by
  have hsame : (⟨.new, .empty⟩ : Mem bits T n).setFamily
      (Sdd.Stacks.Family.empty.setMem none (Sdd.Stacks.Family.empty.mem none)) = ⟨.new, .empty⟩ :=
    congrArg (Mem.mk .new) (setMem_empty none)
  cases h with
  | len k h =>
    refine leaves_empty (fun c => c = .iter (.start .peek) ∨ c = .primary none)
      (fun c hc => ?_) (.inl rfl) h
    rcases hc with rfl | rfl
    · exact ⟨hsame, .inr rfl⟩
    · exact ⟨rfl, trivial⟩
  | isEmpty b h =>
    refine leaves_empty (fun c => c = .primary ∨ c = .stack (.start .isEmpty))
      (fun c hc => ?_) (.inl rfl) h
    rcases hc with rfl | rfl
    · refine ⟨rfl, ?_⟩
      simp only [EmptyCall.step]
      split
      · exact .inr rfl
      · exact trivial
    · exact ⟨hsame, trivial⟩
  | iterMut k yielded h =>
    refine leaves_empty (fun c => c.it.currentStackEntry = none ∧
      (c.pc = .load ∨ c.pc = .peek (.start .peek))) (fun c hc => ?_) ⟨rfl, .inl rfl⟩ h
    obtain ⟨hentry, hpc⟩ := hc
    have hresume : ∀ (k : Nat) (y : List (Option (Option Addr × Nat))),
        outcome (fun c : IterCall bits T => c.it.currentStackEntry = none ∧
          (c.pc = .load ∨ c.pc = .peek (.start .peek))) (fun _ => True)
          (IterCall.resume c.it y k) := by
      intro k
      induction k with
      | zero => exact fun _ => trivial
      | succ k ih =>
        intro y
        rw [IterCall.resume]
        split
        · exact ih _
        · exact ⟨hentry, .inl rfl⟩
    unfold IterCall.step
    rcases hpc with hpc | hpc
    · rw [hpc]
      refine ⟨rfl, ?_⟩
      show outcome _ _ (c.loaded 0 (c.it.currentStorage (⟨.new, .empty⟩ : Mem bits T n)).metadata)
      unfold IterCall.loaded
      simp only
      rw [if_neg (Nat.not_lt_zero _), hentry]
      exact ⟨hentry, .inr rfl⟩
    · rw [hpc]
      exact ⟨hsame, hresume _ _⟩

/-- Nothing is ever stored if `push` is not called. -/
theorem barren_of_reached (h : World.Reached 0 w) (hno : NoPush w.history) : Barren w := by
  induction h with
  | init => exact ⟨rfl, fun _ => .inl rfl⟩
  | @observe w m _ hidle ho ih =>
    have hb := ih hno
    refine ⟨observed_empty ?_, hb.pc⟩
    rw [← hb.mem]
    exact ho
  | @step w w' a _ hs ih =>
    cases stepped hs with
    | invoke t op hpc =>
      have hb := ih fun u val hmem => hno u val (List.mem_append_left _ hmem)
      refine ⟨hb.mem, fun u => ?_⟩
      show Function.update w.pc t _ u = _ ∨ ∃ c, Function.update w.pc t _ u = _ ∧ _
      by_cases hu : u = t
      · rw [hu, Function.update_self]
        refine .inr ⟨.start op, rfl, ?_⟩
        cases op with
        | push val =>
          exact absurd (List.mem_append_right _ (List.mem_singleton.mpr rfl)) (hno t val)
        | tryPush val => exact ⟨rfl, rfl⟩
        | pop => exact rfl
        | popAll => exact trivial
      · rw [Function.update_of_ne hu]
        exact hb.pc u
    | call t c fails hpc =>
      have hhist : ∀ r, ∃ l, (w.called t c.op r).history = w.history ++ l := by
        rintro ⟨m, out⟩
        cases out with
        | running c' => exact ⟨[], (List.append_nil _).symm⟩
        | done res => exact ⟨_, rfl⟩
      obtain ⟨l, hl⟩ := hhist (c.step 0 fails t w.mem)
      have hb := ih fun u val hmem => hno u val (by rw [hl]; exact List.mem_append_left _ hmem)
      obtain ⟨hmem, hpc'⟩ := called_eq (w := w) (t := t) c.op (c.step 0 fails t w.mem)
      have hc : BarrenCall c := by
        rcases hb.pc t with hidle | ⟨c', hc', hbarren⟩
        · cases hpc.symm.trans hidle
        · cases hpc.symm.trans hc'
          exact hbarren
      rw [hb.mem] at hmem hpc' ⊢
      obtain ⟨hsame, hout⟩ := barren_step (t := t) hc fails
      refine ⟨hmem.trans hsame, fun u => ?_⟩
      rw [hpc']
      by_cases hu : u = t
      · rw [hu, Function.update_self]
        cases hres : (c.step 0 fails t ⟨.new, .empty⟩).2 with
        | running c' =>
          rw [hres] at hout
          exact .inr ⟨c', rfl, hout⟩
        | done res => exact .inl rfl
      · rw [Function.update_of_ne hu]
        exact hb.pc u
    | clean t c fails p hpc hp =>
      rcases (ih hno).pc t with hidle | ⟨c', hc', -⟩
      · cases hpc.symm.trans hidle
      · cases hpc.symm.trans hc'
    | drop t x y hpc hy =>
      rw [(ih hno).mem] at hy
      cases hy
    | release x hx =>
      obtain ⟨hlt, -⟩ := unowned_iff hx
      rw [(ih hno).mem] at hlt
      exact absurd hlt (Nat.not_lt_zero x)

end empty

section works

variable {w : World bits T n}

/-- The storage at `loc` is one of the bag. -/
def InBag (m : Mem bits T n) (loc : Option Addr) : Prop :=
  ∀ x, loc = some x → x ∈ m.family.attached

/-- Nothing goes wrong from here:

* the next access of each call that is in progress does the same with the checks as without;
* so does every access of an iterator over the bag, however often it is asked;
* the metadata of each storage consists of the two bitmaps;
* the destructor of each storage does the same with the checks as without. -/
structure Works (len : Nat) (w : World bits T n) : Prop where
  calls : ∀ t c fails, w.pc t = .call c →
    Checked.callStep len fails t w.mem c = .ok (c.step len fails t w.mem)
  iterMut : ∀ k m c, Iterating len w.mem k m c → Checked.iterStep len m c = .ok (c.step len m)
  halves : ∀ loc, InBag w.mem loc → Halves len (storageAt w.mem loc).metadata
  drop : ∀ loc, InBag w.mem loc →
    Checked.drop len (storageAt w.mem loc) = .ok ((storageAt w.mem loc).drop len)

/-- What is asked of each call, and of each storage. -/
theorem works_of_ready (h : Admitted bits len)
    (hcalls : ∀ t c, w.pc t = .call c → Ready len w.mem c)
    (hhigh : ∀ loc, InBag w.mem loc → High len (storageAt w.mem loc).metadata) :
    Works len w where
  calls t c fails hpc := callStep_checked h (hcalls t c hpc) fails
  iterMut _ _ _ hc := iterStep_checked h (iterating_ok h.le_32 hc)
  halves loc hloc := halves h (hhigh loc hloc)
  drop loc hloc := drop_checked h (hhigh loc hloc)

/-- What is known of the calls on a bag whose storages have slots. -/
theorem works_of_inv (h : Admitted bits len) (hpos : 1 ≤ len) (hinv : Inv len w.mem w.pc) :
    Works len w := by
  refine works_of_ready h (fun t c hpc => ⟨hinv.calls t c hpc, knows_primary hinv hpc,
    fun x b hx => knows_storage hinv hpc hx, fun _ => hpos⟩) fun loc hloc => ?_
  cases loc with
  | none => exact hinv.primary.high
  | some x => exact (hinv.storages x (hloc x rfl)).2.high

/-- Metadata without bits. -/
theorem high_zero : High len (0 : BitVec bits) := fun _ _ => BitVec.getLsbD_zero

/-- What is known of the calls on a bag whose storages have none. -/
theorem works_of_barren (h : Admitted bits 0) (hb : Barren w) : Works 0 w := by
  have hknows : ∀ k : Claims T, k = unclaimed → Knows 0 (.new : Storage bits T) k := by
    rintro k rfl
    exact ⟨fun _ _ hk => (by cases hk), fun _ hi => absurd hi (Nat.not_lt_zero _), high_zero⟩
  refine works_of_ready h (fun t c hpc => ?_) fun loc hloc => ?_
  · obtain ⟨c', hc', hbarren⟩ := (hb.pc t).resolve_left fun hidle => by
      cases hpc.symm.trans hidle
    cases hpc.symm.trans hc'
    rw [hb.mem]
    cases c with
    | pushPrimary tries val call =>
      obtain ⟨rfl, rfl⟩ := hbarren
      exact ⟨rfl, hknows _ rfl, nofun, fun ⟨_, hop⟩ => by cases hop⟩
    | popPeek call =>
      cases hbarren
      exact ⟨rfl, hknows _ rfl, nofun, fun ⟨_, hop⟩ => by cases hop⟩
    | popPrimary call =>
      cases hbarren
      exact ⟨trivial, hknows _ rfl, nofun, fun ⟨_, hop⟩ => by cases hop⟩
    | allSwap => exact ⟨trivial, hknows _ rfl, nofun, fun ⟨_, hop⟩ => by cases hop⟩
    | allPop acc call =>
      obtain ⟨rfl, rfl⟩ := hbarren
      exact ⟨rfl, hknows _ rfl, nofun, fun ⟨_, hop⟩ => by cases hop⟩
    | allPrimary call =>
      cases hbarren
      exact ⟨trivial, hknows _ rfl, nofun, fun ⟨_, hop⟩ => by cases hop⟩
    | _ => exact hbarren.elim
  · rw [hb.mem] at hloc ⊢
    cases loc with
    | none => exact high_zero
    | some x => cases hloc x rfl

/-- An idle thread calls an operation. -/
theorem step_invoke {t : Fin n} {op : Bag.Op T} (hidle : w.pc t = .idle) :
    w.step len (.thread t (.invoke op)) = some
      ⟨w.mem, Function.update w.pc t (.call (.start op)), w.history ++ [Event.invoke t op]⟩ := by
  unfold World.step
  simp only [hidle]
  rfl

/-- Every `ARRAY_LEN` that `CHECK_ARRAY_LEN` admits works, if it is not zero or `push` is not
called: nothing goes wrong in any state of a bag that any number of threads use. If it is zero,
the first call of `push` panics in `with_val`, at its second access. -/
theorem arrayLen_works (h : Admitted bits len) :
    (∀ w : World bits T n, World.Reached len w → 1 ≤ len ∨ NoPush w.history → Works len w) ∧
    (len = 0 → ∀ (w : World bits T n) t val, World.Reached len w → NoPush w.history →
      w.pc t = .idle → ∃ w₁ w₂ c, w.step len (.thread t (.invoke (.push val))) = some w₁ ∧
        w₁.step len (.thread t (.proceed false)) = some w₂ ∧ w₂.pc t = .call c ∧
        ∀ fails, Checked.callStep len fails t w₂.mem c = .error .slot) := by
  refine ⟨fun w hr hpush => ?_, fun hzero w t val hr hno hidle => ?_⟩
  · by_cases hpos : 1 ≤ len
    · exact works_of_inv h hpos (inv_of_reached (h.arrayLen hpos) hr)
    · obtain rfl : len = 0 := by omega
      exact works_of_barren h (barren_of_reached hr (hpush.resolve_left hpos))
  · subst hzero
    obtain ⟨m, pc, history⟩ := w
    have hb := (barren_of_reached hr hno).mem
    cases hb
    refine ⟨_, _, .pushPeek val (.start .peek), step_invoke hidle,
      proceed_eq (Function.update_self ..), ?_, fun fails => ?_⟩
    · rw [(called_eq _ _).2, Function.update_self]
      show next (Call.pushedPrimary false val (PushCall.loop 0 true val (0 : BitVec bits))) = _
      rw [pushLoop_zero]
      rfl
    · rw [(called_eq _ _).1]
      exact push_panics h val fails

/-- A full primary storage of the greatest length that 32 bits admit, and a new storage. -/
theorem arrayLen_works_full : ∃ w : World 32 Nat 1, (w.mem.primary.slots 15).isSome = true ∧
    w.mem.family.newest none = some 0 ∧ Works 16 w := by
  have h : (exec (World.step 16) (fun _ _ => true) (World.init : World 32 Nat 1)
      (List.flatten (List.replicate 16 (call 0 (.push 5) 4)) ++ call 0 (.push 7) 5)).any
        (fun w => (w.mem.primary.slots 15).isSome && w.mem.family.newest none == some 0) = true := by
    decide +kernel
  obtain ⟨w, hw, h⟩ := Run.of_exec_any h
  simp only [Bool.and_eq_true, beq_iff_eq] at h
  have hreached : World.Reached 16 w :=
    hw.invariant (World.Reached 16) .init fun _ _ _ h _ hs => .step h hs
  exact ⟨w, h.1, h.2, (arrayLen_works ⟨by decide, by decide⟩).1 w hreached (.inl (by decide))⟩

/-- The next access of the thread accesses a slot that does not exist. -/
def misses (len : Nat) (t : Fin n) (w : World bits T n) : Bool :=
  match w.pc t with
  | .call c =>
    match Checked.callStep len false t w.mem c with
    | .error .slot => true
    | _ => false
  | _ => false

/-- `CHECK_ARRAY_LEN` admits zero, and the first call of `push` panics. -/
theorem push_into_nothing : Admitted 64 0 ∧
    ∃ w : World 64 Nat 1, World.Reached 0 w ∧ ¬Works 0 w := by
  refine ⟨⟨by decide, by decide⟩, ?_⟩
  have h : (exec (World.step 0) (fun _ _ => true) (World.init : World 64 Nat 1)
      (call 0 (.push 5) 1)).any (misses 0 0) = true := by
    decide +kernel
  obtain ⟨w, hw, h⟩ := Run.of_exec_any h
  refine ⟨w, hw.invariant (World.Reached 0) .init fun _ _ _ h _ hs => .step h hs, fun hworks => ?_⟩
  unfold misses at h
  split at h
  · rename_i c hpc
    rw [hworks.calls 0 c false hpc] at h
    cases h
  · cases h

end works

end Proofs.Bag

end Sdd
