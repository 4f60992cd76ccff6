import Sdd.Proofs.Bag.Slots

/-!
# `Sdd.Proofs.Bag.Calls`: calls on a storage

What one access of a call of `push`, `pop` or `pop_all` does to a storage. Each call has claims
on the slots that it owns (`pushClaims`, `popClaims`, `allClaims`) and instances at hand, and it
knows something of its arguments (`PushOk`, `PopOk`, `AllOk`). `CallStep` says that an access
moves the claims, and that no instance is lost or made.

The lemmas `Knows.lock` to `Knows.unlock` are the changes of the metadata and the slots, one for
each kind of access. `pushCall_step`, `popCall_step` and `allCall_step` put them together.
-/

set_option autoImplicit false

namespace Sdd.Proofs.Bag

variable {bits len : Nat} {T : Type}

/-- What is said of a call is said of its result, too. -/
def outcome {C R X : Type} (f : C → X) (g : R → X) : Outcome C R → X
  | .running call => f call
  | .done res => g res

/-- An access of a party: its claims and the instances that it has at hand change. -/
structure CallStep (len : Nat) (s s' : Storage bits T) (c c' : Claims T) (v v' : Multiset T) :
    Prop where
  moves : Moves len s s' c c'
  values : values len s' + v' = values len s + v

section moves

variable {s s' : Storage bits T} {c c' : Claims T} {index : Nat} {k : Claim T} {v : Multiset T}

@[simp] theorem claims_self : claims index k index = some k := Function.update_self ..

theorem claims_of_ne {i : Nat} (hi : i ≠ index) : claims index k i = none :=
  Function.update_of_ne hi ..

/-- Nothing changes. -/
theorem Knows.stays (h : Knows len s c) : CallStep len s s c c v v where
  moves := ⟨fun _ _ => .inl ⟨rfl, rfl⟩, fun i k hk => (h.claimed i k hk).1, h.high⟩
  values := rfl

/-- Only the slot `index` changes. -/
theorem Moves.single (hi : index < len)
    (hcell : ∀ i < len, i ≠ index → cell len s' i = cell len s i)
    (hc : ∀ i, i ≠ index → c i = none ∧ c' i = none)
    (hfree : c index ≠ none ∨ owned s.metadata index = false)
    (hmatch : Matches (cell len s' index) (c' index)) (hhigh : High len s'.metadata) :
    Moves len s s' c c' where
  cells i hlt := by
    by_cases h : i = index
    · rw [h]
      exact .inr ⟨hfree, hmatch⟩
    · exact .inl ⟨hcell i hlt h, (hc i h).2.trans (hc i h).1.symm⟩
  bound i k hk := by
    by_cases h : i = index
    · rw [h]
      exact hi
    · rw [(hc i h).2] at hk
      cases hk
  high := hhigh

/-- The two bitmaps are the same elsewhere. -/
theorem cell_setMetadata {m : BitVec bits} {i : Nat} (hinst : inst len m i = inst len s.metadata i)
    (howned : owned m i = owned s.metadata i) : cell len (s.setMetadata m) i = cell len s i := by
  show Cell.mk (inst len m i) (owned m i) (s.slots i) = _
  rw [hinst, howned]
  rfl

variable (h : ArrayLen bits len)
include h

/-- A slot that nobody owns is marked as owned. -/
theorem Knows.lock (hk : Knows len s unclaimed) (hi : index < len)
    (hfree : owned s.metadata index = false)
    (hmatch : Matches ⟨inst len s.metadata index, true, s.slots index⟩ (some k)) :
    CallStep len s (s.setMetadata (s.metadata ||| (BitVec.ofNat bits 1 <<< index))) unclaimed
      (claims index k)
      v v where
  moves := by
    refine .single hi (fun i hlt hne => ?_) (fun i hne => ⟨rfl, claims_of_ne hne⟩) (.inr hfree) ?_
      (high_lock h hi hk.high)
    · exact cell_setMetadata (inst_lock h hi) (by rw [owned_lock h hi]; simp [hne])
    · rw [claims_self]
      show Matches ⟨inst len (s.metadata ||| _) index, owned (s.metadata ||| _) index, _⟩ _
      rw [inst_lock h hi, owned_lock h hi, decide_eq_true rfl, Bool.or_true]
      exact hmatch
  values := rfl

omit h in
/-- The contents of an owned slot change. -/
theorem Knows.setSlot {k' : Claim T} {o : Option T} {v' : Multiset T}
    (hk : Knows len s (claims index k))
    (hmatch : Matches ⟨inst len s.metadata index, owned s.metadata index, o⟩ (some k'))
    (hv : held o + v' = held (s.slots index) + v) :
    CallStep len s (s.setSlot index o) (claims index k) (claims index k') v v' := by
  obtain ⟨hi, -⟩ := hk.claimed index k claims_self
  constructor
  case moves =>
    refine .single hi (fun i _ hne => ?_) (fun i hne => ⟨claims_of_ne hne, claims_of_ne hne⟩)
      (.inl (by simp)) ?_ hk.high
    · show Cell.mk _ _ (Function.update s.slots index o i) = _
      rw [Function.update_of_ne hne]
      rfl
    · rw [claims_self]
      show Matches ⟨_, _, Function.update s.slots index o index⟩ _
      rw [Function.update_self]
      exact hmatch
  case values =>
    have hsum := values_setSlot (s := s) hi o
    refine add_right_cancel (b := held (s.slots index)) ?_
    calc values len (s.setSlot index o) + v' + held (s.slots index)
        = values len s + held o + v' := by rw [add_right_comm, hsum]
      _ = values len s + (held (s.slots index) + v) := by rw [add_assoc, hv]
      _ = values len s + v + held (s.slots index) := by rw [add_comm (held _), add_assoc]

/-- The owner of a slot that is not instantiated lets go of it. -/
theorem Knows.rollBack (hk : Knows len s (claims index .empty)) :
    CallStep len s (s.setMetadata (s.metadata &&& ~~~(BitVec.ofNat bits 1 <<< index)))
      (claims index .empty)
      unclaimed v v where
  moves := by
    obtain ⟨hi, -, hinst, hslot⟩ := hk.claimed index _ claims_self
    refine .single hi (fun i hlt hne => ?_) (fun i hne => ⟨claims_of_ne hne, rfl⟩)
      (.inl (by simp)) ?_ (high_and_not hk.high _)
    · exact cell_setMetadata (inst_rollBack h hi) (by rw [owned_rollBack h hi]; simp [hne])
    · refine ⟨(owned_rollBack h hi).trans (by simp), ?_⟩
      exact (congrArg Option.isSome hslot).trans ((inst_rollBack h hi).trans hinst).symm
  values := rfl

/-- The owner of a slot marks it as instantiated and lets go of it. -/
theorem Knows.publish {val : T} (hk : Knows len s (claims index (.written val))) :
    CallStep len s
      (s.setMetadata ((s.metadata &&& ~~~(BitVec.ofNat bits 1 <<< index)) |||
        (BitVec.ofNat bits 1 <<< (index + len))))
      (claims index (.written val)) unclaimed v v where
  moves := by
    obtain ⟨hi, -, -, hslot⟩ := hk.claimed index _ claims_self
    refine .single hi (fun i hlt hne => ?_) (fun i hne => ⟨claims_of_ne hne, rfl⟩)
      (.inl (by simp)) ?_ (high_publish h hi hk.high)
    · exact cell_setMetadata (by rw [inst_publish h hi]; simp [hne])
        (by rw [owned_publish h hi hlt]; simp [hne])
    · refine ⟨(owned_publish h hi hi).trans (by simp), ?_⟩
      exact (congrArg Option.isSome hslot).trans ((inst_publish h hi).trans (by simp)).symm
  values := rfl

/-- The owner of a slot marks it as not instantiated and lets go of it. -/
theorem Knows.clear (hk : Knows len s (claims index .taken)) :
    CallStep len s
      (s.setMetadata (s.metadata &&& ~~~((BitVec.ofNat bits 1 <<< index) |||
        (BitVec.ofNat bits 1 <<< (index + len)))))
      (claims index .taken) unclaimed v v where
  moves := by
    obtain ⟨hi, -, -, hslot⟩ := hk.claimed index _ claims_self
    refine .single hi (fun i hlt hne => ?_) (fun i hne => ⟨claims_of_ne hne, rfl⟩)
      (.inl (by simp)) ?_ (high_and_not hk.high _)
    · exact cell_setMetadata (by rw [inst_clear h hi]; simp [hne])
        (by rw [owned_clear h hi hlt]; simp [hne])
    · refine ⟨(owned_clear h hi hi).trans (by simp), ?_⟩
      exact (congrArg Option.isSome hslot).trans ((inst_clear h hi).trans (by simp)).symm
  values := rfl

end moves

section push

/-- What a call of `push` knows. `val` is the argument. -/
def PushOk (len : Nat) (val : T) : PushCall bits T → Prop
  | .load v | .write v _ | .rollBack v _ => v = val
  | .exchange v m index => v = val ∧ index < len ∧ inst len m index = false ∧ owned m index = false
  | .publish _ | .readBack _ => True
  | .uninit => False

def pushClaims (val : T) : PushCall bits T → Claims T
  | .write _ index | .rollBack _ index => claims index .empty
  | .publish index | .readBack index => claims index (.written val)
  | .load _ | .exchange _ _ _ | .uninit => unclaimed

/-- The instance that a call of `push` has not stored. -/
def pushHolds : PushCall bits T → Multiset T
  | .load v | .exchange v _ _ | .write v _ | .rollBack v _ => {v}
  | .publish _ | .readBack _ | .uninit => 0

/-- What is known of a call of `push` after an access. -/
structure PushStep (len : Nat) (val : T) (s : Storage bits T) (call : PushCall bits T)
    (r : Storage bits T × Outcome (PushCall bits T) (Option T)) : Prop where
  step : CallStep len s r.1 (pushClaims val call)
    (outcome (pushClaims val) (fun _ => unclaimed) r.2) (pushHolds call) (outcome pushHolds held r.2)
  ok : outcome (PushOk len val) (fun o => ∀ v, o = some v → v = val) r.2

variable {s : Storage bits T} {val : T} {allowEmpty fails : Bool}

/-- One turn of the loop of `push`. -/
theorem pushLoop_step (h : ArrayLen bits len) {call : PushCall bits T} (hk : Knows len s unclaimed)
    (hc : pushClaims val call = unclaimed) (hv : pushHolds call = {val}) :
    PushStep len val s call (s, PushCall.loop len allowEmpty val s.metadata) := by
  have hstays : CallStep len s s unclaimed unclaimed {val} {val} := hk.stays
  unfold PushCall.loop
  simp only
  split
  · exact ⟨by rw [hc, hv]; exact hstays, fun v hv => (Option.some.inj hv).symm⟩
  · split
    · rename_i index hs
      obtain ⟨hi, hinst, howned⟩ := search_some h.le_32 hs
      rw [getLsbD_instanceBitmap (Nat.lt_of_lt_of_le hi h.le_32)] at hinst
      rw [getLsbD_ownedBitmap h] at howned
      exact ⟨by rw [hc, hv]; exact hstays, rfl, hi, hinst, by simpa [hi] using howned⟩
    · exact ⟨by rw [hc, hv]; exact hstays, fun v hv => (Option.some.inj hv).symm⟩

/-- One access of a call of `push`. -/
theorem pushCall_step (h : ArrayLen bits len) {call : PushCall bits T}
    (hk : Knows len s (pushClaims val call)) (hok : PushOk len val call) :
    PushStep len val s call (call.step len allowEmpty fails s) := by
  -- The exchange takes a free slot, the writes concern that slot only, and the last exchange gives
  -- it back.
  cases call with
  | load v =>
    cases hok
    exact pushLoop_step h hk rfl rfl
  | exchange v m index =>
    obtain ⟨rfl, hi, hinst, howned⟩ := hok
    simp only [PushCall.step]
    -- The exchange succeeds if the metadata is what it was: then the slot is still free.
    split
    · rename_i heq
      rw [← heq.1] at hinst howned ⊢
      refine ⟨hk.lock h hi howned ⟨rfl, hinst, ?_⟩, rfl⟩
      have hslot : (s.slots index).isSome = inst len s.metadata index := (hk.free index hi howned).2
      rw [hinst] at hslot
      simpa using hslot
    · exact pushLoop_step h hk rfl rfl
  | write v index =>
    cases hok
    obtain ⟨-, howned, hinst, hslot⟩ := hk.claimed index _ claims_self
    have hslot' : s.slots index = none := hslot
    refine ⟨hk.setSlot ⟨howned, hinst, rfl⟩ ?_, trivial⟩
    rw [hslot']
    show ({val} : Multiset T) + 0 = 0 + {val}
    exact add_comm _ _
  | publish index =>
    -- The bag is not empty, or nothing may be pushed into an empty one.
    simp only [PushCall.step]
    split
    · exact ⟨hk.stays, trivial⟩
    · exact ⟨hk.publish h, nofun⟩
  | readBack index =>
    obtain ⟨-, howned, hinst, hslot⟩ := hk.claimed index _ claims_self
    have hslot' : s.slots index = some val := hslot
    simp only [PushCall.step, hslot']
    refine ⟨hk.setSlot ⟨howned, hinst, rfl⟩ ?_, rfl⟩
    rw [hslot']
    show (0 : Multiset T) + {val} = {val} + 0
    exact add_comm _ _
  | rollBack v index =>
    cases hok
    exact ⟨hk.rollBack h, fun v hv => (Option.some.inj hv).symm⟩
  | uninit => cases hok

end push

section pop

/-- What a call of `pop` knows. -/
def PopOk (len : Nat) : PopCall bits T → Prop
  | .exchange m index => index < len ∧ inst len m index = true ∧ owned m index = false
  | .load | .read _ | .clear _ _ => True
  | .uninit => False

def popClaims : PopCall bits T → Claims T
  | .read index => claims index .full
  | .clear _ index => claims index .taken
  | .load | .exchange _ _ | .uninit => unclaimed

/-- The instance that a call of `pop` has read. -/
def popHolds : PopCall bits T → Multiset T
  | .clear inst _ => {inst}
  | .load | .exchange _ _ | .read _ | .uninit => 0

/-- What is known of a call of `pop` after an access. -/
structure PopStep (len : Nat) (s : Storage bits T) (call : PopCall bits T)
    (r : Storage bits T × Outcome (PopCall bits T) (Option T × Bool)) : Prop where
  step : CallStep len s r.1 (popClaims call) (outcome popClaims (fun _ => unclaimed) r.2)
    (popHolds call) (outcome popHolds (fun res => held res.1) r.2)
  ok : outcome (PopOk len) (fun res => res.2 = true → ∀ i < len, inst len r.1.metadata i = false) r.2

variable {s : Storage bits T} {fails : Bool}

/-- One turn of the loop of `pop`. -/
theorem popLoop_step (h : ArrayLen bits len) {call : PopCall bits T} (hk : Knows len s unclaimed)
    (hc : popClaims call = unclaimed) (hv : popHolds call = 0) :
    PopStep len s call (s, PopCall.loop len s.metadata) := by
  have hstays : CallStep len s s unclaimed unclaimed 0 0 := hk.stays
  unfold PopCall.loop
  simp only
  split
  · rename_i index hs
    obtain ⟨hi, hinst, howned⟩ := search_some h.le_32 hs
    have h32 := Nat.lt_of_lt_of_le hi h.le_32
    rw [BitVec.getLsbD_not, getLsbD_instanceBitmap h32] at hinst
    rw [getLsbD_ownedBitmap h] at howned
    exact ⟨by rw [hc, hv]; exact hstays, hi, by simpa [h32] using hinst, by simpa [hi] using howned⟩
  · exact ⟨by rw [hc, hv]; exact hstays, nofun⟩

/-- One access of a call of `pop`. -/
theorem popCall_step (h : ArrayLen bits len) {call : PopCall bits T}
    (hk : Knows len s (popClaims call)) (hok : PopOk len call) :
    PopStep len s call (call.step len fails s) := by
  cases call with
  | load => exact popLoop_step h hk rfl rfl
  | exchange m index =>
    obtain ⟨hi, hinst, howned⟩ := hok
    simp only [PopCall.step]
    split
    · rename_i heq
      rw [← heq.1] at hinst howned ⊢
      refine ⟨hk.lock h hi howned ⟨rfl, hinst, ?_⟩, trivial⟩
      exact (hk.free index hi howned).2.trans hinst
    · exact popLoop_step h hk rfl rfl
  | read index =>
    obtain ⟨-, howned, hinst, hslot⟩ := hk.claimed index _ claims_self
    obtain ⟨val, hval⟩ := Option.isSome_iff_exists.mp hslot
    have hslot' : s.slots index = some val := hval
    simp only [PopCall.step, hslot']
    refine ⟨hk.setSlot ⟨howned, hinst, rfl⟩ ?_, trivial⟩
    rw [hslot']
    show (0 : Multiset T) + {val} = {val} + 0
    exact add_comm _ _
  | clear val index =>
    exact ⟨hk.clear h, fun hempty i hi => inst_eq_zero h (beq_iff_eq.mp hempty) hi⟩
  | uninit => cases hok

end pop

section all

/-- What a call of `pop_all` knows. -/
def AllOk (len : Nat) : AllCall bits T → Prop
  | .load _ => True
  | .exchange _ m instances => instances = AllCall.instancesToPop len m
  | .fold _ _ instances index => index < len ∧ instances.getLsbD index = true ∧
      ∀ i, instances.getLsbD i = true → i < len
  | .unlock _ _ instances => ∀ i, instances.getLsbD i = true → i < len
  | .uninit _ => False

/-- The claims on the slots `x`, some of which are full. -/
def foldClaims (x : BitVec bits) (full : Nat → Bool) : Claims T := fun i =>
  if x.getLsbD i then some (if full i then .full else .taken) else none

def allClaims : AllCall bits T → Claims T
  | .fold _ _ instances index => foldClaims instances fun i => decide (index ≤ i)
  | .unlock _ _ instances => foldClaims instances fun _ => false
  | .load _ | .exchange _ _ _ | .uninit _ => unclaimed

/-- The instances that a call of `pop_all` has folded. -/
def allHolds : AllCall bits T → Multiset T
  | .load acc | .exchange acc _ _ | .fold acc _ _ _ | .unlock acc _ _ | .uninit acc => acc

/-- What is known of a call of `pop_all` after an access. -/
structure AllStep (len : Nat) (s : Storage bits T) (call : AllCall bits T)
    (r : Storage bits T × Outcome (AllCall bits T) (List T)) : Prop where
  step : CallStep len s r.1 (allClaims call) (outcome allClaims (fun _ => unclaimed) r.2)
    (allHolds call) (outcome allHolds (fun acc : List T => (acc : Multiset T)) r.2)
  ok : outcome (AllOk len) (fun _ => True) r.2

variable {s : Storage bits T} {fails : Bool}

/-- One turn of the loop of `pop_all`. -/
theorem allLoop_step {call : AllCall bits T} {acc : List T}
    (hk : Knows len s unclaimed) (hc : allClaims call = unclaimed) (hv : allHolds call = acc) :
    AllStep len s call (s, AllCall.loop len acc s.metadata) := by
  have hstays : CallStep len s s unclaimed unclaimed (acc : Multiset T) acc := hk.stays
  unfold AllCall.loop
  split
  · exact ⟨by rw [hc, hv]; exact hstays, trivial⟩
  · exact ⟨by rw [hc, hv]; exact hstays, rfl⟩

section fold

variable {acc : List T} {m x y : BitVec bits}

/-- `pop_all` folds the slots in their order. The slots `y` are the ones that are left. -/
theorem foldLoop_ok (h : ArrayLen bits len) (acc : List T) (hx : ∀ i, x.getLsbD i = true → i < len)
    (hyx : ∀ i, y.getLsbD i = true → x.getLsbD i = true)
    (hxy : ∀ i j, x.getLsbD i = true → y.getLsbD i = false → y.getLsbD j = true → i < j) :
    outcome allClaims (fun _ => unclaimed) (AllCall.foldLoop len acc m x y.ctz.toNat)
        = foldClaims x y.getLsbD ∧
      outcome allHolds (fun acc : List T => (acc : Multiset T))
        (AllCall.foldLoop len acc m x y.ctz.toNat) = acc ∧
      outcome (AllOk len) (fun _ => True) (AllCall.foldLoop len acc m x y.ctz.toNat) := by
  -- Only the slots of `x` matter.
  have hsame : ∀ {f : Nat → Bool}, (∀ i, x.getLsbD i = true → f i = y.getLsbD i) →
      (foldClaims x f : Claims T) = foldClaims x y.getLsbD := by
    intro f hf
    funext i
    unfold foldClaims
    split
    · rename_i hi
      rw [hf i hi]
    · rfl
  unfold AllCall.foldLoop
  -- The loop stands at the first slot that is left, or it is done.
  split
  · rename_i hlt
    have hfirst := getLsbD_ctz hlt (Nat.le_of_lt h.lt_bits)
    refine ⟨hsame fun i hi => ?_, rfl, hlt, hyx _ hfirst, hx⟩
    cases hyi : y.getLsbD i with
    | true =>
      refine decide_eq_true (Nat.not_lt.mp fun hlt => ?_)
      rw [BitVec.getLsbD_false_of_lt_ctz hlt] at hyi
      cases hyi
    | false => exact decide_eq_false (Nat.not_le.mpr (hxy i _ hi hyi hfirst))
  · rename_i hge
    refine ⟨hsame fun i hi => ?_, rfl, hx⟩
    exact (BitVec.getLsbD_false_of_lt_ctz
      (Nat.lt_of_lt_of_le (hx i hi) (Nat.not_lt.mp hge))).symm

/-- All valid slots are marked as owned. -/
theorem Knows.lockAll (hk : Knows len s unclaimed) {v : Multiset T}
    (hx : ∀ i, x.getLsbD i = (decide (i < len) && valid len s.metadata i)) :
    CallStep len s (s.setMetadata (s.metadata ||| x)) unclaimed (foldClaims x x.getLsbD) v v where
  moves := by
    have hbound : ∀ i, x.getLsbD i = true → i < len := by
      intro i hi
      rw [hx i, Bool.and_eq_true] at hi
      exact of_decide_eq_true hi.1
    refine ⟨fun i hi => ?_, fun i k hki => ?_, high_lockAll hk.high hbound⟩
    · cases hxi : x.getLsbD i with
      | false =>
        refine .inl ⟨cell_setMetadata (inst_lockAll hbound) ?_, by simp [foldClaims, hxi, unclaimed]⟩
        rw [owned_lockAll, hxi, Bool.or_false]
      | true =>
        have hvalid : inst len s.metadata i = true ∧ owned s.metadata i = false := by
          have hv := hx i
          rw [hxi] at hv
          simpa [hi, valid] using hv.symm
        refine .inr ⟨.inr hvalid.2, ?_⟩
        simp only [foldClaims, hxi, if_pos]
        refine ⟨?_, (inst_lockAll hbound).trans hvalid.1, ?_⟩
        · show owned (s.metadata ||| x) i = true
          rw [owned_lockAll, hxi, Bool.or_true]
        · exact (hk.free i hi hvalid.2).2.trans hvalid.1
    · by_cases hxi : x.getLsbD i = true
      · exact hbound i hxi
      · rw [foldClaims, if_neg hxi] at hki
        cases hki
  values := rfl

/-- The slot `index` is folded. -/
theorem Knows.fold {index : Nat} {val : T} {full full' : Nat → Bool}
    (hk : Knows len s (foldClaims x full)) (hxi : x.getLsbD index = true)
    (hfull : full index = true) (hslot : s.slots index = some val)
    (hfull' : ∀ i, x.getLsbD i = true → full' i = (full i && !decide (i = index))) :
    CallStep len s (s.setSlot index none) (foldClaims x full) (foldClaims x full') acc
      (acc ++ [val] : List T) := by
  have hclaim : foldClaims x full index = some (.full : Claim T) := by
    rw [foldClaims, if_pos hxi, if_pos hfull]
  obtain ⟨hlt, howned, hinst, -⟩ := hk.claimed index _ hclaim
  -- The slot at `index` is emptied; the other slots of `x` stay as they are.
  constructor
  case moves =>
    refine ⟨fun i hi => ?_, fun i k hki => ?_, hk.high⟩
    -- The slot is the one that is emptied, or another one.
    · by_cases hne : i = index
      · subst hne
        refine .inr ⟨.inl (by rw [hclaim]; exact Option.some_ne_none _), ?_⟩
        have hnot : full' i = false := by
          rw [hfull' i hxi]
          simp
        rw [foldClaims, if_pos hxi, hnot]
        exact ⟨howned, hinst, Function.update_self ..⟩
      · refine .inl ⟨?_, ?_⟩
        · show Cell.mk _ _ (Function.update s.slots index none i) = _
          rw [Function.update_of_ne hne]
          rfl
        · unfold foldClaims
          by_cases hi : x.getLsbD i = true
          · rw [if_pos hi, if_pos hi, hfull' i hi]
            simp [hne]
          · rw [if_neg hi, if_neg hi]
    · by_cases hi : x.getLsbD i = true
      · have hsome : foldClaims x full i = some (if full i then .full else .taken : Claim T) := by
          rw [foldClaims, if_pos hi]
        exact (hk.claimed i _ hsome).1
      · rw [foldClaims, if_neg hi] at hki
        cases hki
  -- One value leaves the storage.
  case values =>
    have hsum := values_setSlot (s := s) hlt none
    rw [hslot] at hsum
    have hsum' : values len (s.setSlot index none) + {val} = values len s := hsum.trans (add_zero _)
    rw [← hsum', ← Multiset.coe_add, add_assoc]
    exact congrArg _ (add_comm _ _)

/-- The slots that have been folded are marked as not instantiated, and as not owned. -/
theorem Knows.unlock (h : ArrayLen bits len) {v : Multiset T}
    (hk : Knows len s (foldClaims x fun _ => false)) :
    CallStep len s (s.setMetadata (s.metadata &&& ~~~((x <<< len) ||| x)))
      (foldClaims x fun _ => false) unclaimed v v where
  moves := by
    have hclaim : ∀ i, x.getLsbD i = true → i < len ∧ Matches (cell len s i) (some .taken) :=
      fun i hi => hk.claimed i _ (if_pos hi)
    have hbound : ∀ i, x.getLsbD i = true → i < len := fun i hi => (hclaim i hi).1
    refine ⟨fun i hi => ?_, nofun, high_and_not hk.high _⟩
    cases hxi : x.getLsbD i with
    | false =>
      refine .inl ⟨cell_setMetadata ?_ ?_, ?_⟩
      · rw [inst_unlock h hi hbound, hxi]
        simp
      · rw [owned_unlock hi, hxi]
        simp
      · simp [foldClaims, hxi, unclaimed]
    | true =>
      obtain ⟨-, -, -, hslot⟩ := hclaim i hxi
      refine .inr ⟨.inl (by simp [foldClaims, hxi]), (owned_unlock hi).trans (by simp [hxi]), ?_⟩
      exact (congrArg Option.isSome hslot).trans
        ((inst_unlock h hi hbound).trans (by simp [hxi])).symm
  values := rfl

end fold

/-- One access of a call of `pop_all`. -/
theorem allCall_step (h : ArrayLen bits len) {call : AllCall bits T}
    (hk : Knows len s (allClaims call)) (hok : AllOk len call) :
    AllStep len s call (call.step len fails s) := by
  -- The exchange takes all instances that nobody owns, the loop moves them out one by one, and the
  -- last exchange gives the slots back.
  cases call with
  | load acc => exact allLoop_step hk rfl rfl
  | exchange acc m instances =>
    cases hok
    simp only [AllCall.step]
    split
    -- The exchange succeeds if the metadata is what it was.
    · rename_i heq
      obtain ⟨rfl, -⟩ := heq
      have hx : ∀ i, (AllCall.instancesToPop len s.metadata).getLsbD i
          = (decide (i < len) && valid len s.metadata i) :=
        fun _ => getLsbD_instancesToPop h hk.high
      have hbound : ∀ i, (AllCall.instancesToPop len s.metadata).getLsbD i = true → i < len := by
        intro i hi
        rw [hx i, Bool.and_eq_true] at hi
        exact of_decide_eq_true hi.1
      obtain ⟨hc, hv, hok'⟩ := foldLoop_ok
        (m := s.metadata ||| AllCall.instancesToPop len s.metadata) h acc hbound (fun _ hi => hi)
        (fun i j hi hni _ => by rw [hi] at hni; cases hni)
      refine ⟨?_, hok'⟩
      rw [hc, hv]
      exact hk.lockAll hx
    · exact allLoop_step hk rfl rfl
  | fold acc m instances index =>
    obtain ⟨hi, hmem, hbound⟩ := hok
    have hclaim : allClaims (.fold acc m instances index) index = some (.full : Claim T) := by
      simp [allClaims, foldClaims, hmem]
    obtain ⟨-, -, -, hslot⟩ := hk.claimed index _ hclaim
    obtain ⟨val, hval⟩ := Option.isSome_iff_exists.mp hslot
    have hslot' : s.slots index = some val := hval
    have hrest : ∀ i, (instances &&& ~~~((BitVec.ofNat bits 1 <<< (index + 1)) - 1)).getLsbD i
        = (instances.getLsbD i && decide (index < i)) := fun _ => getLsbD_rest h hi
    -- After the slot at `index` the loop goes on with the slots above it.
    obtain ⟨hc, hv, hok'⟩ := foldLoop_ok (m := m) h (acc ++ [val]) hbound
      (y := instances &&& ~~~((BitVec.ofNat bits 1 <<< (index + 1)) - 1))
      (fun i hy => by rw [hrest i, Bool.and_eq_true] at hy; exact hy.1)
      (fun i j hx hy hj => by
        simp only [hrest, hx, Bool.true_and, decide_eq_false_iff_not, Bool.and_eq_true,
          decide_eq_true_eq] at hy hj
        omega)
    simp only [AllCall.step, hslot']
    refine ⟨?_, hok'⟩
    rw [hc, hv]
    refine hk.fold hmem (by simp) hslot' fun i hx => ?_
    rw [hrest i, hx, Bool.true_and]
    by_cases hii : i = index
    · simp [hii]
    · simp [hii]
      omega
  | unlock acc m instances =>
    -- Nobody else touches the owned slots, but other slots may have changed: then the exchange is
    -- tried again.
    simp only [AllCall.step]
    split
    · rename_i heq
      rw [← heq.1]
      exact ⟨hk.unlock h, trivial⟩
    · exact ⟨hk.stays, hok⟩
  | uninit acc => cases hok

end all

section dead

/-!
A storage without valid slots stays so, unless `push` may store to an empty storage.
-/

variable {s : Storage bits T} {fails : Bool}

/-- Only a slot that was valid is valid. -/
theorem Dead.of_valid {s' : Storage bits T} (hd : Dead len s)
    (hv : ∀ i < len, valid len s'.metadata i = true → valid len s.metadata i = true) :
    Dead len s' := by
  intro i hi
  by_contra hne
  have hold := hv i hi ((Bool.not_eq_false _).mp hne)
  rw [hd i hi] at hold
  cases hold

theorem valid_lock (h : ArrayLen bits len) {m : BitVec bits} {index i : Nat} (hindex : index < len) :
    valid len (m ||| (BitVec.ofNat bits 1 <<< index)) i = (valid len m i && !decide (i = index)) := by
  unfold valid
  rw [inst_lock h hindex, owned_lock h hindex, Bool.not_or, Bool.and_assoc]

theorem valid_clear (h : ArrayLen bits len) {m : BitVec bits} {index i : Nat} (hindex : index < len)
    (hi : i < len) :
    valid len (m &&& ~~~((BitVec.ofNat bits 1 <<< index) ||| (BitVec.ofNat bits 1 <<< (index + len)))) i
      = (valid len m i && !decide (i = index)) := by
  unfold valid
  rw [inst_clear h hindex, owned_clear h hindex hi]
  cases inst len m i <;> cases owned m i <;> cases decide (i = index) <;> rfl

theorem valid_unlock (h : ArrayLen bits len) {m x : BitVec bits} {i : Nat} (hi : i < len)
    (hx : ∀ i, x.getLsbD i = true → i < len) :
    valid len (m &&& ~~~((x <<< len) ||| x)) i = (valid len m i && !x.getLsbD i) := by
  unfold valid
  rw [inst_unlock h hi hx, owned_unlock hi]
  cases inst len m i <;> cases owned m i <;> cases x.getLsbD i <;> rfl

/-- One access of a call of `push` that may not store to an empty storage. -/
theorem pushCall_dead (h : ArrayLen bits len) {val : T} {call : PushCall bits T}
    (hk : Knows len s (pushClaims val call)) (hok : PushOk len val call) (hd : Dead len s) :
    Dead len (call.step len false fails s).1 := by
  -- A push into a storage that is empty for ever: it takes a slot, sees that nothing else is there,
  -- and gives the slot back.
  cases call with
  | exchange v m index =>
    simp only [PushCall.step]
    split
    · rename_i heq
      refine hd.of_valid fun i _ hv => ?_
      rw [← heq.1] at hv
      exact (Bool.and_eq_true_iff.mp ((valid_lock h hok.2.1).symm.trans hv)).1
    · exact hd
  | publish index =>
    -- The last access sees an empty storage, and does not publish.
    have htest := (valid_eq_zero h hk.high).mpr hd
    have hback : (PushCall.step len false fails s (.publish index)).1 = s := by
      simp only [PushCall.step]
      rw [if_pos (by simpa using htest)]
    rw [hback]
    exact hd
  | readBack index =>
    simp only [PushCall.step]
    split <;> exact hd
  | rollBack v index =>
    obtain ⟨hi, -, hinst, -⟩ := hk.claimed index _ claims_self
    refine hd.of_valid fun i _ hv => ?_
    have hinst' : inst len s.metadata index = false := hinst
    obtain ⟨hi', howned⟩ := Bool.and_eq_true_iff.mp hv
    have hi'' : inst len s.metadata i = true := (inst_rollBack h hi).symm.trans hi'
    have howned' : owned s.metadata i = false := by
      have hne : i ≠ index := by
        rintro rfl
        rw [hinst'] at hi''
        cases hi''
      have ho := (congrArg Bool.not (owned_rollBack (m := s.metadata) (i := i) h hi)).symm.trans howned
      simpa [hne] using ho
    unfold valid
    rw [hi'', howned']
    rfl
  | load v => exact hd
  | write v index => exact hd
  | uninit => exact hd

/-- One access of a call of `pop`. -/
theorem popCall_dead (h : ArrayLen bits len) {call : PopCall bits T}
    (hk : Knows len s (popClaims call)) (hok : PopOk len call) (hd : Dead len s) :
    Dead len (call.step len fails s).1 := by
  cases call with
  | exchange m index =>
    simp only [PopCall.step]
    split
    · rename_i heq
      refine hd.of_valid fun i _ hv => ?_
      rw [← heq.1] at hv
      exact (Bool.and_eq_true_iff.mp ((valid_lock h hok.1).symm.trans hv)).1
    · exact hd
  | read index =>
    simp only [PopCall.step]
    split <;> exact hd
  | clear val index =>
    obtain ⟨hi, -⟩ := hk.claimed index _ claims_self
    refine hd.of_valid fun i hi' hv => ?_
    exact (Bool.and_eq_true_iff.mp ((valid_clear h hi hi').symm.trans hv)).1
  | load => exact hd
  | uninit => exact hd

/-- A call of `pop_all` that has not locked the valid slots. -/
def allTaking : AllCall bits T → Bool
  | .load _ | .exchange _ _ _ => true
  | .fold _ _ _ _ | .unlock _ _ _ | .uninit _ => false

/-- No slot is valid after `pop_all` has locked all the valid ones. -/
theorem valid_lockAll (h : ArrayLen bits len) {m : BitVec bits} (hm : High len m) {i : Nat}
    (hi : i < len) : valid len (m ||| AllCall.instancesToPop len m) i = false := by
  have hbound : ∀ i, (AllCall.instancesToPop len m).getLsbD i = true → i < len := by
    intro i hi
    rw [getLsbD_instancesToPop h hm, Bool.and_eq_true] at hi
    exact of_decide_eq_true hi.1
  unfold valid
  rw [inst_lockAll hbound, owned_lockAll, getLsbD_instancesToPop h hm]
  unfold valid
  cases inst len m i <;> cases owned m i <;> simp [hi]

/-- One access of a call of `pop_all`. -/
theorem allCall_dead (h : ArrayLen bits len) {call : AllCall bits T}
    (hk : Knows len s (allClaims call)) (hok : AllOk len call) (hd : Dead len s) :
    Dead len (call.step len fails s).1 := by
  cases call with
  | exchange acc m instances =>
    cases hok
    simp only [AllCall.step]
    split
    · rename_i heq
      rw [← heq.1]
      exact fun i hi => valid_lockAll h hk.high hi
    · exact hd
  | fold acc m instances index =>
    simp only [AllCall.step]
    split <;> exact hd
  | unlock acc m instances =>
    simp only [AllCall.step]
    split
    · rename_i heq
      refine hd.of_valid fun i hi hv => ?_
      rw [← heq.1] at hv
      exact (Bool.and_eq_true_iff.mp ((valid_unlock h hi hok).symm.trans hv)).1
    · exact hd
  | load acc => exact hd
  | uninit acc => cases hok

/-- A call of `pop_all` that has not locked the valid slots goes on, or there are none any more. -/
theorem allCall_takes (h : ArrayLen bits len) {call : AllCall bits T}
    (hk : Knows len s (allClaims call)) (hok : AllOk len call) (htaking : allTaking call = true) :
    Dead len (call.step len fails s).1 ∨
      outcome allTaking (fun _ => false) (call.step len fails s).2 = true := by
  -- One turn of the loop ends with a storage without valid slots, or goes on.
  have hloop : ∀ acc : List T, Dead len s ∨
      outcome allTaking (fun _ => false) (AllCall.loop len acc s.metadata) = true := by
    intro acc
    unfold AllCall.loop
    split
    · rename_i hzero
      refine .inl fun i hi => ?_
      have hbit := getLsbD_instancesToPop (i := i) h hk.high
      rw [hzero] at hbit
      simpa [hi] using hbit.symm
    · exact .inr rfl
  cases call with
  | load acc => exact hloop acc
  | exchange acc m instances =>
    cases hok
    simp only [AllCall.step]
    split
    · rename_i heq
      rw [← heq.1]
      exact .inl fun i hi => valid_lockAll h hk.high hi
    · exact hloop acc
  | _ => cases htaking

end dead

section instantiated

variable {s : Storage bits T}

/-- `push` leaves the slots instantiated. -/
theorem pushCall_instantiated (h : ArrayLen bits len) {allowEmpty fails : Bool} {val : T}
    {call : PushCall bits T}
    (hk : Knows len s (pushClaims val call)) (hok : PushOk len val call)
    (hi : Instantiated len s) : Instantiated len (call.step len allowEmpty fails s).1 := by
  obtain ⟨i, hlt, hinst⟩ := hi
  cases call with
  | exchange v m index =>
    simp only [PushCall.step]
    split
    · rename_i heq
      rw [← heq.1]
      exact ⟨i, hlt, (inst_lock h hok.2.1).trans hinst⟩
    · exact ⟨i, hlt, hinst⟩
  | publish index =>
    obtain ⟨hindex, -⟩ := hk.claimed index _ claims_self
    simp only [PushCall.step]
    split
    · exact ⟨i, hlt, hinst⟩
    · exact ⟨i, hlt, (inst_publish h hindex).trans (by rw [hinst]; rfl)⟩
  | readBack index =>
    simp only [PushCall.step]
    split <;> exact ⟨i, hlt, hinst⟩
  | rollBack v index =>
    obtain ⟨hindex, -⟩ := hk.claimed index _ claims_self
    exact ⟨i, hlt, (inst_rollBack h hindex).trans hinst⟩
  | load v => exact ⟨i, hlt, hinst⟩
  | write v index => exact ⟨i, hlt, hinst⟩
  | uninit => exact ⟨i, hlt, hinst⟩

/-- `pop` leaves an instantiated slot, or says that there is none. -/
theorem popCall_instantiated (h : ArrayLen bits len) (fails : Bool) {call : PopCall bits T}
    (hk : Knows len s (popClaims call)) (hok : PopOk len call) (hi : Instantiated len s) :
    Instantiated len (call.step len fails s).1 ∨
      ∃ val, (call.step len fails s).2 = .done (val, true) := by
  obtain ⟨i, hlt, hinst⟩ := hi
  cases call with
  | exchange m index =>
    simp only [PopCall.step]
    split
    · rename_i heq
      rw [← heq.1]
      exact .inl ⟨i, hlt, (inst_lock h hok.1).trans hinst⟩
    · exact .inl ⟨i, hlt, hinst⟩
  | clear val index =>
    simp only [PopCall.step]
    by_cases hzero : Storage.instanceBitmap len
        (s.metadata &&& ~~~((BitVec.ofNat bits 1 <<< index) |||
          (BitVec.ofNat bits 1 <<< (index + len)))) = 0
    · exact .inr ⟨some val, by rw [hzero]; rfl⟩
    · exact .inl (inst_of_ne_zero (high_and_not hk.high _) hzero)
  | read index =>
    simp only [PopCall.step]
    split <;> exact .inl ⟨i, hlt, hinst⟩
  | load => exact .inl ⟨i, hlt, hinst⟩
  | uninit => exact .inl ⟨i, hlt, hinst⟩

end instantiated

end Sdd.Proofs.Bag
