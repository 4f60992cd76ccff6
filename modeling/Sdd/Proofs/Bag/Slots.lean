import Mathlib.Algebra.BigOperators.Group.Finset.Basic
import Mathlib.Algebra.Order.Group.Multiset
import Sdd.Proofs.Bag.Metadata

/-!
# `Sdd.Proofs.Bag.Slots`: who owns a slot

A call that has marked a slot as owned has a `Claim` on it, which says how the slot looks until
the call lets go of it. `Matches` is what the bits and the contents of a slot (`Cell`) have to do
with the claim on it, if there is one. `StorageInv` says that the claims of all parties on the
slots of a storage are exclusive and match the slots. A party makes moves (`Moves`): it changes
slots that nobody owns, or that it owns itself.
-/

set_option autoImplicit false

namespace Sdd.Proofs.Bag

variable {bits len : Nat} {T : Type}

/-- What a slot looks like to the call that owns it. -/
inductive Claim (T : Type) where
  /-- Owned for instantiating, before the instance is written. -/
  | empty
  /-- Owned for instantiating, after the instance is written. -/
  | written (val : T)
  /-- Owned for moving out the instance, before it is read. -/
  | full
  /-- Owned for moving out the instance, after it is read. -/
  | taken

/-- The bits and the contents of a slot. -/
structure Cell (T : Type) where
  inst : Bool
  owned : Bool
  slot : Option T

def cell (len : Nat) (s : Storage bits T) (i : Nat) : Cell T :=
  ⟨inst len s.metadata i, owned s.metadata i, s.slots i⟩

/-- A slot looks as the claim on it says, or as a slot without claim has to. -/
def Matches (c : Cell T) : Option (Claim T) → Prop
  | none => c.owned = false ∧ c.slot.isSome = c.inst
  | some .empty => c.owned = true ∧ c.inst = false ∧ c.slot = none
  | some (.written val) => c.owned = true ∧ c.inst = false ∧ c.slot = some val
  | some .full => c.owned = true ∧ c.inst = true ∧ c.slot.isSome = true
  | some .taken => c.owned = true ∧ c.inst = true ∧ c.slot = none

/-- The claims of a party, by slot. -/
abbrev Claims (T : Type) := Nat → Option (Claim T)

/-- No claim. -/
def unclaimed : Claims T := fun _ => none

/-- A claim on one slot. -/
def claims (index : Nat) (k : Claim T) : Claims T := Function.update unclaimed index (some k)

/-- No slot is valid. -/
def Dead (len : Nat) (s : Storage bits T) : Prop := ∀ i < len, valid len s.metadata i = false

/-- Some slot is instantiated. -/
def Instantiated (len : Nat) (s : Storage bits T) : Prop := ∃ i < len, inst len s.metadata i = true

/-- What a party knows of a storage. -/
structure Knows (len : Nat) (s : Storage bits T) (c : Claims T) : Prop where
  claimed : ∀ i k, c i = some k → i < len ∧ Matches (cell len s i) (some k)
  free : ∀ i < len, owned s.metadata i = false → Matches (cell len s i) none
  high : High len s.metadata

/-- A party changes its claims and the slots that nobody else owns. -/
structure Moves (len : Nat) (s s' : Storage bits T) (c c' : Claims T) : Prop where
  cells : ∀ i < len, cell len s' i = cell len s i ∧ c' i = c i ∨
    (c i ≠ none ∨ owned s.metadata i = false) ∧ Matches (cell len s' i) (c' i)
  bound : ∀ i k, c' i = some k → i < len
  high : High len s'.metadata

/-- The claims of all parties. -/
structure StorageInv {P : Type} (len : Nat) (s : Storage bits T) (claims : P → Claims T) :
    Prop where
  unique : ∀ p q i, claims p i ≠ none → claims q i ≠ none → p = q
  claimed : ∀ p i k, claims p i = some k → i < len ∧ Matches (cell len s i) (some k)
  free : ∀ i < len, (∀ p, claims p i = none) → Matches (cell len s i) none
  high : High len s.metadata

section inv

variable {P : Type} [DecidableEq P] {s s' : Storage bits T} {claims : P → Claims T} {p : P}
  {c : Claims T}

/-- A slot with a claim is owned. -/
theorem Matches.owned {c : Cell T} {k : Claim T} (h : Matches c (some k)) : c.owned = true := by
  cases k <;> exact h.1

omit [DecidableEq P] in
theorem StorageInv.knows (h : StorageInv len s claims) (p : P) : Knows len s (claims p) where
  claimed := h.claimed p
  free i hi hfree := by
    refine h.free i hi fun q => ?_
    by_contra hne
    obtain ⟨k, hk⟩ := Option.ne_none_iff_exists'.mp hne
    have howned : owned s.metadata i = true := (h.claimed q i k hk).2.owned
    rw [hfree] at howned
    cases howned
  high := h.high

/-- A party moves. -/
theorem StorageInv.move (h : StorageInv len s claims) (hm : Moves len s s' (claims p) c) :
    StorageInv len s' (Function.update claims p c) := by
  -- A slot that another party has a claim on is the same.
  have hother : ∀ q i, q ≠ p → claims q i ≠ none → i < len ∧ cell len s' i = cell len s i ∧
      c i = none := by
    intro q i hq hclaim
    obtain ⟨k, hk⟩ := Option.ne_none_iff_exists'.mp hclaim
    obtain ⟨hi, hmatch⟩ := h.claimed q i k hk
    have hp : claims p i = none := by
      by_contra hp
      exact hq (h.unique q p i hclaim hp)
    rcases hm.cells i hi with ⟨hcell, hc⟩ | ⟨hfree, -⟩
    · exact ⟨hi, hcell, hc.trans hp⟩
    · rcases hfree with hne | hfree
      · exact absurd hp hne
      · have howned : owned s.metadata i = true := hmatch.owned
        rw [hfree] at howned
        cases howned
  refine ⟨fun q r i hq hr => ?_, fun q i k hk => ?_, fun i hi hnone => ?_, hm.high⟩
  · by_cases hqp : q = p
    · by_cases hrp : r = p
      · rw [hqp, hrp]
      · rw [hqp, Function.update_self] at hq
        rw [Function.update_of_ne hrp] at hr
        exact absurd (hother r i hrp hr).2.2 hq
    · rw [Function.update_of_ne hqp] at hq
      by_cases hrp : r = p
      · rw [hrp, Function.update_self] at hr
        exact absurd (hother q i hqp hq).2.2 hr
      · rw [Function.update_of_ne hrp] at hr
        exact h.unique q r i hq hr
  · by_cases hqp : q = p
    · rw [hqp, Function.update_self] at hk
      have hi := hm.bound i k hk
      refine ⟨hi, ?_⟩
      rcases hm.cells i hi with ⟨hcell, hc⟩ | ⟨-, hmatch⟩
      · rw [hcell]
        exact (h.claimed p i k (hc.symm.trans hk)).2
      · rw [hk] at hmatch
        exact hmatch
    · rw [Function.update_of_ne hqp] at hk
      have hne : claims q i ≠ none := by
        rw [hk]
        exact Option.some_ne_none k
      obtain ⟨hi, hcell, -⟩ := hother q i hqp hne
      rw [hcell]
      exact h.claimed q i k hk
  · have hc : c i = none := by
      have := hnone p
      rwa [Function.update_self] at this
    rcases hm.cells i hi with ⟨hcell, hsame⟩ | ⟨-, hmatch⟩
    · rw [hcell]
      refine h.free i hi fun q => ?_
      by_cases hqp : q = p
      · rw [hqp]
        exact hsame.symm.trans hc
      · have := hnone q
        rwa [Function.update_of_ne hqp] at this
    · rw [hc] at hmatch
      exact hmatch

/-- The claims of a party do not change. -/
theorem StorageInv.same (h : StorageInv len s claims) (hc : c = claims p) :
    StorageInv len s (Function.update claims p c) := by
  rw [hc, Function.update_eq_self]
  exact h

omit [DecidableEq P] in
/-- A storage that nobody uses: it is empty, or it has one instance. -/
theorem storageInv_unclaimed (hfree : ∀ i < len, Matches (cell len s i) none)
    (hhigh : High len s.metadata) : StorageInv len s fun _ : P => (unclaimed : Claims T) where
  unique _ _ _ hne := absurd rfl hne
  claimed _ _ _ hk := by cases hk
  free i hi _ := hfree i hi
  high := hhigh

end inv

section values

/-- The instances in a slot. -/
def held (o : Option T) : Multiset T := o.toList

/-- The instances in a storage. -/
def values (len : Nat) (s : Storage bits T) : Multiset T := ∑ i ∈ Finset.range len, held (s.slots i)

/-- A sum after the change of one summand. -/
theorem sum_update {A B M : Type} [DecidableEq A] [AddCommMonoid M] {s : Finset A} {a : A}
    (ha : a ∈ s) (f : A → B) (g : B → M) (b : B) :
    ∑ x ∈ s, g (Function.update f a b x) + g (f a) = ∑ x ∈ s, g (f x) + g b := by
  have hrest : ∑ x ∈ s.erase a, g (Function.update f a b x) = ∑ x ∈ s.erase a, g (f x) := by
    refine Finset.sum_congr rfl fun x hx => ?_
    rw [Function.update_of_ne (Finset.ne_of_mem_erase hx)]
  rw [← Finset.sum_erase_add s _ ha, ← Finset.sum_erase_add s _ ha, hrest, Function.update_self]
  exact add_right_comm _ _ _

variable {s : Storage bits T} {index : Nat}

theorem values_setSlot (hi : index < len) (o : Option T) :
    values len (s.setSlot index o) + held (s.slots index) = values len s + held o :=
  sum_update (Finset.mem_range.mpr hi) s.slots held o

/-- A new storage has one instance. -/
theorem values_withVal (h : ArrayLen bits len) (val : T) :
    values len (.withVal len val : Storage bits T) = {val} := by
  unfold values
  rw [Finset.sum_eq_single 0]
  · rfl
  · intro i _ hi
    show held (if i = 0 then some val else none) = 0
    rw [if_neg hi]
    rfl
  · intro h0
    have := h.pos
    exact absurd (Finset.mem_range.mpr this) h0

end values

end Sdd.Proofs.Bag
