import Sdd.IterMut
import Sdd.Proofs.Bag.Observers

/-!
# `Sdd.Proofs.Bag.IterMut`: what the iterator of a bag yields

The iterator looks for the next instantiated slot of a storage from an index on
(`nextOccupied_spec`), so that it yields the slots of one storage in order (`load_ends`). It goes
on from the primary storage to the undeleted entries from `newest` on (`entries_iter_ends`). In a bag at
rest a storage in a deleted entry holds no instance, and no slot is owned: the iterator yields
each instance, and then nothing (`iterMut_visits`).

The calls that look through a bag keep its invariant (`inv_of_reached`).
-/

set_option autoImplicit false

namespace Sdd.Proofs.Bag

open Sdd.Lib
open Sdd.Bag (Mem Pc World LenCall EmptyCall IterMut IterCall IterPc)
open Sdd.Proofs.Stack (Stacks entries mem_entries)
open Sdd.Proofs.Stacks (FamilyInv Answer Looked)

variable {bits n len : Nat} {T : Type} {m m₀ : Mem bits T n}

section slots

variable {metadata : BitVec bits} {it : IterMut} {j : Nat}

/-- The instantiated slots from the index `j` on. -/
def occupied (len : Nat) (metadata : BitVec bits) (j : Nat) : List Nat :=
  (List.range' j (len - j)).filter (inst len metadata)

/-- The iterator finds the first instantiated slot from its index on, if there is one. At the
index 32 the shift wraps, but the sum is not an index. -/
theorem nextOccupied_spec (metadata : BitVec bits) (h32 : len ≤ 32) (hj : it.currentIndex.toNat = j)
    (hle : j ≤ len) :
    j ≤ (it.nextOccupied len metadata).toNat ∧
      ((it.nextOccupied len metadata).toNat < len →
        inst len metadata (it.nextOccupied len metadata).toNat = true) ∧
      ∀ k, j ≤ k → k < (it.nextOccupied len metadata).toNat → k < len →
        inst len metadata k = false := by
  generalize hb : Storage.instanceBitmap len metadata >>> (j % 32) = b
  have hc : b.ctz.toNat ≤ 32 := BitVec.clz_le
  have hnext : (it.nextOccupied len metadata).toNat = j + b.ctz.toNat := by
    unfold IterMut.nextOccupied
    rw [hj, hb]
    show (it.currentIndex + b.ctz).toNat = _
    rw [BitVec.toNat_add, hj]
    exact Nat.mod_eq_of_lt (by omega)
  -- The bits of the shifted bitmap are those of the slots from `j` on.
  have hbit : ∀ k, j < 32 → j + k < 32 → b.getLsbD k = inst len metadata (j + k) := by
    intro k hj32 hk
    rw [← hb, BitVec.getLsbD_ushiftRight, Nat.mod_eq_of_lt hj32, getLsbD_instanceBitmap hk]
  rw [hnext]
  refine ⟨Nat.le_add_right _ _, fun hlt => ?_, fun k hjk hk hklen => ?_⟩
  · rw [← hbit _ (by omega) (by omega)]
    have hlt32 : b.ctz.toNat < 32 := by omega
    exact getLsbD_ctz hlt32 (Nat.le_refl 32)
  · obtain ⟨i, rfl⟩ := Nat.exists_eq_add_of_le hjk
    rw [← hbit i (by omega) (by omega)]
    exact BitVec.getLsbD_false_of_lt_ctz (by omega)

theorem occupied_skip {i : Nat} (hji : j ≤ i) (hi : i ≤ len)
    (hnone : ∀ k, j ≤ k → k < i → inst len metadata k = false) :
    occupied len metadata j = occupied len metadata i := by
  unfold occupied
  rw [show len - j = (i - j) + (len - i) by omega, ← List.range'_append_1, List.filter_append,
    show j + (i - j) = i by omega]
  have hnil : (List.range' j (i - j)).filter (inst len metadata) = [] := by
    refine List.filter_eq_nil_iff.mpr fun k hk => ?_
    rw [List.mem_range'_1] at hk
    rw [hnone k hk.1 (by omega)]
    nofun
  rw [hnil, List.nil_append]

/-- The first of the slots. -/
theorem occupied_cons {i : Nat} (hji : j ≤ i) (hi : i < len) (hinst : inst len metadata i = true)
    (hnone : ∀ k, j ≤ k → k < i → inst len metadata k = false) :
    occupied len metadata j = i :: occupied len metadata (i + 1) := by
  rw [occupied_skip hji (Nat.le_of_lt hi) hnone]
  unfold occupied
  rw [show len - i = (len - (i + 1)) + 1 by omega, List.range'_succ,
    List.filter_cons_of_pos hinst]

/-- There are no more slots. -/
theorem occupied_nil (hj : j ≤ len) (hnone : ∀ k, j ≤ k → k < len → inst len metadata k = false) :
    occupied len metadata j = [] := by
  rw [occupied_skip hj (Nat.le_refl len) hnone]
  unfold occupied
  rw [Nat.sub_self]
  rfl

theorem mem_occupied {i : Nat} :
    i ∈ occupied len metadata 0 ↔ i < len ∧ inst len metadata i = true := by
  unfold occupied
  simp

end slots

section results

variable {A : Type} {l : List A} {k : Nat}

/-- What `k` calls of `next` return when `l` are left. -/
def nexts (l : List A) (k : Nat) : List (Option A) := (List.range k).map fun i => l[i]?

theorem nexts_cons (a : A) : nexts (a :: l) (k + 1) = some a :: nexts l k := by
  unfold nexts
  rw [List.range_succ_eq_map, List.map_cons, List.map_map]
  rfl

theorem nexts_nil : nexts ([] : List A) (k + 1) = none :: nexts [] k := by
  unfold nexts
  rw [List.range_succ_eq_map, List.map_cons, List.map_map]
  rfl

/-- The iterator has left the last storage: the calls return at once. -/
theorem resume_left {it : IterMut} (hleft : it.currentIndex = BitVec.allOnes 32)
    (y : List (Option (Option Addr × Nat))) :
    (IterCall.resume it y k : Outcome (IterCall bits T) _) = .done (y ++ nexts [] k) := by
  induction k generalizing y with
  | zero => rw [IterCall.resume, nexts, List.range_zero, List.map_nil, List.append_nil]
  | succ k ih => rw [IterCall.resume, if_pos hleft, ih, nexts_nil, List.append_assoc]; rfl

end results

section ends

open Sdd.Bag.IterCall (resume)

variable {done : Mem bits T n × Outcome (IterCall bits T) (List (Option (Option Addr × Nat))) → Prop}
  {F : List (Option (Option Addr × Nat))} {l : List (Option Addr × Nat)}

/-- The instantiated slots of a storage from the index `j` on. -/
def places (len : Nat) (m : Mem bits T n) (loc : Option Addr) (j : Nat) :
    List (Option Addr × Nat) :=
  (occupied len (storageAt m loc).metadata j).map (Prod.mk loc)

/-- What the calls have returned, and will return when `l` are left, is `F`. -/
def Yields (F : List (Option (Option Addr × Nat))) (l : List (Option Addr × Nat))
    (c : IterCall bits T) : Prop :=
  c.yielded ++ nexts l (c.rest + 1) = F

theorem currentStorage_eq (it : IterMut) (m : Mem bits T n) :
    it.currentStorage m = storageAt m it.currentStackEntry := by
  unfold IterMut.currentStorage
  cases it.currentStackEntry <;> rfl

/-- The calls go on after one has yielded the slot `p`. -/
theorem resume_ends {it : IterMut} {c : IterCall bits T} {p : Option Addr × Nat}
    (hit : it.currentIndex ≠ BitVec.allOnes 32) (hy : Yields F (p :: l) c)
    (hdone : done (m, .done F))
    (hnext : ∀ k, Yields F l (⟨it, k, c.yielded ++ [some p], .load⟩ : IterCall bits T) →
      Ends (Outcome.advance (IterCall.step len)) (Mem.LetsGo IterCall.holds) done
        (m, .running ⟨it, k, c.yielded ++ [some p], .load⟩)) :
    Ends (Outcome.advance (IterCall.step len)) (Mem.LetsGo IterCall.holds) done
      (m, resume it (c.yielded ++ [some p]) c.rest) := by
  unfold Yields at hy hnext
  rw [nexts_cons] at hy
  cases hrest : c.rest with
  | zero =>
    rw [hrest] at hy
    rw [resume, show c.yielded ++ [some p] = F from hy]
    exact .done hdone
  | succ k =>
    rw [hrest] at hy
    rw [resume, if_neg hit]
    refine hnext k ?_
    rw [List.append_assoc]
    exact hy

/-- The iterator goes through the slots of the storage that it is at, from the index `j` on, and
leaves the storage. -/
theorem load_ends (h32 : len ≤ 32) (I : Mem bits T n → Prop) (hkept : ∀ m, I m → Kept m₀ m)
    (hrelease : ∀ m x, I m → x < m.family.heap.nextAddr → m.family.heap.unlinked x = true →
      (∀ i, m.family.newest i ≠ some x) → I (m.setHeap (m.family.heap.release x)))
    {loc : Option Addr} (hloc : ∀ x, loc = some x → x ∈ m₀.family.attached)
    (hdone : ∀ m, Kept m₀ m → done (m, .done F))
    (hleave : ∀ m (c : IterCall bits T), I m → Yields F l c →
      Ends (Outcome.advance (IterCall.step len)) (Mem.LetsGo IterCall.holds) done
        (m, .running { c with
          it := ⟨BitVec.allOnes 32, loc⟩
          pc := loc.elim (.peek (.start .peek)) fun x => .next x (.start x) }))
    {j : Nat} {c : IterCall bits T} (hj : c.it.currentIndex.toNat = j) (hle : j ≤ len)
    (hentry : c.it.currentStackEntry = loc) (hpc : c.pc = .load)
    (hy : Yields F (places len m₀ loc j ++ l) c) (hi : I m) :
    Ends (Outcome.advance (IterCall.step len)) (Mem.LetsGo IterCall.holds) done
      (m, .running c) := by
  induction hk : len - j using Nat.strongRecOn generalizing j c m with
  | _ k ih =>
    refine Ends.of_step (fun s => s.2 = .running c ∧ I s.1) (fun s s' hat he => ?_)
      (fun s hat => ?_) ⟨rfl, hi⟩
    · obtain ⟨hout, hi⟩ := hat
      obtain ⟨x, hlt, hun, hword, -, rfl⟩ := he
      exact ⟨hout, hrelease _ x hi hlt hun hword⟩
    · obtain ⟨m, out⟩ := s
      obtain ⟨rfl, hi⟩ := hat
      have hsame : (c.it.currentStorage m).metadata = (storageAt m₀ loc).metadata := by
        rw [currentStorage_eq, hentry]
        have htidy := (hkept m hi).tidied
        cases loc with
        | none => exact congrArg Storage.metadata htidy.primary
        | some x => exact congrArg Storage.metadata (storage_congr (htidy.value x (hloc x rfl)))
      have hstep : IterCall.step len m c = (m, c.loaded len (storageAt m₀ loc).metadata) := by
        unfold IterCall.step
        rw [hpc, hsame]
      refine ⟨_, congrArg some hstep, ?_⟩
      obtain ⟨hge, hfound, hnone⟩ := nextOccupied_spec (storageAt m₀ loc).metadata h32 hj hle
      unfold IterCall.loaded
      generalize c.it.nextOccupied len (storageAt m₀ loc).metadata = next at hge hfound hnone
      by_cases hlt : next.toNat < len
      · -- The slot is yielded, and the iterator goes on behind it.
        have hindex : (next + 1).toNat = next.toNat + 1 := by
          rw [BitVec.toNat_add]
          exact Nat.mod_eq_of_lt (by simp; omega)
        have hcons : places len m₀ loc j
            = (loc, next.toNat) :: places len m₀ loc (next.toNat + 1) := by
          unfold places
          rw [occupied_cons hge hlt (hfound hlt) fun k hjk hk => hnone k hjk hk (by omega),
            List.map_cons]
        rw [hcons, List.cons_append] at hy
        simp only [if_pos hlt, hentry]
        refine resume_ends (fun hc => ?_) hy (hdone m (hkept m hi)) fun k' hy' => ?_
        · have hc' : (next + 1).toNat = (BitVec.allOnes 32).toNat := congrArg BitVec.toNat hc
          rw [hindex] at hc'
          have hall : (BitVec.allOnes 32).toNat = 4294967295 := rfl
          omega
        · exact ih (len - (next.toNat + 1)) (by omega) hindex hlt rfl rfl hy' hi rfl
      · have hnil : places len m₀ loc j = [] := by
          unfold places
          rw [occupied_nil hle fun k hjk hk => hnone k hjk (by omega) hk, List.map_nil]
        rw [hnil, List.nil_append] at hy
        simp only [if_neg hlt, IterMut.leave, hentry]
        have := hleave m c hi hy
        cases loc with
        | none => exact this
        | some x => exact this

/-- Where the call stands in `next_ptr` does not matter when it returns. -/
theorem advanced_pc (c : IterCall bits T) (p : IterPc bits T) (x : Addr)
    (out : Outcome NextPtr (Ptr Addr)) : { c with pc := p }.advanced x out = c.advanced x out := by
  cases out with
  | running call => rfl
  | done next =>
    unfold IterCall.advanced IterCall.found
    cases next.addr <;> rfl

theorem peeked_pc (c : IterCall bits T) (p : IterPc bits T)
    (out : Outcome (Stack.Call (Storage bits T)) Stack.Res) :
    { c with pc := p }.peeked out = c.peeked out := by
  have hfound : ∀ o, { c with pc := p }.found o = c.found o := by
    intro o
    unfold IterCall.found
    cases o <;> rfl
  cases out with
  | running call => rfl
  | done res =>
    cases res with
    | peeked e => exact hfound e
    | _ => exact hfound none

/-- The iterator has left the last storage: there is nothing left. -/
theorem found_none {c : IterCall bits T} {loc : Option Addr} (hy : Yields F [] c) :
    { c with it := ⟨BitVec.allOnes 32, loc⟩ }.found none = .done F := by
  unfold Yields at hy
  rw [nexts_nil] at hy
  unfold IterCall.found
  rw [resume_left rfl, List.append_assoc, ← hy]
  rfl

variable {owner : Addr → Option (Fin n)} {tgt : Addr → Option Addr} {x : Addr} {r : List Addr}

/-- The iterator goes through the storage in the entry `x`. The undeleted entries behind are
`r`. -/
theorem turn_iter_ends (h32 : len ≤ 32)
    (hs : Stacks m.family.heap m.family.attached owner m.family.newest tgt)
    (htidy : Tidied none m₀ m) (hx : x ∈ m₀.family.attached)
    (hl : Threaded (Proofs.next m.family.heap) tgt (some x) (x :: r))
    (hdone : ∀ m, Kept m₀ m → done (m, .done F))
    (hnext : ∀ m (c : IterCall bits T),
      Stacks m.family.heap m.family.attached owner m.family.newest tgt →
      Tidied none m₀ m → Threaded (Proofs.next m.family.heap) tgt (some x) (x :: r) →
      (∀ y, r.head? = some y → y ∈ m₀.family.attached ∧ m₀.family.heap.isDeleted y = false) →
      Yields F l c →
      Ends (Outcome.advance (IterCall.step len)) (Mem.LetsGo IterCall.holds) done
        (m, { c with it := ⟨BitVec.allOnes 32, some x⟩ }.found r.head?))
    {c : IterCall bits T} (hit : c.it = ⟨0, some x⟩) (hpc : c.pc = .load)
    (hy : Yields F (places len m₀ (some x) 0 ++ l) c) :
    Ends (Outcome.advance (IterCall.step len)) (Mem.LetsGo IterCall.holds) done
      (m, .running c) := by
  refine load_ends h32
    (fun m => Stacks m.family.heap m.family.attached owner m.family.newest tgt ∧
      Tidied none m₀ m ∧ Threaded (Proofs.next m.family.heap) tgt (some x) (x :: r))
    (fun m hi => ⟨hi.2.1, owner, tgt, hi.1⟩)
    (fun m y hi hlt hun hword => ⟨hi.1.release hlt hun hword, hi.2.1.release y, hi.2.2⟩)
    (fun y hy => by cases hy; exact hx) hdone (fun m c hi hy => ?_) (j := 0)
    (by rw [hit]; rfl) (Nat.zero_le len) (by rw [hit]) hpc hy ⟨hs, htidy, hl⟩
  obtain ⟨hs, htidy, hl⟩ := hi
  -- `next_ptr` leads to the first entry of `r`.
  refine next_ends (IterCall.step len) IterCall.holds
    (fun call => { c with it := ⟨BitVec.allOnes 32, some x⟩, pc := .next x call })
    (IterCall.advanced { c with it := ⟨BitVec.allOnes 32, some x⟩ } x)
    (fun m call => congrArg (Prod.mk _)
      (advanced_pc { c with it := ⟨BitVec.allOnes 32, some x⟩ } (.next x call) x _))
    (fun _ => rfl) (fun _ _ => rfl) (fun m₁ p hnext' => ?_) hs (htidy.attached ▸ hx)
  have htidy₁ := htidy.trans (hnext'.tidied none)
  have hl₁ := hnext'.threaded _ _ hl
  have hhead : p.addr = r.head? := hnext'.found.1.trans hl₁.2.head_eq.symm
  show Ends _ _ _ (m₁, IterCall.found _ p.addr)
  rw [hhead]
  refine hnext m₁ c hnext'.words htidy₁ hl₁ (fun y hy => ?_) hy
  rw [← htidy₁.attached, ← htidy₁.isDeleted]
  exact hnext'.found.2 y (hhead.trans hy)

/-- The iterator goes through the storage in the entry `x` and the ones behind. -/
theorem entries_iter_ends (h32 : len ≤ 32)
    (hs : Stacks m.family.heap m.family.attached owner m.family.newest tgt)
    (htidy : Tidied none m₀ m) (hx : x ∈ m₀.family.attached)
    (hl : Threaded (Proofs.next m.family.heap) tgt (some x) (x :: r))
    (hdone : ∀ m, Kept m₀ m → done (m, .done F))
    {c : IterCall bits T} (hit : c.it = ⟨0, some x⟩) (hpc : c.pc = .load)
    (hy : Yields F ((x :: r).flatMap fun x => places len m₀ (some x) 0) c) :
    Ends (Outcome.advance (IterCall.step len)) (Mem.LetsGo IterCall.holds) done
      (m, .running c) := by
  induction r generalizing m c x with
  | nil =>
    refine turn_iter_ends h32 hs htidy hx hl hdone (fun m c hs htidy _ _ hy => ?_) hit hpc hy
    rw [List.head?_nil, found_none hy]
    exact .done (hdone m ⟨htidy, owner, tgt, hs⟩)
  | cons y r ih =>
    refine turn_iter_ends h32 hs htidy hx hl hdone (fun m c hs htidy hl hhead hy => ?_) hit hpc hy
    obtain ⟨hatt, hlive⟩ := hhead y rfl
    have hlive' : m.family.heap.isDeleted y = false := (congrFun htidy.isDeleted y).trans hlive
    exact ih hs htidy hatt ⟨hs.heap.skip.live y hlive', hl.2.2⟩ rfl rfl hy

/-- The slots that the iterator yields in a bag at rest, in order. -/
def visited (len : Nat) (m : Mem bits T n) : List (Option Addr × Nat) :=
  places len m none 0 ++ (m.family.attached.filter fun x => !m.family.heap.isDeleted x).flatMap
    fun x => places len m (some x) 0

/-- The undeleted entries are in the stack of the bag when all other stacks are empty. -/
theorem entries_eq (hs : Stacks m.family.heap m.family.attached owner m.family.newest tgt)
    (hpopped : ∀ t, m.family.newest (some t) = none) :
    entries m.family.heap m.family.attached owner none
      = m.family.attached.filter fun x => !m.family.heap.isDeleted x := by
  refine List.filter_congr fun x hx => ?_
  cases hlive : m.family.heap.isDeleted x with
  | true => rfl
  | false =>
    rw [decide_eq_true (owner_none hs hpopped hx hlive)]
    rfl

/-- The calls of `next` return the slots, and then nothing. -/
theorem iter_ends (h32 : len ≤ 32) (hpopped : ∀ t, m.family.newest (some t) = none)
    (hs : Stacks m.family.heap m.family.attached owner m.family.newest tgt) (k : Nat)
    (hdone : ∀ m', Kept m m' → done (m', .done (nexts (visited len m) (k + 1)))) :
    Ends (Outcome.advance (IterCall.step len)) (Mem.LetsGo IterCall.holds) done
      (m, .running (.start k)) := by
  have hloc : ∀ x, (none : Option Addr) = some x → x ∈ m.family.attached := nofun
  refine load_ends h32 (Kept m) (fun _ hi => hi)
    (fun _ _ hi hlt hun hword => hi.release hlt hun hword) hloc hdone
    (fun m₁ c hi hy => ?_) (j := 0) rfl (Nat.zero_le len) rfl rfl (by exact rfl)
    ⟨.refl none m, owner, tgt, hs⟩
  obtain ⟨htidy, owner, tgt, hs⟩ := hi
  -- `peek_with` leads to the first undeleted entry.
  refine look_ends (IterCall.step len) IterCall.holds none
    (fun call => { c with it := ⟨BitVec.allOnes 32, none⟩, pc := .peek call })
    (IterCall.peeked { c with it := ⟨BitVec.allOnes 32, none⟩ })
    (fun m call => congrArg (Prod.mk _)
      (peeked_pc { c with it := ⟨BitVec.allOnes 32, none⟩ } (.peek call) _))
    (fun _ => rfl) (fun _ _ => rfl) (.inl rfl)
    (fun m₂ owner tgt res htidy₂ hs hanswer hlook => ?_) hs
  obtain ⟨d, hanswer⟩ := hanswer
  obtain ⟨o, rfl⟩ := hanswer.of_peek
  obtain ⟨hnewest, hlive⟩ := hlook
  have htidy' := htidy.trans htidy₂
  have hlist : Threaded (Proofs.next m₂.family.heap) tgt o
      (m.family.attached.filter fun x => !m.family.heap.isDeleted x) := by
    have h := hs.list none
    rw [entries_eq hs fun t => (htidy'.others _ (Option.some_ne_none t)).trans (hpopped t),
      htidy'.attached, htidy'.isDeleted] at h
    exact hnewest ▸ h
  show Ends _ _ _ (m₂, IterCall.found _ o)
  cases o with
  | none =>
    rw [show m.family.attached.filter (fun x => !m.family.heap.isDeleted x) = [] from
      List.head?_eq_none_iff.mp hlist.head_eq] at hy
    rw [found_none hy]
    exact .done (hdone m₂ ⟨htidy', owner, tgt, hs⟩)
  | some x =>
    have hhead : (m.family.attached.filter fun x => !m.family.heap.isDeleted x).head? = some x :=
      hlist.head_eq.trans (hs.heap.skip.live x (hlive x rfl))
    obtain ⟨r, hr⟩ : ∃ r, m.family.attached.filter (fun x => !m.family.heap.isDeleted x) = x :: r :=
      List.head?_eq_some_iff.mp hhead
    have hatt : x ∈ m.family.attached := (List.mem_filter.mp (hr ▸ List.mem_cons_self)).1
    rw [hr] at hlist hy
    exact entries_iter_ends h32 hs htidy' hatt hlist hdone rfl rfl hy

end ends

section reached

variable {w : World bits T n}

/-- The invariant does not depend on the links when no thread uses the bag. -/
theorem Inv.kept {pc : Fin n → Pc bits T} (h : Inv len m₀ pc) (hidle : ∀ t, pc t = .idle)
    (hk : Kept m₀ m) : Inv len m pc := by
  obtain ⟨htidy, owner, tgt, hs⟩ := hk
  have hplace : ∀ t, (placeOf ∘ pc) t = .none := fun t => congrArg placeOf (hidle t)
  have hstorage : ∀ x ∈ m.family.attached, m.storage x = m₀.storage x := fun x hx =>
    storage_congr (htidy.value x (htidy.attached ▸ hx))
  refine ⟨⟨owner, tgt, hs, fun t => ?_, fun t x hx => ?_, fun t _ _ he => ?_⟩, ?_, fun x hx => ?_,
    fun t c hc => ?_, fun x hx hd => ?_, fun x hx hl => ?_, fun t hu => ?_⟩
  · rw [hplace]
    exact trivial
  · rw [hplace] at hx
    cases hx
  · rw [hplace] at he
    cases he
  · rw [htidy.primary]
    exact h.primary
  · have hx' := htidy.attached ▸ hx
    rw [htidy.value x hx', hstorage x hx]
    exact h.storages x hx'
  · rw [hidle] at hc
    cases hc
  · rw [hstorage x hx]
    exact h.dead x (htidy.attached ▸ hx) (htidy.isDeleted ▸ hd)
  · rw [hstorage x hx]
    exact h.live x (htidy.attached ▸ hx) (htidy.isDeleted ▸ hl)
  · rw [htidy.others _ (Option.some_ne_none t)]
    exact h.popped t hu

/-- A call that looks through the bag has kept the words in order if it always ends so. -/
theorem kept_of_leaves {C R : Type} {step : Mem bits T n → C → Mem bits T n × Outcome C R}
    {holds : Addr → C → Bool} {call : C} {res : R} (h : m₀.Leaves step holds call res m)
    (hends : Ends (Outcome.advance step) (Mem.LetsGo holds)
      (fun s => (∃ res, s.2 = .done res) ∧ Kept m₀ s.1) (m₀, .running call)) : Kept m₀ m := by
  refine (hends.of_path (fun s hs => ⟨?_, fun s' he => ?_⟩) h rfl).2
  · obtain ⟨m', out⟩ := s
    obtain ⟨⟨res, rfl⟩, -⟩ := hs
    rfl
  · obtain ⟨x, hlt, hun, hword, -, rfl⟩ := he
    exact ⟨hs.1, hs.2.release hlt hun hword⟩

/-- The invariant holds in every state of a bag. -/
theorem inv_of_reached (hlen : ArrayLen bits len) (h : World.Reached len w) :
    Inv len w.mem w.pc := by
  induction h with
  | init => exact inv_init
  | step _ hs ih => exact inv_step hlen ih hs
  | @observe w m _ hidle ho ih =>
    refine ih.kept hidle ?_
    have hfree : ∀ t, Free (w.pc t) := fun t => free_of_not_call fun c hc => by
      cases (hidle t).symm.trans hc
    obtain ⟨reach, hr⟩ := rest ih hfree
    obtain ⟨owner, tgt, hf⟩ := ih.family
    have hpopped : ∀ t, w.mem.family.newest (some t) = none := fun t =>
      ih.popped t (by rw [hidle t]; rfl)
    cases ho with
    | len k h =>
      exact kept_of_leaves h (len_ends hlen hr hpopped hf.words fun m hk => ⟨⟨_, rfl⟩, hk⟩)
    | isEmpty b h =>
      exact kept_of_leaves h (isEmpty_ends hlen hr hpopped hf.words fun m hk => ⟨⟨_, rfl⟩, hk⟩)
    | iterMut k yielded h =>
      exact kept_of_leaves h (iter_ends hlen.le_32 hpopped hf.words k fun m hk => ⟨⟨_, rfl⟩, hk⟩)

end reached

section visited

variable {loc : Option Addr} {s : Storage bits T}

theorem mem_places {i : Nat} {loc' : Option Addr} : (loc', i) ∈ places len m loc 0 ↔
    loc' = loc ∧ i < len ∧ inst len (storageAt m loc).metadata i = true := by
  unfold places
  rw [List.mem_map]
  constructor
  · rintro ⟨i', hi, heq⟩
    cases heq
    exact ⟨rfl, mem_occupied.mp hi⟩
  · rintro ⟨rfl, hi⟩
    exact ⟨i, mem_occupied.mpr hi, rfl⟩

theorem nodup_places : (places len m loc 0).Nodup :=
  ((List.nodup_range' (n := len - 0)).filter _).map fun _ _ h => (Prod.mk.inj h).2

/-- No slot is visited twice. -/
theorem nodup_visited (hatt : m.family.attached.Nodup) : (visited len m).Nodup := by
  refine List.Nodup.append nodup_places ?_ fun p hp hp' => ?_
  · refine List.nodup_flatMap.mpr ⟨fun _ _ => nodup_places, (hatt.filter _).imp ?_⟩
    intro x y hne p hx hy
    obtain ⟨hx, -⟩ := mem_places.mp (show (p.1, p.2) ∈ _ from hx)
    obtain ⟨hy, -⟩ := mem_places.mp (show (p.1, p.2) ∈ _ from hy)
    exact hne (Option.some.inj (hx.symm.trans hy))
  · obtain ⟨hp, -⟩ := mem_places.mp (show (p.1, p.2) ∈ _ from hp)
    obtain ⟨x, -, hp'⟩ := List.mem_flatMap.mp hp'
    obtain ⟨hp', -⟩ := mem_places.mp (show (p.1, p.2) ∈ _ from hp')
    cases hp.symm.trans hp'

/-- The instances in the slots whose bits are set. -/
theorem filterMap_range (p : Nat → Bool) (f : Nat → Option T) (k : Nat) :
    ((((List.range k).filter p).filterMap f : List T) : Multiset T)
      = ∑ i ∈ Finset.range k, if p i then held (f i) else 0 := by
  induction k with
  | zero => rfl
  | succ k ih =>
    rw [List.range_succ, List.filter_append, List.filterMap_append, ← Multiset.coe_add, ih,
      Finset.sum_range_succ]
    refine congrArg _ ?_
    rw [List.filter_singleton]
    cases p k with
    | false => rfl
    | true =>
      show ((List.filterMap f [k] : List T) : Multiset T) = held (f k)
      cases hf : f k with
      | none => rw [List.filterMap_cons_none hf]; rfl
      | some val => rw [List.filterMap_cons_some hf]; rfl

/-- The instances in the slots that are visited in one storage. -/
theorem places_contents (hu : Unowned len (storageAt m loc)) :
    (((places len m loc 0).filterMap fun p => (storageAt m p.1).slots p.2 : List T) : Multiset T)
      = contents len (storageAt m loc) := by
  have hmap : (places len m loc 0).filterMap (fun p => (storageAt m p.1).slots p.2)
      = ((List.range len).filter (inst len (storageAt m loc).metadata)).filterMap
        (storageAt m loc).slots := by
    unfold places occupied
    rw [List.filterMap_map, List.range_eq_range']
    rfl
  rw [hmap, filterMap_range]
  refine Finset.sum_congr rfl fun i hi => ?_
  have howned : owned (storageAt m loc).metadata i = false := (hu i (Finset.mem_range.mp hi)).1
  rw [valid, howned, Bool.not_false, Bool.and_true]

/-- The instances in the slots that are visited are those of the bag. -/
theorem visited_stored {reach : List Addr} (hr : Rest len m reach)
    (hatt : m.family.attached.Nodup) :
    (((visited len m).filterMap fun p => (storageAt m p.1).slots p.2 : List T) : Multiset T)
      = stored len m := by
  have hlive : ∀ x ∈ m.family.attached.filter fun x => !m.family.heap.isDeleted x,
      x ∈ m.family.attached := fun x hx => (List.mem_filter.mp hx).1
  rw [hr.stored_eq (hatt.filter _) hlive fun x hx hl => List.mem_filter.mpr ⟨hx, by rw [hl]; rfl⟩]
  have hprimary : Unowned len (storageAt m none) := hr.primary.1
  have hstorage : ∀ x ∈ m.family.attached, Unowned len (storageAt m (some x)) := fun x hx =>
    (hr.storages x hx).1
  unfold visited
  rw [List.filterMap_append, ← Multiset.coe_add, places_contents hprimary]
  refine congrArg _ ?_
  generalize m.family.attached.filter (fun x => !m.family.heap.isDeleted x) = r at hlive
  induction r with
  | nil => rfl
  | cons x r ih =>
    rw [List.flatMap_cons, List.filterMap_append, ← Multiset.coe_add,
      ih fun y hy => hlive y (List.mem_cons_of_mem x hy),
      places_contents (hstorage x (hlive x List.mem_cons_self))]
    rfl

/-- The slots that hold an instance are those that are visited. -/
theorem mem_visited {reach : List Addr} (hr : Rest len m reach) {i : Nat} :
    (loc, i) ∈ visited len m ↔ (∀ x, loc = some x → x ∈ reach) ∧ i < len ∧
      ((storageAt m loc).slots i).isSome = true := by
  unfold visited
  rw [List.mem_append, List.mem_flatMap, mem_places]
  constructor
  · rintro (⟨rfl, hi, hinst⟩ | ⟨x, hx, hp⟩)
    · exact ⟨nofun, hi, (hr.primary.1 i hi).2.trans hinst⟩
    · obtain ⟨rfl, hi, hinst⟩ := mem_places.mp hp
      obtain ⟨hatt, hlive⟩ := List.mem_filter.mp hx
      refine ⟨fun y hy => ?_, hi, ((hr.storages x hatt).1 i hi).2.trans hinst⟩
      cases hy
      exact (hr.live x hatt (by simpa using hlive)).1
  · rintro ⟨hreach, hi, hslot⟩
    cases loc with
    | none => exact .inl ⟨rfl, hi, (hr.primary.1 i hi).2.symm.trans hslot⟩
    | some x =>
      have hatt := hr.attached x (hreach x rfl)
      obtain ⟨howned, hsame⟩ := (hr.storages x hatt).1 i hi
      have hinst : inst len (m.storage x).metadata i = true := hsame.symm.trans hslot
      -- The storage in a deleted entry holds no instance.
      have hlive : m.family.heap.isDeleted x = false := by
        by_contra hd
        have hvalid := hr.dead x hatt ((Bool.not_eq_false _).mp hd) i hi
        rw [valid, hinst, show owned (m.storage x).metadata i = false from howned] at hvalid
        cases hvalid
      exact .inr ⟨x, List.mem_filter.mpr ⟨hatt, by rw [hlive]; rfl⟩, mem_places.mpr ⟨rfl, hi, hinst⟩⟩

/-- The iterator visits everything once. In every bag at rest there is a list of slots, none of
them twice, and they are the slots of the primary storage and of the storages in the entries from
`newest` on that hold an instance. In them are all instances of the bag. For every `k`, the first
`k + 1` calls of `next` return the slots in the list one after the other, and `None` from the end
of the list on. -/
theorem iterMut_visits {w : World bits T n} (hlen : ArrayLen bits len)
    (h : World.Reached len w) (hrest : AtRest w) :
    ∃ l : List (Option Addr × Nat), l.Nodup ∧
      (∀ loc i, (loc, i) ∈ l ↔
        (∀ x, loc = some x → ∃ reach,
          Linked (Proofs.next w.mem.family.heap) (w.mem.family.newest none) reach ∧ x ∈ reach) ∧
        i < len ∧ ((storageAt w.mem loc).slots i).isSome = true) ∧
      ((l.filterMap fun p => (storageAt w.mem p.1).slots p.2 : List T) : Multiset T)
        = stored len w.mem ∧
      ∀ k, w.mem.Gives (IterCall.step len) IterCall.holds (.start k)
        ((List.range (k + 1)).map fun i => l[i]?) := by
  have hinv := inv_of_reached hlen h
  have hfree := fun t => free_of_not_call (hrest t)
  obtain ⟨reach, hr⟩ := rest hinv hfree
  obtain ⟨owner, tgt, hf⟩ := hinv.family
  refine ⟨visited len w.mem, nodup_visited hf.words.nodup, fun loc i => ?_,
    visited_stored hr hf.words.nodup, fun k => ?_⟩
  · rw [mem_visited hr]
    refine and_congr_left' (forall_congr' fun x => imp_congr_right fun _ => ⟨fun hx => ?_, ?_⟩)
    · exact ⟨reach, hr.linked, hx⟩
    · rintro ⟨reach', hl, hx⟩
      exact hl.unique hr.linked ▸ hx
  · exact iter_ends hlen.le_32 (fun t => hinv.popped t (hfree t).popped) hf.words k
      fun m' _ => ⟨m', rfl⟩

/-- Three values are pushed, and one is popped, so that its storage is deleted. The entry is still
linked, and the iterator passes over it. -/
theorem iterMut_visits_deleted : ∃ (w : World 64 Nat 2) (x : Addr),
    w.mem.family.newest none = some x ∧ w.mem.family.heap.isDeleted x = true ∧
      ∃ l : List (Option Addr × Nat), (none, 0) ∈ l ∧ (some x, 0) ∉ l ∧
        ∀ k, w.mem.Gives (IterCall.step 1) IterCall.holds (.start k)
          ((List.range (k + 1)).map fun i => l[i]?) := by
  have h : (exec (World.step 1) (fun _ _ => true) (World.init : World 64 Nat 2)
      (call 0 (.push 5) 4 ++ call 0 (.push 7) 5 ++ call 0 (.push 9) 8 ++ call 1 .pop 7)).any
        (fun w => allIdle w && w.mem.family.newest none == some 1 &&
          w.mem.family.heap.isDeleted 1 && (w.mem.primary.slots 0).isSome &&
          (w.mem.storage 1).slots 0 == none) = true := by
    decide +kernel
  obtain ⟨w, hw, h⟩ := Run.of_exec_any h
  simp only [Bool.and_eq_true, beq_iff_eq] at h
  obtain ⟨⟨⟨⟨hidle, hnewest⟩, hdeleted⟩, hprimary⟩, hnone⟩ := h
  have hreached : World.Reached 1 w :=
    hw.invariant (World.Reached 1) .init fun _ _ _ h _ hs => .step h hs
  obtain ⟨l, -, hmem, -, hgives⟩ := iterMut_visits ⟨by decide, by decide, by decide⟩ hreached
    (atRest_of_allIdle hidle)
  refine ⟨w, 1, hnewest, hdeleted, l, (hmem none 0).mpr ⟨nofun, Nat.one_pos, hprimary⟩, fun hc => ?_,
    hgives⟩
  obtain ⟨-, -, hslot⟩ := (hmem (some 1) 0).mp hc
  rw [show (storageAt w.mem (some 1)).slots 0 = none from hnone] at hslot
  cases hslot

end visited

end Sdd.Proofs.Bag
