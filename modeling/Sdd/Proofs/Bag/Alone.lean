import Sdd.Proofs.Bag.Runs
import Sdd.Proofs.Stacks.Alone

/-!
# `Sdd.Proofs.Bag.Alone`: a call on a storage without interference

What a call on a storage does when the other threads stand still. The metadata is what the call
has read last (`PushSolo`, `PopSolo`, `AllSolo`), so that no compare-and-exchange fails, and each
access lowers the number of accesses that are left (`pushRank`, `popRank`, `allRank`). The slots
that other threads own stay owned: a call passes over them.

`storage_ends` and `stack_ends` put this together for the calls of a bag: a call goes on, after
finitely many accesses, as it does when its call on a storage or on a stack has returned.
-/

set_option autoImplicit false

namespace Sdd.Proofs.Bag

open Sdd.Lib
open Sdd.Bag (Mem Call Pc Op Res World Action)
open Sdd.Proofs.Stacks (Going stackCall_ends)

variable {bits n len : Nat} {T : Type} {s : Storage bits T}

section storage

/-- The metadata is what the call of `push` has read. -/
def PushSolo (s : Storage bits T) : PushCall bits T → Prop
  | .exchange _ metadata _ => s.metadata = metadata
  | _ => True

/-- The accesses that are left to a call of `push`. -/
def pushRank : PushCall bits T → Nat
  | .load _ => 6
  | .exchange _ _ _ => 5
  | .write _ _ => 4
  | .publish _ => 3
  | .readBack _ => 2
  | .rollBack _ _ => 1
  | .uninit => 0

/-- One turn of the loop of `push` leads to the compare-and-exchange, if it does not return. -/
theorem pushLoop_alone {allowEmpty : Bool} {val : T} {call : PushCall bits T}
    (h : PushCall.loop len allowEmpty val s.metadata = .running call) :
    ∃ index, call = .exchange val s.metadata index := by
  unfold PushCall.loop at h
  simp only at h
  split at h
  · cases h
  · split at h
    · cases h
      exact ⟨_, rfl⟩
    · cases h

/-- Alone, a push on a storage comes closer to its end with each access. -/
theorem pushCall_alone {allowEmpty : Bool} {call call' : PushCall bits T} (hs : PushSolo s call)
    (hne : call ≠ .uninit) (h : (call.step len allowEmpty false s).2 = .running call') :
    PushSolo (call.step len allowEmpty false s).1 call' ∧ pushRank call' < pushRank call := by
  cases call with
  | load val =>
    obtain ⟨index, rfl⟩ := pushLoop_alone h
    exact ⟨rfl, by simp [pushRank]⟩
  | exchange val metadata index =>
    simp only [PushCall.step, show s.metadata = metadata from hs, if_pos, not_false_eq_true,
      and_self, Bool.false_eq_true] at h
    cases h
    exact ⟨trivial, by simp [pushRank]⟩
  | write val index =>
    cases h
    exact ⟨trivial, by simp [pushRank]⟩
  | publish index =>
    simp only [PushCall.step] at h
    split at h
    · cases h
      exact ⟨trivial, by simp [pushRank]⟩
    · cases h
  | readBack index =>
    simp only [PushCall.step] at h
    split at h
    · cases h
      exact ⟨trivial, by simp [pushRank]⟩
    · cases h
      exact ⟨trivial, by simp [pushRank]⟩
  | rollBack val index => cases h
  | uninit => exact absurd rfl hne

/-- The metadata is what the call of `pop` has read. -/
def PopSolo (s : Storage bits T) : PopCall bits T → Prop
  | .exchange metadata _ => s.metadata = metadata
  | _ => True

/-- The accesses that are left to a call of `pop`. -/
def popRank : PopCall bits T → Nat
  | .load => 4
  | .exchange _ _ => 3
  | .read _ => 2
  | .clear _ _ => 1
  | .uninit => 0

/-- A pop that has found an instance tries to take it. -/
theorem popLoop_alone {metadata : BitVec bits} {call : PopCall bits T}
    (h : PopCall.loop len metadata = .running call) : ∃ index, call = .exchange metadata index := by
  unfold PopCall.loop at h
  simp only at h
  split at h
  · cases h
    exact ⟨_, rfl⟩
  · cases h

/-- Alone, a pop on a storage comes closer to its end with each access. -/
theorem popCall_alone {call call' : PopCall bits T} (hs : PopSolo s call) (hne : call ≠ .uninit)
    (h : (call.step len false s).2 = .running call') :
    PopSolo (call.step len false s).1 call' ∧ popRank call' < popRank call := by
  cases call with
  | load =>
    obtain ⟨index, rfl⟩ := popLoop_alone h
    exact ⟨rfl, by simp [popRank]⟩
  | exchange metadata index =>
    simp only [PopCall.step, show s.metadata = metadata from hs, if_pos, not_false_eq_true,
      and_self, Bool.false_eq_true] at h
    cases h
    exact ⟨trivial, by simp [popRank]⟩
  | read index =>
    simp only [PopCall.step] at h
    split at h
    · cases h
      exact ⟨trivial, by simp [popRank]⟩
    · cases h
      exact ⟨trivial, by simp [popRank]⟩
  | clear inst index => cases h
  | uninit => exact absurd rfl hne

/-- The metadata is what the call of `pop_all` has read, or what it has written. -/
def AllSolo (s : Storage bits T) : AllCall bits T → Prop
  | .exchange _ metadata _ | .fold _ metadata _ _ | .unlock _ metadata _ => s.metadata = metadata
  | _ => True

/-- The accesses that are left to a call of `pop_all`. -/
def allRank (len : Nat) : AllCall bits T → Nat
  | .load _ => len + 4
  | .exchange _ _ _ => len + 3
  | .fold _ _ _ index => len - index + 2
  | .unlock _ _ _ => 1
  | .uninit _ => 0

/-- A `pop_all` that has found instances tries to take them. -/
theorem allLoop_alone {acc : List T} {metadata : BitVec bits} {call : AllCall bits T}
    (h : AllCall.loop len acc metadata = .running call) :
    ∃ instances, call = .exchange acc metadata instances := by
  unfold AllCall.loop at h
  split at h
  · cases h
  · cases h
    exact ⟨_, rfl⟩

/-- The loop over the locked slots goes on at a slot behind `index`. -/
theorem foldLoop_alone {acc : List T} {metadata instances : BitVec bits} {index k : Nat}
    {call : AllCall bits T} (hs : s.metadata = metadata) (hk : k ≤ index)
    (h : AllCall.foldLoop len acc metadata instances index = .running call) :
    AllSolo s call ∧ allRank len call ≤ len - k + 2 := by
  unfold AllCall.foldLoop at h
  split at h
  · cases h
    refine ⟨hs, ?_⟩
    show len - index + 2 ≤ len - k + 2
    omega
  · cases h
    refine ⟨hs, ?_⟩
    show 1 ≤ len - k + 2
    omega

/-- Alone, a `pop_all` on a storage comes closer to its end with each access. -/
theorem allCall_alone (hlen : ArrayLen bits len) {call call' : AllCall bits T}
    (hs : AllSolo s call) (hok : AllOk len call) (h : (call.step len false s).2 = .running call') :
    AllSolo (call.step len false s).1 call' ∧ allRank len call' < allRank len call := by
  cases call with
  | load acc =>
    obtain ⟨instances, rfl⟩ := allLoop_alone h
    refine ⟨rfl, ?_⟩
    show len + 3 < len + 4
    omega
  | exchange acc metadata instances =>
    simp only [AllCall.step, show s.metadata = metadata from hs, if_pos, not_false_eq_true,
      and_self, Bool.false_eq_true] at h ⊢
    obtain ⟨hsolo, hrank⟩ := foldLoop_alone (s := s.setMetadata (metadata ||| instances)) rfl
      (Nat.zero_le _) h
    exact ⟨hsolo, Nat.lt_of_le_of_lt hrank (Nat.lt_succ_self _)⟩
  | fold acc metadata instances index =>
    obtain ⟨hi, -, -⟩ := hok
    simp only [AllCall.step] at h ⊢
    cases hslot : s.slots index with
    | none =>
      rw [hslot] at h
      cases h
      refine ⟨trivial, ?_⟩
      show 0 < len - index + 2
      omega
    | some inst =>
      rw [hslot] at h
      -- The slots up to `index` are not among the ones that are left.
      have hbehind : index + 1 ≤
          (instances &&& ~~~((BitVec.ofNat bits 1 <<< (index + 1)) - 1)).ctz.toNat ∨
          len ≤ (instances &&& ~~~((BitVec.ofNat bits 1 <<< (index + 1)) - 1)).ctz.toNat := by
        by_contra hnot
        rw [not_or, Nat.not_le, Nat.not_le] at hnot
        have hfirst := getLsbD_ctz hnot.2 (Nat.le_of_lt hlen.lt_bits)
        rw [getLsbD_rest hlen hi, Bool.and_eq_true, decide_eq_true_eq] at hfirst
        omega
      obtain ⟨hsolo, hrank⟩ := foldLoop_alone (s := s.setSlot index none) (k := index + 1) hs
        (by omega) h
      refine ⟨hsolo, Nat.lt_of_le_of_lt hrank ?_⟩
      show len - (index + 1) + 2 < len - index + 2
      omega
  | unlock acc metadata instances =>
    simp only [AllCall.step, show s.metadata = metadata from hs, if_pos, not_false_eq_true,
      and_self, Bool.false_eq_true] at h
    cases h
  | uninit acc => exact hok.elim

end storage

section ends

variable {w w' : World bits T n} {t : Fin n} {done : World bits T n → Prop}

/-- The thread `t` runs alone, and comes to a state in `done`. -/
abbrev Solo (len : Nat) (t : Fin n) (done : World bits T n → Prop) (w : World bits T n) : Prop :=
  Ends (fun w => w.proceed len t false) (World.Releases len) done w

/-- The storage at a place: the primary one, or the one in an entry. -/
def storageAt (m : Mem bits T n) : Option Addr → Storage bits T
  | none => m.primary
  | some x => m.storage x

/-- The storage at one place of the bag changes. -/
def setStorageAt (m : Mem bits T n) : Option Addr → Storage bits T → Mem bits T n
  | none, s => m.setPrimary s
  | some x, s => m.setStorage x s

/-- The storage is the one that was written. -/
theorem storageAt_set (m : Mem bits T n) (loc : Option Addr) (s : Storage bits T) :
    storageAt (setStorageAt m loc s) loc = s := by
  cases loc with
  | none => rfl
  | some x => exact storage_setStorage.trans (if_pos rfl)

/-- The undeleted entries of a stack do not depend on the storages in the entries. -/
theorem contents_set (m : Mem bits T n) (loc : Option Addr) (s : Storage bits T)
    (i : Option (Fin n)) :
    ((setStorageAt m loc s).family.mem i).contents = (m.family.mem i).contents := by
  cases loc <;> rfl

/-- The next access of a call, without interference. -/
theorem proceed_eq {c : Call bits T} {fails : Bool} (hpc : w.pc t = .call c) :
    w.proceed len t fails = some (w.called t c.op (c.step len fails t w.mem)) := by
  unfold World.proceed
  rw [hpc]

variable (hlen : ArrayLen bits len)
include hlen

/-- The state after the next access of a call. -/
theorem called_inv (fails : Bool) (h : Inv len w.mem w.pc) {c : Call bits T}
    (hpc : w.pc t = .call c) :
    Inv len (w.called t c.op (c.step len fails t w.mem)).mem
      (w.called t c.op (c.step len fails t w.mem)).pc :=
  inv_step hlen h (a := .thread t (.proceed fails)) (proceed_eq hpc)

omit hlen in
/-- The thread stands still while an entry is released. -/
theorem releases_eq (h : Inv len w.mem w.pc) (hr : World.Releases len w w') :
    ∃ x, w' = ⟨w.mem.setHeap (w.mem.family.heap.release x), w.pc, w.history⟩ ∧
      Inv len w'.mem w'.pc ∧ w.unowned x = true := by
  obtain ⟨x, hx⟩ := hr
  simp only [World.step] at hx
  split at hx
  · rename_i hun
    cases hx
    obtain ⟨hlt, hunl, hword, hheld⟩ := unowned_iff hun
    exact ⟨x, rfl, h.release hlt hunl hword fun u => (placeOf_holds _ _).trans (hheld u), hun⟩
  · cases hx

/-- A call on the storage at `loc` returns. `I` is a property of the stacks. -/
theorem storage_ends {C R : Type} (loc : Option Addr)
    (step : Storage bits T → C → Storage bits T × Outcome C R) (solo : Storage bits T → C → Prop)
    (rank : C → Nat) (wrap : C → Call bits T)
    (cont : Outcome C R → Outcome (Call bits T) (Res T)) (I : Mem bits T n → Prop)
    (hstep : ∀ (m : Mem bits T n) c, (wrap c).step len false t m =
      (setStorageAt m loc (step (storageAt m loc) c).1, cont (step (storageAt m loc) c).2))
    (hcont : ∀ c, cont (.running c) = .running (wrap c))
    (hsolo : ∀ (w : World bits T n) c c', Inv len w.mem w.pc → w.pc t = .call (wrap c) →
      solo (storageAt w.mem loc) c → (step (storageAt w.mem loc) c).2 = .running c' →
        solo (step (storageAt w.mem loc) c).1 c' ∧ rank c' < rank c)
    (hset : ∀ m s, I m → I (setStorageAt m loc s))
    (hrelease : ∀ m x, I m → I (m.setHeap (m.family.heap.release x)))
    (hdone : ∀ (w : World bits T n) r, Inv len w.mem w.pc → w.pc t = next (cont (.done r)) →
      I w.mem → Solo len t done w)
    {c : C} (h : Inv len w.mem w.pc) (hpc : w.pc t = .call (wrap c))
    (hs : solo (storageAt w.mem loc) c) (hi : I w.mem) : Solo len t done w := by
  refine call_ends (fun w : World bits T n => storageAt w.mem loc) step
    (fun w c => Inv len w.mem w.pc ∧ w.pc t = .call (wrap c) ∧ I w.mem) solo (fun _ => rank)
    (fun _ _ => True) (fun w c hat hs => ⟨?_, fun _ _ => trivial⟩) (fun w w' c hat he => ?_)
    (fun w c hat => ?_) ⟨h, hpc, hi⟩ hs
  · exact fun c' hc' => hsolo w c c' hat.1 hat.2.1 hs hc'
  · obtain ⟨h, hpc, hi⟩ := hat
    obtain ⟨x, rfl, h', -⟩ := releases_eq h he
    refine ⟨⟨h', hpc, hrelease _ x hi⟩, fun hs => ?_⟩
    have hsame : storageAt (w.mem.setHeap (w.mem.family.heap.release x)) loc
        = storageAt w.mem loc := by
      cases loc <;> rfl
    show solo (storageAt (w.mem.setHeap _) loc) c ∧ _
    rw [hsame]
    exact ⟨hs, rfl⟩
  · obtain ⟨h, hpc, hi⟩ := hat
    have h' := called_inv hlen false h hpc
    obtain ⟨hmem, hpc'⟩ := called_eq (w := w) (t := t) (wrap c).op ((wrap c).step len false t w.mem)
    rw [hstep] at hmem hpc'
    refine ⟨_, proceed_eq hpc, fun c' hc' => ?_, fun r hr _ => ?_⟩
    · refine ⟨⟨h', ?_, ?_⟩, ?_⟩
      · rw [hstep, hpc', Function.update_self, hc', hcont]
        rfl
      · rw [hstep, hmem]
        exact hset _ _ hi
      · show storageAt (World.mem _) loc = _
        rw [hstep, hmem, storageAt_set]
    · refine hdone _ r h' ?_ ?_
      · rw [hstep, hpc', Function.update_self, hr]
      · rw [hstep, hmem]
        exact hset _ _ hi

/-- A call on the stack `i` returns. There were `K` undeleted entries when it began. -/
theorem stack_ends (i : Option (Fin n)) (wrap : Stack.Call (Storage bits T) → Call bits T)
    (cont : Outcome (Stack.Call (Storage bits T)) Stack.Res → Outcome (Call bits T) (Res T))
    (K : Nat)
    (hstep : ∀ (m : Mem bits T n) c, (wrap c).step len false t m =
      (m.setFamily (m.family.setMem i ((m.family.mem i).step c).1),
        cont ((m.family.mem i).step c).2))
    (hcont : ∀ c, cont (.running c) = .running (wrap c))
    (hholds : ∀ c x, (wrap c).holds x = c.holds x)
    (hdone : ∀ (w : World bits T n) res, Inv len w.mem w.pc → w.pc t = next (cont (.done res)) →
      (∀ x, res = .popped (some x) → (w.mem.family.mem i).contents.length < K) →
      Solo len t done w)
    {op : Stack.Op (Storage bits T)} (h : Inv len w.mem w.pc)
    (hpc : w.pc t = .call (wrap (.start op)))
    (hK : (w.mem.family.mem i).contents.length ≤ K) : Solo len t done w := by
  obtain ⟨owner, tgt, hf⟩ := h.family
  refine stackCall_ends (fun w : World bits T n => w.mem.family) i
    (w.mem.family.mem i).contents.length
    (fun w c => Inv len w.mem w.pc ∧ w.pc t = .call (wrap c)) (fun w w' c hat he => ?_)
    (fun w₁ c hat => ?_) ⟨h, hpc⟩ (.start hf.words op)
  · obtain ⟨x, rfl, h', hun⟩ := releases_eq hat.1 he
    obtain ⟨hlt, hunl, hword, hheld⟩ := unowned_iff hun
    refine ⟨⟨h', hat.2⟩, x, rfl, hlt, hunl, hword, ?_⟩
    have hx := hheld t
    rw [hat.2] at hx
    exact (hholds c x).symm.trans hx
  · obtain ⟨h, hpc⟩ := hat
    have h' := called_inv hlen false h hpc
    obtain ⟨hmem, hpc'⟩ := called_eq (w := w₁) (t := t) (wrap c).op
      ((wrap c).step len false t w₁.mem)
    rw [hstep] at hmem hpc'
    refine ⟨_, proceed_eq hpc, fun c' hc' => ⟨⟨h', ?_⟩, ?_⟩, fun res hres hpop _ => ?_⟩
    · rw [hstep, hpc', Function.update_self, hc', hcont]
      rfl
    · show (World.mem _).family = _
      rw [hstep, hmem]
      rfl
    · refine hdone _ res h' ?_ fun x hx => ?_
      · rw [hstep, hpc', Function.update_self, hres]
      · rw [hstep, hmem]
        show ((w₁.mem.family.setMem i _).mem i).contents.length < K
        rw [Stacks.mem_setMem]
        exact Nat.lt_of_lt_of_le (hpop x hx) hK

end ends

end Sdd.Proofs.Bag
