import Sdd.Proofs.Bag.Conservation
import Sdd.Proofs.Bag.Tidy
import Sdd.Unwind

/-!
# `Sdd.Proofs.Bag.Unwind`: what is left after the fold has panicked

A call of `pop_all` of a bag that nobody else uses runs until it folds an instance, and the fold
panics. The unwinding ends, and then an instance that the bag held has been passed to the fold,
or is in the bag, or its storage has been detached and drops it (`Survives`). This is so if and
only if the instance on which the fold panics is the last one in its storage (`FoldsLast`): the
`ExitGuard` marks all slots that the call has locked as not instantiated, also the ones that have
not been read.
-/

set_option autoImplicit false

namespace Sdd.Proofs.Bag

open Sdd.Lib
open Sdd.Bag (Mem Call Pc Op Res World Action Unwind)
open Sdd.Proofs.Stack (Stacks entries mem_entries)
open Sdd.Proofs.Stacks (FamilyInv)

variable {bits n len : Nat} {T : Type} {w w' : World bits T n} {t : Fin n}

section drop

variable {s : Storage bits T}

/-- The loop of the destructor drops the instances whose bits are set: each turn clears the first
bit that is set. -/
theorem dropLoop_eq {slots : Nat → Option T} {fuel : Nat} {b : BitVec 32} (hfuel : 0 < fuel)
    (hclear : ∀ i, i + fuel < 33 → b.getLsbD i = false)
    (hslots : ∀ i, b.getLsbD i = true → (slots i).isSome = true) :
    ∃ l, Storage.dropLoop slots fuel b = some l ∧
      (l : Multiset T) = ∑ i ∈ Finset.range 32, if b.getLsbD i then held (slots i) else 0 := by
  induction fuel generalizing b with
  | zero => exact absurd hfuel (Nat.lt_irrefl 0)
  | succ fuel ih =>
    rw [Storage.dropLoop]
    split
    · rename_i hctz
      refine ⟨[], rfl, (Finset.sum_eq_zero fun i hi => if_neg ?_).symm⟩
      rw [BitVec.getLsbD_false_of_lt_ctz (by rw [hctz]; exact Finset.mem_range.mp hi)]
      nofun
    · rename_i hne
      have hlt : b.ctz.toNat < 32 := by
        have hle : b.ctz ≤ 32#32 := BitVec.clz_le
        rw [BitVec.le_def] at hle
        exact Nat.lt_of_le_of_ne hle hne
      have hbit : b.getLsbD b.ctz.toNat = true := getLsbD_ctz hlt (Nat.le_refl 32)
      obtain ⟨inst, hinst⟩ := Option.isSome_iff_exists.mp (hslots _ hbit)
      have hrest : ∀ i, (b &&& ~~~(1#32 <<< b.ctz.toNat)).getLsbD i
          = (b.getLsbD i && !decide (i = b.ctz.toNat)) := by
        intro i
        rw [getLsbD_and_not, getLsbD_one_shiftLeft hlt]
      -- The bit that is cleared now is not below the ones that were.
      have hfirst : ¬b.ctz.toNat + (fuel + 1) < 33 := by
        intro hlow
        rw [hclear _ hlow] at hbit
        cases hbit
      have hclear' : ∀ i, i + fuel < 33 → (b &&& ~~~(1#32 <<< b.ctz.toNat)).getLsbD i = false := by
        intro i hi
        rw [hrest]
        by_cases hlow : i < b.ctz.toNat
        · rw [BitVec.getLsbD_false_of_lt_ctz hlow, Bool.false_and]
        · by_cases heq : i = b.ctz.toNat
          · simp [heq]
          · omega
      have hslots' : ∀ i, (b &&& ~~~(1#32 <<< b.ctz.toNat)).getLsbD i = true →
          (slots i).isSome = true := by
        intro i hi
        rw [hrest, Bool.and_eq_true] at hi
        exact hslots i hi.1
      obtain ⟨l, hl, hsum⟩ := ih (by omega) hclear' hslots'
      rw [hinst, Option.bind_some, hl]
      refine ⟨inst :: l, rfl, ?_⟩
      have hmem : b.ctz.toNat ∈ Finset.range 32 := Finset.mem_range.mpr hlt
      rw [← Finset.sum_erase_add _ _ hmem] at hsum
      rw [hrest, decide_eq_true rfl, Bool.not_true, Bool.and_false, if_neg nofun, add_zero] at hsum
      rw [← Finset.sum_erase_add _ _ hmem, hbit, if_pos rfl, hinst, add_comm, ← Multiset.cons_coe,
        hsum, ← Multiset.singleton_add]
      refine congrArg _ (Finset.sum_congr rfl fun i hi => ?_)
      rw [hrest, decide_eq_false (Finset.ne_of_mem_erase hi), Bool.not_false, Bool.and_true]

/-- The destructor of a storage drops its instantiated slots, if each holds an instance. -/
theorem drop_eq (h : ArrayLen bits len) (hm : High len s.metadata)
    (hslots : ∀ i < len, inst len s.metadata i = true → (s.slots i).isSome = true) :
    ∃ l, s.drop len = some l ∧ (l : Multiset T) =
      ∑ i ∈ Finset.range len, if inst len s.metadata i then held (s.slots i) else 0 := by
  have hbit : ∀ i < 32, (Storage.instanceBitmap len s.metadata).getLsbD i = inst len s.metadata i :=
    fun _ => getLsbD_instanceBitmap
  have hhigh : ∀ i, ¬i < len → inst len s.metadata i = false := fun i hi => hm _ (by omega)
  have hslots' : ∀ i, (Storage.instanceBitmap len s.metadata).getLsbD i = true →
      (s.slots i).isSome = true := by
    intro i hi
    rw [hbit i (BitVec.lt_of_getLsbD hi)] at hi
    by_cases hlt : i < len
    · exact hslots i hlt hi
    · rw [hhigh i hlt] at hi
      cases hi
  obtain ⟨l, hl, hsum⟩ := dropLoop_eq (Nat.zero_lt_succ 32) (fun i hi => by omega) hslots'
  refine ⟨l, hl, hsum.trans ?_⟩
  have hsub : Finset.range len ⊆ Finset.range 32 := Finset.range_subset_range.mpr h.le_32
  rw [Finset.sum_congr rfl fun i hi => by rw [hbit i (Finset.mem_range.mp hi)]]
  refine (Finset.sum_subset hsub fun i _ hi => ?_).symm
  rw [hhigh i fun hlt => hi (Finset.mem_range.mpr hlt)]
  rfl

/-- The destructor of a storage drops what is in its valid slots. -/
def Droppable (len : Nat) (s : Storage bits T) : Prop :=
  ∃ l, s.drop len = some l ∧ (l : Multiset T) = contents len s

/-- A storage that nobody uses. -/
theorem Unowned.droppable (h : ArrayLen bits len) (hu : Unowned len s)
    (hm : High len s.metadata) : Droppable len s := by
  obtain ⟨l, hl, hsum⟩ := drop_eq h hm fun i hi hinst => (hu i hi).2.trans hinst
  refine ⟨l, hl, hsum.trans (Finset.sum_congr rfl fun i hi => ?_)⟩
  have howned : owned s.metadata i = false := (hu i (Finset.mem_range.mp hi)).1
  unfold valid
  rw [howned, Bool.not_false, Bool.and_true]

/-- A storage without an instantiated slot. -/
theorem droppable_of_empty (h : ArrayLen bits len) (hm : High len s.metadata)
    (hempty : ∀ i < len, inst len s.metadata i = false) : Droppable len s ∧ contents len s = 0 := by
  have hzero : contents len s = 0 := by
    refine Finset.sum_eq_zero fun i hi => if_neg ?_
    unfold valid
    rw [hempty i (Finset.mem_range.mp hi)]
    nofun
  obtain ⟨l, hl, hsum⟩ := drop_eq h hm fun i hi hinst => (by rw [hempty i hi] at hinst; cases hinst)
  refine ⟨⟨l, hl, ?_⟩, hzero⟩
  rw [hsum, hzero]
  refine Finset.sum_eq_zero fun i hi => ?_
  rw [hempty i (Finset.mem_range.mp hi)]
  rfl

end drop

section guard

variable {s : Storage bits T} {call : AllCall bits T}

/-- A call of `pop_all` that has locked slots has locked all that are instantiated. -/
def AllLocked (len : Nat) (s : Storage bits T) : AllCall bits T → Prop
  | .fold _ _ instances _ | .unlock _ _ instances =>
    ∀ i < len, inst len s.metadata i = true → instances.getLsbD i = true
  | .load _ | .exchange _ _ _ | .uninit _ => True

/-- One access of a call of `pop_all` on a storage that nobody else uses. -/
theorem allCall_locked (h : ArrayLen bits len) (hm : High len s.metadata)
    (hfree : allClaims call = unclaimed → ∀ i < len, owned s.metadata i = false)
    (hok : AllOk len call) (hl : AllLocked len s call) {fails : Bool} {call' : AllCall bits T}
    (hout : (call.step len fails s).2 = .running call') :
    AllLocked len (call.step len fails s).1 call' := by
  have hloop : ∀ {acc : List T}, AllCall.loop len acc s.metadata = .running call' →
      AllLocked len s call' := by
    intro acc hout
    unfold AllCall.loop at hout
    split at hout
    · cases hout
    · cases hout
      trivial
  have hfold : ∀ {s' : Storage bits T} {acc : List T} {m instances : BitVec bits} {index : Nat},
      (∀ i < len, inst len s'.metadata i = true → instances.getLsbD i = true) →
      AllCall.foldLoop len acc m instances index = .running call' → AllLocked len s' call' := by
    intro s' acc m instances index hall hout
    unfold AllCall.foldLoop at hout
    split at hout
    · cases hout
      exact hall
    · cases hout
      exact hall
  cases call with
  | load acc => exact hloop hout
  | exchange acc m instances =>
    cases hok
    simp only [AllCall.step] at hout ⊢
    split at hout
    · rename_i heq
      rw [if_pos heq]
      obtain ⟨rfl, -⟩ := heq
      have hx : ∀ i, (AllCall.instancesToPop len s.metadata).getLsbD i
          = (decide (i < len) && valid len s.metadata i) := fun _ => getLsbD_instancesToPop h hm
      refine hfold (fun i hi hinst => ?_) hout
      have hinst' : inst len s.metadata i = true := by
        refine (inst_lockAll fun j hj => ?_).symm.trans hinst
        rw [hx j, Bool.and_eq_true] at hj
        exact of_decide_eq_true hj.1
      rw [hx i, valid, hinst', hfree rfl i hi]
      simp [hi]
    · rename_i hne
      rw [if_neg hne]
      exact hloop hout
  | fold acc m instances index =>
    simp only [AllCall.step] at hout ⊢
    split at hout
    · exact hfold hl hout
    · cases hout
      trivial
  | unlock acc m instances =>
    simp only [AllCall.step] at hout ⊢
    split at hout
    · cases hout
    · rename_i hne
      cases hout
      rw [if_neg hne]
      exact hl
  | uninit acc => cases hok

/-- The storage after the fold has panicked on the slot `index`, and the `ExitGuard` has run. -/
def unlocked (len : Nat) (s : Storage bits T) (instances : BitVec bits) (index : Nat) :
    Storage bits T :=
  (s.setSlot index none).setMetadata (s.metadata &&& ~~~((instances <<< len) ||| instances))

/-- The `ExitGuard` leaves no slot instantiated, and an instance in each slot that has not been
read. -/
theorem unlocked_values (h : ArrayLen bits len) {acc : List T} {m instances : BitVec bits}
    {index : Nat} (hk : Knows len s (allClaims (.fold acc m instances index)))
    (hok : AllOk len (.fold acc m instances index))
    (hl : AllLocked len s (.fold acc m instances index))
    (hfree : ∀ i < len, instances.getLsbD i = false → Matches (cell len s i) none) :
    High len (unlocked len s instances index).metadata ∧
    (∀ i < len, inst len (unlocked len s instances index).metadata i = false) ∧
    (values len (unlocked len s instances index) = 0 ↔
      ∀ i < len, index < i → inst len s.metadata i = false) := by
  obtain ⟨-, -, hbound⟩ := hok
  -- What is in a slot that has been locked.
  have hclaim : ∀ i, instances.getLsbD i = true →
      Matches (cell len s i) (some (if index ≤ i then .full else .taken)) := by
    intro i hi
    refine (hk.claimed i _ ?_).2
    simp [allClaims, foldClaims, hi]
  refine ⟨high_and_not hk.high _, fun i hi => ?_, ?_⟩
  · refine (inst_unlock h hi hbound).trans ?_
    cases hinst : inst len s.metadata i with
    | false => rfl
    | true => rw [hl i hi hinst, Bool.not_true, Bool.and_false]
  · rw [values, Finset.sum_eq_zero_iff]
    refine ⟨fun hzero i hi hlt => ?_, fun hlast i hi => ?_⟩
    · by_contra hinst
      have hinst' : inst len s.metadata i = true := (Bool.not_eq_false _).mp hinst
      have hfull := hclaim i (hl i hi hinst')
      rw [if_pos (Nat.le_of_lt hlt)] at hfull
      obtain ⟨val, hval⟩ := Option.isSome_iff_exists.mp hfull.2.2
      have hslot : (unlocked len s instances index).slots i = some val :=
        (Function.update_of_ne (Nat.ne_of_gt hlt) _ _).trans hval
      have hnil := hzero i (Finset.mem_range.mpr hi)
      rw [hslot] at hnil
      exact Multiset.singleton_ne_zero val hnil
    · have hlt := Finset.mem_range.mp hi
      have hnone : (unlocked len s instances index).slots i = none := by
        show Function.update s.slots index none i = none
        by_cases hne : i = index
        · rw [hne, Function.update_self]
        · rw [Function.update_of_ne hne]
          cases hx : instances.getLsbD i with
          | false =>
            obtain ⟨-, hslot⟩ := hfree i hlt hx
            have hinst : inst len s.metadata i = false := by
              by_contra hinst
              rw [hl i hlt ((Bool.not_eq_false _).mp hinst)] at hx
              cases hx
            exact Option.isNone_iff_eq_none.mp
              (Option.isSome_eq_false_iff.mp (hslot.trans hinst))
          | true =>
            have hcell := hclaim i hx
            by_cases hle : index ≤ i
            · rw [if_pos hle] at hcell
              have hinst := hlast i hlt (by omega)
              rw [show inst len s.metadata i = true from hcell.2.1] at hinst
              cases hinst
            · rw [if_neg hle] at hcell
              exact hcell.2.2
      rw [hnone]
      rfl

end guard

section folding

variable {S : Multiset T} {c : Call bits T}

/-- Only the thread `t` goes on; entries are released in the mean time. -/
def Alone (t : Fin n) (_ : World bits T n) (a : Action T n) : Prop :=
  (∃ fails, a = .thread t (.proceed fails)) ∨ ∃ x, a = .release x

/-- A call of `pop_all` has locked all slots that are instantiated, if it has locked some. -/
def Locked (len : Nat) (m : Mem bits T n) : Call bits T → Prop
  | .allStorage x call => AllLocked len (m.storage x) call
  | .allPrimary call => AllLocked len m.primary call
  | _ => True

/-- The thread `t` calls `pop_all` of a bag that nobody else uses. `S` are the instances in the
storages and the ones that have been folded. -/
structure Folding (len : Nat) (S : Multiset T) (t : Fin n) (w : World bits T n) : Prop where
  inv : Inv len w.mem w.pc
  others : ∀ u, u ≠ t → ∀ c, w.pc u ≠ .call c
  op : ∀ c, w.pc t = .call c → c.op = .popAll
  kept : ∀ c, w.pc t = .call c → stored len w.mem + callHolds c = S
  locked : ∀ c, w.pc t = .call c → Locked len w.mem c

/-- The other threads have no claims. -/
theorem Folding.unclaimed (h : Folding len S t w) (loc : Option Addr) {u : Fin n} (hu : u ≠ t) :
    claimsOf loc (w.pc u) = unclaimed := (free_of_not_call (h.others u hu)).claims loc

/-- The slots of a storage on which the call has no claims are free. -/
theorem Folding.free (h : Folding len S t w) {s : Storage bits T} {loc : Option Addr}
    (hs : StorageInv len s (claimsOf loc ∘ w.pc)) {i : Nat} (hi : i < len)
    (hc : claimsOf loc (w.pc t) i = none) : Matches (cell len s i) none := by
  refine hs.free i hi fun u => ?_
  by_cases hu : u = t
  · rw [hu]
    exact hc
  · exact congrFun (h.unclaimed loc hu) i

/-- The claims of a call of `pop_all` on the storage in an entry that it empties. -/
theorem claims_allStorage {x : Addr} {call : AllCall bits T} :
    claimsOf (some x) (.call (.allStorage x call)) = allClaims call := if_pos rfl

/-- One access of a call. -/
theorem Folding.locked_step (hlen : ArrayLen bits len) (h : Folding len S t w)
    (hpc : w.pc t = .call c) {fails : Bool} {c' : Call bits T}
    (hout : (c.step len fails t w.mem).2 = .running c') :
    Locked len (c.step len fails t w.mem).1 c' := by
  have hold := h.locked c hpc
  have hok := h.inv.calls t c hpc
  have hop := h.op c hpc
  -- The slots that the call has no claims on are not owned.
  have hfree : ∀ {s : Storage bits T} {loc : Option Addr},
      StorageInv len s (claimsOf loc ∘ w.pc) → claimsOf loc (w.pc t) = Bag.unclaimed →
      ∀ i < len, owned s.metadata i = false := fun hs hc i hi =>
    (h.free hs hi (congrFun hc i)).1
  cases c with
  | allStorage x call =>
    have hused : placeOf (w.pc t) = .uses x true := by
      rw [hpc]
      rfl
    have hs := (h.inv.storages x (h.inv.used hused)).2
    have hstep : ∀ call', (call.step len fails (w.mem.storage x)).2 = .running call' →
        AllLocked len (call.step len fails (w.mem.storage x)).1 call' := fun call' =>
      allCall_locked hlen hs.high
        (fun hc => hfree hs (by rw [hpc, claims_allStorage]; exact hc)) hok.1 hold
    simp only [Call.step] at hout ⊢
    cases hr : (call.step len fails (w.mem.storage x)).2 with
    | running call' =>
      rw [hr] at hout
      cases hout
      show AllLocked len ((w.mem.setStorage x _).storage x) call'
      rw [storage_setStorage, if_pos rfl]
      exact hstep call' hr
    | done acc =>
      rw [hr] at hout
      cases hout
      trivial
  | allPrimary call =>
    have hs := h.inv.primary
    have hstep : ∀ call', (call.step len fails w.mem.primary).2 = .running call' →
        AllLocked len (call.step len fails w.mem.primary).1 call' := fun call' =>
      allCall_locked hlen hs.high (fun hc => hfree hs (by rw [hpc]; exact hc)) hok hold
    simp only [Call.step] at hout ⊢
    cases hr : (call.step len fails w.mem.primary).2 with
    | running call' =>
      rw [hr] at hout
      cases hout
      exact hstep call' hr
    | done acc =>
      rw [hr] at hout
      cases hout
  | allPop acc call =>
    simp only [Call.step] at hout
    unfold Call.allPopped at hout
    split at hout <;> cases hout <;> trivial
  | allSwap =>
    cases hout
    trivial
  | pushPrimary tries val call => cases tries <;> cases hop
  | pushPeek val call => cases hop
  | pushStorage val x call => cases hop
  | pushNew val call => cases hop
  | popPeek call => cases hop
  | popStorage x call => cases hop
  | popDelete x val => cases hop
  | popPrimary call => cases hop

/-- What the run of `pop_all` keeps. -/
theorem Folding.step (hlen : ArrayLen bits len) (h : Folding len S t w) {a : Action T n}
    (ha : Alone t w a) (hw : w.step len a = some w') : Folding len S t w' := by
  have hinv := inv_step hlen h.inv hw
  cases stepped hw with
  | invoke u op hpc => rcases ha with ⟨fails, ha⟩ | ⟨x, ha⟩ <;> cases ha
  | drop u x y hpc hy => rcases ha with ⟨fails, ha⟩ | ⟨x, ha⟩ <;> cases ha
  | release x hx => exact ⟨hinv, h.others, h.op, h.kept, h.locked⟩
  | clean u c fails p hpc hp =>
    obtain rfl : u = t := by
      rcases ha with ⟨fails, ha⟩ | ⟨x, ha⟩ <;> cases ha
      rfl
    have hcall : ∀ c, p ≠ .call c := by
      rcases hp with ⟨c', -, rfl⟩ | ⟨q, -, rfl⟩ <;> exact fun _ => nofun
    have hpc' : ∀ c, Function.update w.pc u p u ≠ .call c := by
      rw [Function.update_self]
      exact hcall
    refine ⟨hinv, fun v hv => ?_, fun c hc => absurd hc (hpc' c), fun c hc => absurd hc (hpc' c),
      fun c hc => absurd hc (hpc' c)⟩
    show ∀ c, Function.update w.pc u p v ≠ .call c
    rw [Function.update_of_ne hv]
    exact h.others v hv
  | call u c fails hpc =>
    obtain rfl : u = t := by
      rcases ha with ⟨fails, ha⟩ | ⟨x, ha⟩ <;> cases ha
      rfl
    obtain ⟨-, hstored, hop⟩ := call_after hlen h.inv hpc fails
    have hlocked : ∀ c', (c.step len fails u w.mem).2 = .running c' →
        Locked len (c.step len fails u w.mem).1 c' := fun c' => h.locked_step hlen hpc
    rw [h.kept c hpc] at hstored
    have hop' := h.op c hpc
    generalize c.step len fails u w.mem = r at hinv hstored hop hlocked
    obtain ⟨m, out⟩ := r
    have hothers : ∀ p : Pc bits T, ∀ v, v ≠ u → ∀ c, Function.update w.pc u p v ≠ .call c := by
      intro p v hv
      rw [Function.update_of_ne hv]
      exact h.others v hv
    cases out with
    | running c' =>
      have hself : ∀ c'', Function.update w.pc u (.call c') u = .call c'' → c'' = c' := by
        intro c'' hc
        rw [Function.update_self] at hc
        exact (Pc.call.inj hc).symm
      refine ⟨hinv, hothers _, fun c'' hc => ?_, fun c'' hc => ?_, fun c'' hc => ?_⟩
      · rw [hself c'' hc]
        exact Eq.trans hop hop'
      · rw [hself c'' hc]
        exact hstored
      · rw [hself c'' hc]
        exact hlocked c' rfl
    | done res =>
      have hself : ∀ c'', Function.update w.pc u .idle u ≠ .call c'' := by
        intro c''
        rw [Function.update_self]
        nofun
      exact ⟨hinv, hothers _, fun c'' hc => absurd hc (hself c''), fun c'' hc => absurd hc (hself c''),
        fun c'' hc => absurd hc (hself c'')⟩

/-- `pop_all` is called when no call is in progress. -/
theorem folding_start (hlen : ArrayLen bits len) (h : Inv len w.mem w.pc) (hrest : AtRest w)
    (hw : w.step len (.thread t (.invoke .popAll)) = some w') :
    Folding len (stored len w.mem) t w' := by
  have hinv := inv_step hlen h hw
  cases stepped hw with
  | invoke t op hpc =>
    have hself : ∀ c, Function.update w.pc t (.call (.start .popAll)) t = .call c → c = .allSwap := by
      intro c hc
      rw [Function.update_self] at hc
      exact (Pc.call.inj hc).symm
    refine ⟨hinv, fun u hu => ?_, fun c hc => ?_, fun c hc => ?_, fun c hc => ?_⟩
    · show ∀ c, Function.update w.pc t _ u ≠ .call c
      rw [Function.update_of_ne hu]
      exact hrest u
    · rw [hself c hc]
      rfl
    · rw [hself c hc]
      exact add_zero _
    · rw [hself c hc]
      trivial

end folding

section unwinding

variable {S lost : Multiset T} {m m' : Mem bits T n}

/-- The words after the `ExitGuard` has run. `lost` are the instances that are in no valid slot,
and `S` are all the instances. -/
structure Torn (len : Nat) (S lost : Multiset T) (t : Fin n) (m : Mem bits T n) : Prop where
  words : ∃ owner tgt, Stacks m.family.heap m.family.attached owner m.family.newest tgt
  others : ∀ u, u ≠ t → m.family.newest (some u) = none
  storages : ∀ x ∈ m.family.attached, Droppable len (m.storage x)
  total : contents len m.primary + ∑ x ∈ m.family.attached.toFinset, contents len (m.storage x) +
    lost = S

/-- The storages stay as they are. -/
theorem Torn.frame (h : Torn len S lost t m)
    (hw : ∃ owner tgt, Stacks m'.family.heap m'.family.attached owner m'.family.newest tgt)
    (hprim : m'.primary = m.primary) (hatt : m'.family.attached = m.family.attached)
    (hvalue : ∀ x ∈ m.family.attached, m'.family.heap.value x = m.family.heap.value x)
    (hothers : ∀ j, j ≠ some t → m'.family.newest j = m.family.newest j) :
    Torn len S lost t m' where
  words := hw
  others u hu := (hothers _ fun hc => hu (Option.some.inj hc)).trans (h.others u hu)
  storages x hx := by
    rw [hatt] at hx
    rw [storage_congr (hvalue x hx)]
    exact h.storages x hx
  total := by
    have hsum : ∑ x ∈ m'.family.attached.toFinset, contents len (m'.storage x) =
        ∑ x ∈ m.family.attached.toFinset, contents len (m.storage x) := by
      rw [hatt]
      refine Finset.sum_congr rfl fun x hx => ?_
      rw [storage_congr (hvalue x (List.mem_toFinset.mp hx))]
    rw [hprim, hsum]
    exact h.total

theorem Torn.release (h : Torn len S lost t m) {x : Addr} (hlt : x < m.family.heap.nextAddr)
    (hun : m.family.heap.unlinked x = true) (hword : ∀ i, m.family.newest i ≠ some x) :
    Torn len S lost t (m.setHeap (m.family.heap.release x)) := by
  obtain ⟨owner, tgt, hs⟩ := h.words
  exact h.frame ⟨owner, tgt, hs.release hlt hun hword⟩ rfl rfl (fun _ _ => rfl) fun _ _ => rfl

theorem Torn.tidied (h : Torn len S lost t m) (ht : Tidied (some t) m m')
    (hw : ∃ owner tgt, Stacks m'.family.heap m'.family.attached owner m'.family.newest tgt) :
    Torn len S lost t m' :=
  h.frame hw ht.primary ht.attached ht.value ht.others

/-- The words after the word `newest` of the stack of `t` has been dropped. -/
def dropNewest (t : Fin n) (m : Mem bits T n) : Mem bits T n :=
  m.setFamily { m.family with newest := Function.update m.family.newest (some t) none }

/-- The unwinding is over. -/
def Over (len : Nat) (S lost : Multiset T) (t : Fin n)
    (s : Mem bits T n × Outcome (Unwind bits T) Unit) : Prop :=
  ∃ m, s = (dropNewest t m, .done ()) ∧ Torn len S lost t m

/-- The unwinding of a call of the thread `t` ends. -/
def Unwinds (len : Nat) (S lost : Multiset T) (t : Fin n)
    (s : Mem bits T n × Outcome (Unwind bits T) Unit) : Prop :=
  Ends (Outcome.advance (Unwind.step len false t)) (Mem.LetsGo Unwind.holds) (Over len S lost t) s

/-- One access, after which the unwinding ends. -/
theorem step_unwinds {u : Unwind bits T} (P : Mem bits T n → Prop)
    (hrel : ∀ m x, P m → P (m.setHeap (m.family.heap.release x)))
    (hstep : ∀ m, Torn len S lost t m → P m → Unwinds len S lost t (u.step len false t m))
    (h : Torn len S lost t m) (hm : P m) : Unwinds len S lost t (m, .running u) := by
  refine Ends.of_step (fun s => s.2 = .running u ∧ Torn len S lost t s.1 ∧ P s.1)
    (fun s s' hp he => ?_) (fun s hp => ?_) ⟨rfl, h, hm⟩
  · obtain ⟨hout, ht, hp⟩ := hp
    obtain ⟨x, hlt, hun, hword, -, rfl⟩ := he
    exact ⟨hout, ht.release hlt hun hword, hrel _ x hp⟩
  · obtain ⟨m, out⟩ := s
    obtain ⟨hout, ht, hp⟩ := hp
    cases hout
    exact ⟨_, rfl, hstep m ht hp⟩

/-- The word `newest` is dropped. -/
theorem newest_unwinds (h : Torn len S lost t m) : Unwinds len S lost t (m, .running .newest) :=
  step_unwinds (fun _ => True) (fun _ _ _ => trivial) (fun m h _ => .done ⟨m, rfl, h⟩) h trivial

/-- The undeleted entries of all stacks. -/
def living (m : Mem bits T n) : Nat :=
  (m.family.attached.filter fun x => !m.family.heap.isDeleted x).length

/-- The entry `x` is not deleted. -/
def Alive (m : Mem bits T n) (x : Addr) : Prop :=
  x ∈ m.family.attached ∧ m.family.heap.isDeleted x = false

/-- An entry is deleted. -/
theorem living_delete {x : Addr} (hx : Alive m x) :
    living (m.setHeap (m.family.heap.deleteSelf x).1) < living m := by
  unfold living
  show (m.family.attached.filter fun y => !(m.family.heap.deleteSelf x).1.isDeleted y).length < _
  rw [isDeleted_deleteSelf hx.2]
  have heq : (m.family.attached.filter fun y =>
      !Function.update m.family.heap.isDeleted x true y) =
      (m.family.attached.filter fun y => !m.family.heap.isDeleted y).filter fun y => y ≠ x := by
    rw [List.filter_filter]
    refine List.filter_congr fun y _ => ?_
    by_cases hyx : y = x
    · simp [hyx]
    · simp [hyx]
  rw [heq, List.length_filter_lt_length_iff_exists]
  exact ⟨x, List.mem_filter.mpr ⟨hx.1, by rw [hx.2]; rfl⟩, by simp⟩

/-- `Stack::drop` deletes the entries from `x` on: each turn of the loop deletes one. -/
theorem delete_unwinds {x : Addr} (h : Torn len S lost t m) (hx : Alive m x) :
    Unwinds len S lost t (m, .running (.delete x)) := by
  induction hk : living m using Nat.strongRecOn generalizing m x with
  | _ k ih =>
    refine step_unwinds (fun m => Alive m x ∧ living m = k) (fun _ _ hp => hp) (fun m h hp => ?_) h
      ⟨hx, hk⟩
    obtain ⟨⟨hatt, hlive⟩, hk⟩ := hp
    obtain ⟨owner, tgt, hs⟩ := h.words
    have hkill := hs.kill hatt hlive
    have hlt := living_delete ⟨hatt, hlive⟩
    have hdel : Torn len S lost t (m.setHeap (m.family.heap.deleteSelf x).1) := by
      refine h.frame ⟨owner, _, hkill⟩ rfl rfl (fun y _ => ?_) fun _ _ => rfl
      show (m.family.heap.deleteSelf x).1.value y = m.family.heap.value y
      rw [deleteSelf_eq hlive]
      rfl
    refine next_ends (Unwind.step len false t) Unwind.holds (.next x) (Unwind.advanced x)
      (fun _ _ => rfl) (fun _ => rfl) (fun _ _ => rfl) (fun m' p hn => ?_) hkill hatt
    have htorn := hdel.tidied (hn.tidied (some t)) ⟨owner, _, hn.words⟩
    have hliving : living m' = living (m.setHeap (m.family.heap.deleteSelf x).1) := by
      unfold living
      rw [(hn.tidied none).attached, (hn.tidied none).isDeleted]
    cases hp : p.addr with
    | none =>
      show Unwinds len S lost t (m', Unwind.loop p.addr)
      rw [hp]
      exact newest_unwinds htorn
    | some y =>
      show Unwinds len S lost t (m', Unwind.loop p.addr)
      rw [hp]
      exact ih _ (hk ▸ hliving ▸ hlt) htorn (hn.found.2 y hp) rfl

/-- `Stack::drop`. -/
theorem isNull_unwinds (h : Torn len S lost t m) :
    Unwinds len S lost t (m, .running .isNull) := by
  refine step_unwinds (fun _ => True) (fun _ _ _ => trivial) (fun m h _ => ?_) h trivial
  unfold Unwind.step
  simp only
  split
  · exact newest_unwinds h
  · obtain ⟨owner, tgt, hs⟩ := h.words
    refine look_ends (Unwind.step len false t) Unwind.holds (some t) .iter Unwind.cleaned
      (fun _ _ => rfl) (fun _ => rfl) (fun _ _ => rfl) (.inl rfl)
      (fun m' owner tgt res htidy hs' hanswer hlook => ?_) hs
    have htorn := h.tidied htidy ⟨owner, tgt, hs'⟩
    obtain ⟨d, hanswer⟩ := hanswer
    obtain ⟨o, rfl⟩ := hanswer.of_peek
    obtain ⟨hnewest, hlive⟩ := hlook
    show Unwinds len S lost t (m', Unwind.loop o)
    cases o with
    | none => exact newest_unwinds htorn
    | some x => exact delete_unwinds htorn ⟨(hs'.roots (some t) x hnewest).1, hlive x rfl⟩

/-- The `ExitGuard` of the primary storage, or of the one in an entry. -/
def guard : Option Addr → AllCall bits T → Unwind bits T
  | none => .primary
  | some x => .storage x

variable {loc : Option Addr} {s s' : Storage bits T}

/-- The storage is as it was when nothing is written to it. -/
theorem setStorageAt_self (hsome : ∀ x, loc = some x → (m.family.heap.value x).isSome = true) :
    setStorageAt m loc (storageAt m loc) = m := by
  cases loc with
  | none => rfl
  | some x =>
    obtain ⟨s, hs⟩ := Option.isSome_iff_exists.mp (hsome x rfl)
    have hvalue : Function.update m.family.heap.value x (some (m.storage x)) =
        m.family.heap.value := by
      rw [show m.storage x = s from congrArg (fun o => o.getD .new) hs, ← hs]
      exact Function.update_eq_self x m.family.heap.value
    show m.setHeap { m.family.heap with
      value := Function.update m.family.heap.value x (some (m.storage x)) } = m
    rw [hvalue]
    rfl

theorem value_setStorage (m : Mem bits T n) (x : Addr) (s : Storage bits T) :
    ((m.setStorage x s).family.heap.value x).isSome = true := by
  show (Function.update m.family.heap.value x (some s) x).isSome = true
  rw [Function.update_self]
  rfl

theorem setStorageAt_set (m : Mem bits T n) (loc : Option Addr) (s s' : Storage bits T) :
    setStorageAt (setStorageAt m loc s) loc s' = setStorageAt m loc s' := by
  cases loc with
  | none => rfl
  | some x =>
    show m.setHeap { m.family.heap with
      value := Function.update (Function.update m.family.heap.value x (some s)) x (some s') } = _
    rw [Function.update_idem]
    rfl

/-- The words when the `ExitGuard` of a storage `s` runs, which leaves `s'`. -/
structure Guarded (len : Nat) (S lost : Multiset T) (t : Fin n) (loc : Option Addr)
    (s s' : Storage bits T) (m : Mem bits T n) : Prop where
  storage : storageAt m loc = s
  value : ∀ x, loc = some x → (m.family.heap.value x).isSome = true
  torn : Torn len S lost t (setStorageAt m loc s')

/-- The `ExitGuard` of a storage. If the word has changed, it is loaded again. -/
theorem guard_unwinds {acc : List T} {metadata instances : BitVec bits}
    (h : Guarded len S lost t loc s
      (s.setMetadata (s.metadata &&& ~~~((instances <<< len) ||| instances))) m) :
    Unwinds len S lost t (m, .running (guard loc (.unlock acc metadata instances))) := by
  have hstep : ∀ (m : Mem bits T n) call, (guard loc call).step len false t m =
      (setStorageAt m loc (call.step len false (storageAt m loc)).1,
        Unwind.unlocked (guard loc) (call.step len false (storageAt m loc)).2) := by
    intro m call
    cases loc <;> rfl
  have henv : ∀ {u : Unwind bits T} (r r' : Mem bits T n × Outcome (Unwind bits T) Unit),
      r.2 = .running u ∧ Guarded len S lost t loc s
        (s.setMetadata (s.metadata &&& ~~~((instances <<< len) ||| instances))) r.1 →
      Mem.LetsGo Unwind.holds r r' → r'.2 = .running u ∧ Guarded len S lost t loc s
        (s.setMetadata (s.metadata &&& ~~~((instances <<< len) ||| instances))) r'.1 := by
    intro u r r' hp he
    obtain ⟨hout, hg⟩ := hp
    obtain ⟨x, hlt, hun, hword, -, rfl⟩ := he
    have htorn := hg.torn
    refine ⟨hout, ?_, hg.value, ?_⟩
    · rw [← hg.storage]
      cases loc <;> rfl
    · cases loc with
      | none => exact htorn.release hlt hun hword
      | some y => exact htorn.release hlt hun hword
  -- The word is as expected.
  have hlast : ∀ {m : Mem bits T n}, Guarded len S lost t loc s
        (s.setMetadata (s.metadata &&& ~~~((instances <<< len) ||| instances))) m →
      Unwinds len S lost t (m, .running (guard loc (.unlock acc s.metadata instances))) := by
    intro m hm
    refine Ends.of_step _ henv (fun r hp => ?_) ⟨rfl, hm⟩
    obtain ⟨m, out⟩ := r
    obtain ⟨hout, hm⟩ := hp
    cases hout
    refine ⟨_, rfl, ?_⟩
    rw [hstep, hm.storage]
    simp only [AllCall.step, Bool.false_eq_true, not_false_eq_true, and_self, if_true]
    exact isNull_unwinds hm.torn
  refine Ends.of_step _ henv (fun r hp => ?_) ⟨rfl, h⟩
  obtain ⟨m, out⟩ := r
  obtain ⟨hout, hm⟩ := hp
  cases hout
  refine ⟨_, rfl, ?_⟩
  rw [hstep, hm.storage]
  by_cases heq : s.metadata = metadata
  · simp only [AllCall.step, Bool.false_eq_true, not_false_eq_true, and_true]
    rw [if_pos heq, ← heq]
    exact isNull_unwinds hm.torn
  · simp only [AllCall.step, Bool.false_eq_true, not_false_eq_true, and_true]
    rw [if_neg heq]
    have hself := setStorageAt_self hm.value
    rw [hm.storage] at hself
    rw [hself]
    exact hlast hm

end unwinding

section result

variable {S lost : Multiset T} {m m' : Mem bits T n} {loc : Option Addr} {acc passed : List T}
  {metadata instances : BitVec bits} {index : Nat} {c : Call bits T} {u : Unwind bits T}

/-- A call of `pop_all`, in `pop_all` of the primary storage or of the one in an entry. -/
def callAt : Option Addr → AllCall bits T → Call bits T
  | none => .allPrimary
  | some x => .allStorage x

/-- The instance that a call of `pop_all` folds next is the last one in its storage: no slot
behind it is instantiated. -/
def FoldsLast (len : Nat) (m : Mem bits T n) : Call bits T → Prop
  | .allStorage x (.fold _ _ _ index) =>
    ∀ i < len, index < i → inst len (m.storage x).metadata i = false
  | .allPrimary (.fold _ _ _ index) =>
    ∀ i < len, index < i → inst len m.primary.metadata i = false
  | _ => True

/-- What a panic of the fold does. -/
theorem panic_eq (hp : c.panic m = some (m', passed, u)) :
    ∃ loc acc metadata instances index val,
      c = callAt loc (.fold acc metadata instances index) ∧
      (storageAt m loc).slots index = some val ∧
      m' = setStorageAt m loc ((storageAt m loc).setSlot index none) ∧ passed = acc ++ [val] ∧
      u = guard loc (.unlock passed metadata instances) := by
  -- A call of `pop_all` of a storage folds a slot.
  have hcall : ∀ {s s' : Storage bits T} {passed : List T} {call call' : AllCall bits T},
      call.panic s = some (s', passed, call') → ∃ acc metadata instances index val,
        call = .fold acc metadata instances index ∧ s.slots index = some val ∧
        s' = s.setSlot index none ∧ passed = acc ++ [val] ∧
        call' = .unlock passed metadata instances := by
    intro s s' passed call call' hp
    cases call with
    | fold acc metadata instances index =>
      obtain ⟨val, hval, heq⟩ := Option.map_eq_some_iff.mp hp
      cases heq
      exact ⟨acc, metadata, instances, index, val, rfl, hval, rfl, rfl, rfl⟩
    | load acc => cases hp
    | exchange acc metadata instances => cases hp
    | unlock acc metadata instances => cases hp
    | uninit acc => cases hp
  unfold Call.panic at hp
  split at hp
  · rename_i x call
    obtain ⟨⟨s', passed', call'⟩, hr, heq⟩ := Option.map_eq_some_iff.mp hp
    cases heq
    obtain ⟨acc, metadata, instances, index, val, rfl, hval, rfl, rfl, rfl⟩ := hcall hr
    exact ⟨some x, acc, metadata, instances, index, val, rfl, hval, rfl, rfl, rfl⟩
  · rename_i call
    obtain ⟨⟨s', passed', call'⟩, hr, heq⟩ := Option.map_eq_some_iff.mp hp
    cases heq
    obtain ⟨acc, metadata, instances, index, val, rfl, hval, rfl, rfl, rfl⟩ := hcall hr
    exact ⟨none, acc, metadata, instances, index, val, rfl, hval, rfl, rfl, rfl⟩
  · cases hp

/-- The storage that a call of `pop_all` empties. -/
theorem Folding.storage (h : Folding len S t w)
    (hpc : w.pc t = .call (callAt loc (.fold acc metadata instances index))) :
    (∀ x, loc = some x → x ∈ w.mem.family.attached) ∧
    StorageInv len (storageAt w.mem loc) (claimsOf loc ∘ w.pc) ∧
    claimsOf loc (w.pc t) = allClaims (.fold acc metadata instances index) ∧
    AllOk len (.fold acc metadata instances index : AllCall bits T) ∧
    AllLocked len (storageAt w.mem loc) (.fold acc metadata instances index) := by
  have hok := h.inv.calls t _ hpc
  have hl := h.locked _ hpc
  cases loc with
  | none => exact ⟨nofun, h.inv.primary, by rw [hpc]; rfl, hok, hl⟩
  | some x =>
    have hused : placeOf (w.pc t) = .uses x true := by
      rw [hpc]
      rfl
    have hatt := h.inv.used hused
    refine ⟨fun y hy => ?_, (h.inv.storages x hatt).2, ?_, hok.1, hl⟩
    · cases hy
      exact hatt
    · rw [hpc]
      exact claims_allStorage

/-- The instances in the storages after one storage has changed. -/
theorem stored_set (len : Nat) (s : Storage bits T)
    (hloc : ∀ x, loc = some x → x ∈ m.family.attached) :
    stored len (setStorageAt m loc s) + values len (storageAt m loc) =
      stored len m + values len s := by
  cases loc with
  | none =>
    show values len s + _ + values len m.primary = values len m.primary + _ + values len s
    ac_rfl
  | some x =>
    have hmem : x ∈ m.family.attached.toFinset := List.mem_toFinset.mpr (hloc x rfl)
    have hsum : ∑ y ∈ m.family.attached.toFinset, values len ((m.setStorage x s).storage y) +
        values len (m.storage x) =
        ∑ y ∈ m.family.attached.toFinset, values len (m.storage y) + values len s := by
      have hupdate := sum_update hmem m.storage (values len) s
      refine Eq.trans (congrArg (· + _) (Finset.sum_congr rfl fun y _ => ?_)) hupdate
      rw [storage_setStorage]
      by_cases hy : y = x
      · rw [hy, if_pos rfl, Function.update_self]
      · rw [if_neg hy, Function.update_of_ne hy]
    unfold stored
    rw [add_assoc, add_assoc]
    exact congrArg _ hsum

/-- The words when the fold has panicked and the `ExitGuard` has run. -/
theorem Folding.torn (hlen : ArrayLen bits len) (h : Folding len S t w)
    (hpc : w.pc t = .call (callAt loc (.fold acc metadata instances index))) :
    Torn len
      (stored len (setStorageAt w.mem loc ((storageAt w.mem loc).setSlot index none)))
      (values len (unlocked len (storageAt w.mem loc) instances index)) t
      (setStorageAt w.mem loc (unlocked len (storageAt w.mem loc) instances index)) ∧
    (values len (unlocked len (storageAt w.mem loc) instances index) = 0 ↔
      FoldsLast len w.mem (callAt loc (.fold acc metadata instances index))) := by
  obtain ⟨hloc, hs, hclaims, hok, hl⟩ := h.storage hpc
  have hknows := hs.knows t
  rw [Function.comp_apply, hclaims] at hknows
  obtain ⟨hhigh, hempty, hlast⟩ := unlocked_values hlen hknows hok hl fun i hi hx => by
    refine h.free hs hi ?_
    rw [hclaims]
    simp [allClaims, foldClaims, hx]
  refine ⟨?_, hlast.trans (by cases loc <;> exact Iff.rfl)⟩
  obtain ⟨hdrop, hcontents⟩ := droppable_of_empty hlen hhigh hempty
  -- The other storages are used by nobody.
  have hother : ∀ loc', loc' ≠ loc → ∀ {s : Storage bits T},
      StorageInv len s (claimsOf loc' ∘ w.pc) → Unowned len s ∧ High len s.metadata := by
    intro loc' hne s hs
    refine ⟨fun i hi => h.free hs hi ?_, hs.high⟩
    rw [hpc]
    cases loc with
    | none => exact congrFun (if_neg hne) i
    | some x => exact congrFun (if_neg hne) i
  obtain ⟨owner, tgt, hf⟩ := h.inv.family
  have hpopped : ∀ u, u ≠ t → w.mem.family.newest (some u) = none := fun u hu =>
    h.inv.popped u (free_of_not_call (h.others u hu)).popped
  have hstored : stored len (setStorageAt w.mem loc ((storageAt w.mem loc).setSlot index none)) =
      stored len (setStorageAt w.mem loc (unlocked len (storageAt w.mem loc) instances index)) := by
    have h₁ := stored_set len ((storageAt w.mem loc).setSlot index none) hloc
    have h₂ := stored_set len (unlocked len (storageAt w.mem loc) instances index) hloc
    exact add_right_cancel (h₁.trans h₂.symm)
  rw [hstored]
  cases loc with
  | none =>
    have hfree := fun x hx => hother (some x) (by simp) (h.inv.storages x hx).2
    refine ⟨⟨owner, tgt, hf.words⟩, hpopped, fun x hx => (hfree x hx).1.droppable hlen (hfree x hx).2,
      ?_⟩
    show contents len (unlocked len _ instances index) + _ + _ = values len _ + _
    rw [hcontents, zero_add, add_comm]
    refine congrArg _ (Finset.sum_congr rfl fun x hx => ?_)
    exact (hfree x (List.mem_toFinset.mp hx)).1.contents_eq
  | some x =>
    have hatt := hloc x rfl
    have hmem : x ∈ w.mem.family.attached.toFinset := List.mem_toFinset.mpr hatt
    generalize hs' : unlocked len (storageAt w.mem (some x)) instances index = s' at *
    have hself : (setStorageAt w.mem (some x) s').storage x = s' :=
      storage_setStorage.trans (if_pos rfl)
    have hrest : ∀ y, y ≠ x → (setStorageAt w.mem (some x) s').storage y = w.mem.storage y :=
      fun y hy => storage_setStorage.trans (if_neg hy)
    have hfree := fun y hy (hne : y ≠ x) =>
      hother (some y) (fun hc => hne (Option.some.inj hc)) (h.inv.storages y hy).2
    refine ⟨⟨owner, tgt, (hf.setValue hatt _).words⟩, hpopped, fun y hy => ?_, ?_⟩
    · by_cases hne : y = x
      · rw [hne, hself]
        exact hdrop
      · rw [hrest y hne]
        exact (hfree y hy hne).1.droppable hlen (hfree y hy hne).2
    · show contents len w.mem.primary +
        ∑ y ∈ w.mem.family.attached.toFinset, contents len ((setStorageAt w.mem _ s').storage y) + _ =
        values len w.mem.primary +
          ∑ y ∈ w.mem.family.attached.toFinset, values len ((setStorageAt w.mem _ s').storage y)
      rw [add_assoc, (hother none (by simp) h.inv.primary).1.contents_eq]
      rw [← Finset.sum_erase_add _ _ hmem, ← Finset.sum_erase_add _ _ hmem, hself, hcontents,
        add_zero]
      refine congrArg _ (congrArg (· + _) (Finset.sum_congr rfl fun y hy => ?_))
      have hne := Finset.ne_of_mem_erase hy
      rw [hrest y hne]
      exact (hfree y (List.mem_toFinset.mp (Finset.mem_of_mem_erase hy)) hne).1.contents_eq

/-- Where the instances of a bag are after the fold has panicked: `passed` are the ones that it
has been given, `reach` the entries whose storages are in the bag, and the storages in the other
entries drop the rest. -/
def Survives (len : Nat) (before : Multiset T) (passed : List T) (m : Mem bits T n) : Prop :=
  ∃ (reach : List Addr) (dropped : Addr → List T),
    Linked (Proofs.next m.family.heap) (m.family.newest none) reach ∧
    (∀ x ∈ m.family.attached, x ∉ reach → (m.storage x).drop len = some (dropped x)) ∧
    (passed : Multiset T) +
      (contents len m.primary + (reach.map fun x => contents len (m.storage x)).sum) +
      ∑ x ∈ m.family.attached.toFinset with x ∉ reach, (dropped x : Multiset T) = before

/-- The instances that are in no valid slot are lost. -/
theorem Torn.survives_iff (h : Torn len S lost t m) {before : Multiset T}
    (hbefore : S + passed = before) : Survives len before passed (dropNewest t m) ↔ lost = 0 := by
  obtain ⟨owner, tgt, hs⟩ := h.words
  obtain ⟨reach, hl, hnodup, hatt⟩ := hs.heap.linked fun y hy => (hs.roots none y hy).1
  have hword : (dropNewest t m).family.newest none = m.family.newest none :=
    Function.update_of_ne (Option.some_ne_none t).symm none m.family.newest
  -- The storages in the bag and the other ones.
  have hsplit : ∑ x ∈ m.family.attached.toFinset, contents len (m.storage x) =
      (reach.map fun x => contents len (m.storage x)).sum +
        ∑ x ∈ m.family.attached.toFinset with x ∉ reach, contents len (m.storage x) := by
    rw [← Finset.sum_filter_add_sum_filter_not _ (· ∈ reach), ← List.sum_toFinset _ hnodup]
    refine congrArg (· + _) (Finset.sum_congr (Finset.ext fun x => ?_) fun _ _ => rfl)
    rw [Finset.mem_filter, List.mem_toFinset, List.mem_toFinset]
    exact ⟨fun hx => hx.2, fun hx => ⟨hatt x hx, hx⟩⟩
  have htotal := h.total
  rw [hsplit] at htotal
  have heq : ∀ {D : Multiset T}, D =
      ∑ x ∈ m.family.attached.toFinset with x ∉ reach, contents len (m.storage x) →
      ((passed : Multiset T) +
        (contents len m.primary + (reach.map fun x => contents len (m.storage x)).sum) + D = before ↔
          lost = 0) := by
    intro D hD
    rw [hD, ← hbefore, ← htotal]
    constructor
    · intro hc
      refine left_eq_add.mp (hc.trans ?_)
      ac_rfl
    · intro hc
      rw [hc]
      abel
  constructor
  · rintro ⟨reach', dropped, hl', hdropped, htotal'⟩
    rw [hword] at hl'
    obtain rfl := hl'.unique hl
    refine (heq (Finset.sum_congr rfl fun x hx => ?_)).mp htotal'
    obtain ⟨hx, hout⟩ := Finset.mem_filter.mp hx
    have hx' := List.mem_toFinset.mp hx
    obtain ⟨l, hd, hc⟩ := h.storages x hx'
    have hd' : (m.storage x).drop len = some (dropped x) := hdropped x hx' hout
    rw [← Option.some.inj (hd.symm.trans hd')]
    exact hc
  · intro hlost
    choose! dropped hdropped using h.storages
    refine ⟨reach, dropped, hword ▸ hl, fun x hx _ => (hdropped x hx).1, (heq ?_).mpr hlost⟩
    refine Finset.sum_congr rfl fun x hx => (hdropped x ?_).2
    exact List.mem_toFinset.mp (Finset.mem_filter.mp hx).1

/-- `pop_all` of a bag in which no call is in progress, when the fold panics on an instance: the
unwinding ends, and each instance that the bag held has been passed to the fold, or is in the
bag, or is dropped by a storage that has been detached, if and only if the instance is the last
one in its storage. -/
theorem popAll_unwinds (hlen : ArrayLen bits len) {w₀ w₁ : World bits T n}
    (h : Run (World.step len) (fun _ _ => True) World.init w) (hrest : AtRest w)
    {reach : List Addr}
    (hl : Linked (Proofs.next w.mem.family.heap) (w.mem.family.newest none) reach)
    (hw : w.step len (.thread t (.invoke .popAll)) = some w₀)
    (hr : Run (World.step len) (Alone t) w₀ w₁) (hpc : w₁.pc t = .call c)
    (hp : c.panic w₁.mem = some (m, passed, u)) :
    Ends (Outcome.advance (Unwind.step len false t)) (Mem.LetsGo Unwind.holds)
      (fun s => ∃ m', s = (m', .done ()) ∧ (∀ v, m'.family.newest (some v) = none) ∧
        (Survives len (contents len w.mem.primary +
          (reach.map fun x => contents len (w.mem.storage x)).sum) passed m' ↔
            FoldsLast len w₁.mem c))
      (m, .running u) := by
  have hinv := inv_of_run hlen h
  have hfold : Folding len (stored len w.mem) t w₁ :=
    hr.invariant _ (folding_start hlen hinv hrest hw) fun _ _ _ hi ha hs => hi.step hlen ha hs
  -- What the bag held is in the storages, or has been folded.
  have hbefore : stored len w.mem = contents len w.mem.primary +
      (reach.map fun x => contents len (w.mem.storage x)).sum := by
    obtain ⟨reach', hr'⟩ := rest hinv fun v => free_of_not_call (hrest v)
    obtain rfl := hl.unique hr'.linked
    exact hr'.stored_eq hr'.nodup hr'.attached fun x hx hlive => (hr'.live x hx hlive).1
  rw [← hbefore]
  obtain ⟨loc, acc, metadata, instances, index, val, rfl, hval, rfl, rfl, rfl⟩ := panic_eq hp
  obtain ⟨htorn, hlast⟩ := hfold.torn hlen hpc
  obtain ⟨hloc, -, -, ⟨hindex, -⟩, -⟩ := hfold.storage hpc
  have hpassed : stored len (setStorageAt w₁.mem loc ((storageAt w₁.mem loc).setSlot index none)) +
      (acc ++ [val] : List T) = stored len w.mem := by
    have hkept : stored len w₁.mem + (acc : Multiset T) = stored len w.mem := by
      have hkept := hfold.kept _ hpc
      cases loc <;> exact hkept
    have hset := stored_set len ((storageAt w₁.mem loc).setSlot index none) hloc
    have hvalues := values_setSlot (s := storageAt w₁.mem loc) hindex none
    rw [hval, show held (none : Option T) = 0 from rfl, add_zero,
      show held (some val) = {val} from rfl] at hvalues
    rw [← hvalues, ← add_assoc, add_right_comm] at hset
    rw [← Multiset.coe_add, ← hkept, ← add_right_cancel hset]
    show _ + (_ + {val}) = _
    ac_rfl
  have hunwinds : Unwinds len
      (stored len (setStorageAt w₁.mem loc ((storageAt w₁.mem loc).setSlot index none)))
      (values len (unlocked len (storageAt w₁.mem loc) instances index)) t
      (setStorageAt w₁.mem loc ((storageAt w₁.mem loc).setSlot index none),
        .running (guard loc (.unlock (acc ++ [val]) metadata instances))) := by
    refine guard_unwinds ⟨storageAt_set _ _ _, fun x hx => ?_, ?_⟩
    · subst hx
      exact value_setStorage _ _ _
    · rw [setStorageAt_set]
      exact htorn
  refine hunwinds.imp ?_
  rintro s ⟨m', rfl, htorn'⟩
  refine ⟨_, rfl, fun v => ?_, (htorn'.survives_iff hpassed).trans hlast⟩
  by_cases hv : v = t
  · rw [hv]
    exact Function.update_self ..
  · exact (Function.update_of_ne (fun hc => hv (Option.some.inj hc)) none m'.family.newest).trans
      (htorn'.others v hv)

/-- For the concrete runs: only the thread `t` goes on. -/
def alone (t : Fin n) (_ : World bits T n) : Action T n → Bool
  | .thread u (.proceed _) => u == t
  | _ => false

theorem alone_of_test {a : Action T n} (h : alone t w a = true) : Alone t w a := by
  unfold alone at h
  split at h
  · rename_i u fails
    rw [beq_iff_eq] at h
    exact .inl ⟨fails, h ▸ rfl⟩
  · cases h

/-- What is known of a run up to a panic of the fold, for the concrete runs: the fold has been
given `passed`. -/
def panics [DecidableEq T] (len : Nat) (t : Fin n) (k : Nat) (passed : List T)
    (test : Mem bits T n → Unwind bits T → Bool) (w : World bits T n) : Bool :=
  (w.step len (.thread t (.invoke .popAll))).any fun w₀ =>
    (exec (World.step len) (alone t) w₀ (List.replicate k (.thread t (.proceed false)))).any
      fun w₁ => match w₁.pc t with
        | .call c => (c.panic w₁.mem).any fun r => decide (r.2.1 = passed) && test r.1 r.2.2
        | _ => false

theorem of_panics [DecidableEq T] {k : Nat} {test : Mem bits T n → Unwind bits T → Bool}
    (h : panics len t k passed test w = true) :
    ∃ w₀ w₁ c m u, w.step len (.thread t (.invoke .popAll)) = some w₀ ∧
      Run (World.step len) (Alone t) w₀ w₁ ∧ w₁.pc t = .call c ∧
      c.panic w₁.mem = some (m, passed, u) ∧ test m u = true := by
  obtain ⟨w₀, hw, h⟩ := (Option.any_eq_true _ _).mp h
  obtain ⟨w₁, hr, h⟩ := Run.of_exec_any h
  split at h
  · rename_i c hpc
    obtain ⟨⟨m, passed', u⟩, hp, h⟩ := (Option.any_eq_true _ _).mp h
    obtain ⟨heq, htest⟩ := Bool.and_eq_true_iff.mp h
    rw [← of_decide_eq_true heq]
    exact ⟨w₀, w₁, c, m, u, hw, hr.mono fun _ _ => alone_of_test, hpc, hp, htest⟩
  · cases h

/-- The fold panics on the instance of a storage that has been detached, and the primary storage
keeps its own. -/
theorem popAll_unwinds_kept : ∃ (w₀ w₁ : World 64 Nat 2) (c : Call 64 Nat) (m : Mem 64 Nat 2)
    (u : Unwind 64 Nat), Run (World.step 1) (Alone 0) w₀ w₁ ∧ w₁.pc 0 = .call c ∧
      c.panic w₁.mem = some (m, [7], u) ∧
      Ends (Outcome.advance (Unwind.step 1 false 0)) (Mem.LetsGo Unwind.holds)
        (fun s => ∃ m', s = (m', .done ()) ∧ Survives 1 {5, 7} [7] m') (m, .running u) := by
  have h : (exec (World.step 1) (fun _ _ => true) (World.init : World 64 Nat 2)
      (call 0 (.push 5) 4 ++ call 0 (.push 7) 5)).any (fun w =>
      allIdle w && decide (w.mem.family.newest none = some 0 ∧
        Proofs.next w.mem.family.heap 0 = none ∧ contents 1 w.mem.primary = {5} ∧
        contents 1 (w.mem.storage 0) = {7}) &&
      panics 1 0 11 [7] (fun _ _ => true) w) = true := by
    decide +kernel
  obtain ⟨w, hrun, h⟩ := Run.of_exec_any h
  rw [Bool.and_eq_true, Bool.and_eq_true, decide_eq_true_eq] at h
  obtain ⟨⟨hidle, hnewest, hnext, hprimary, hstorage⟩, h⟩ := h
  obtain ⟨w₀, w₁, c, m, u, hw, hr, hpc, hp, -⟩ := of_panics h
  have hlast : FoldsLast 1 w₁.mem c := by
    unfold FoldsLast
    split
    · intro i hi hlt
      omega
    · intro i hi hlt
      omega
    · trivial
  have hl : Linked (Proofs.next w.mem.family.heap) (w.mem.family.newest none) [0] :=
    ⟨hnewest, hnext⟩
  have hends := popAll_unwinds ⟨by decide, by decide, by decide⟩
    (hrun.mono fun _ _ _ => trivial) (atRest_of_allIdle hidle) hl hw hr hpc hp
  refine ⟨w₀, w₁, c, m, u, hr, hpc, hp, hends.imp ?_⟩
  rintro s ⟨m', rfl, -, hiff⟩
  have hsurvives := hiff.mpr hlast
  rw [hprimary, List.map_singleton, List.sum_singleton, hstorage] at hsurvives
  exact ⟨m', rfl, hsurvives⟩

/-- The unwinding is over, and the bag is empty. -/
def nothingLeft (s : Mem 64 Nat 1 × Outcome (Unwind 64 Nat) Unit) : Bool :=
  match s with
  | (m, .done _) => decide (m.family.newest none = none ∧ m.family.attached = [] ∧
      contents 2 m.primary = 0)
  | _ => false

/-- The fold panics on the first one of two instances in the primary storage: the other one is
lost. -/
theorem popAll_loses : ∃ (w w₀ w₁ : World 64 Nat 1) (c : Call 64 Nat) (m : Mem 64 Nat 1)
    (u : Unwind 64 Nat), Run (World.step 2) (fun _ _ => True) World.init w ∧ AtRest w ∧
      w.mem.family.newest none = none ∧ contents 2 w.mem.primary = {5, 6} ∧
      w.step 2 (.thread 0 (.invoke .popAll)) = some w₀ ∧
      Run (World.step 2) (Alone 0) w₀ w₁ ∧ w₁.pc 0 = .call c ∧
      c.panic w₁.mem = some (m, [5], u) ∧
      ¬Ends (Outcome.advance (Unwind.step 2 false 0)) (Mem.LetsGo Unwind.holds)
        (fun s => ∃ m', s = (m', .done ()) ∧ Survives 2 {5, 6} [5] m') (m, .running u) := by
  have h : (exec (World.step 2) (fun _ _ => true) (World.init : World 64 Nat 1)
      (call 0 (.push 5) 4 ++ call 0 (.push 6) 4)).any (fun w =>
      allIdle w && decide (w.mem.family.newest none = none ∧ contents 2 w.mem.primary = {5, 6}) &&
      panics 2 0 4 [5] (fun m u =>
        ((fun o => Option.bind o (Outcome.advance (Unwind.step 2 false 0)))^[3]
          (some (m, .running u))).any nothingLeft) w) = true := by
    decide +kernel
  obtain ⟨w, hrun, h⟩ := Run.of_exec_any h
  rw [Bool.and_eq_true, Bool.and_eq_true, decide_eq_true_eq] at h
  obtain ⟨⟨hidle, hnewest, hprimary⟩, h⟩ := h
  obtain ⟨w₀, w₁, c, m, u, hw, hr, hpc, hp, h⟩ := of_panics h
  refine ⟨w, w₀, w₁, c, m, u, hrun.mono fun _ _ _ => trivial, atRest_of_allIdle hidle, hnewest,
    hprimary, hw, hr, hpc, hp, fun hends => ?_⟩
  obtain ⟨s, hs, h⟩ := (Option.any_eq_true _ _).mp h
  unfold nothingLeft at h
  split at h
  · rename_i m' res
    obtain ⟨hnil, hatt, hempty⟩ := of_decide_eq_true h
    obtain ⟨m'', heq, reach, dropped, hl, -, hsum⟩ :=
      hends.reaches (fun s hs => by obtain ⟨m, rfl, -⟩ := hs; rfl) hs rfl
    obtain rfl : m' = m'' := congrArg Prod.fst heq
    rw [hnil] at hl
    obtain rfl := Linked.eq_nil hl
    rw [hatt, hempty, List.map_nil, List.sum_nil, List.toFinset_nil, Finset.filter_empty,
      Finset.sum_empty] at hsum
    exact absurd hsum (by decide)
  · cases h

end result

end Sdd.Proofs.Bag
