import Sdd.Bag
import Sdd.Proofs.Bag.Calls
import Sdd.Proofs.Stacks.Effects

/-!
# `Sdd.Proofs.Bag.Invariant`: the invariant of a bag

What the threads that use a bag rely on (`Inv`). The stacks are in order, and each thread can go
on from its place (`Stacks.FamilyInv`). The claims of the calls on the slots of each storage are
exclusive and match the slots (`StorageInv`). The storage in a deleted entry has no valid slot,
and never gets one again, unless a call of `pop_all` is about to take all that it has. The
storage in an undeleted entry has an instance, unless a call of `pop` is about to delete the
entry.

`After` is what one access of a call does: it keeps the invariant, and no value is lost or made:
a value is in a slot of a storage (`stored`), or a call has it at hand (`callHolds`).
-/

set_option autoImplicit false

namespace Sdd.Proofs.Bag

open Sdd.Bag (Mem Call Pc Op Res)
open Sdd.Stacks (Family)
open Sdd.Proofs.Stacks (Place PlaceOk FamilyInv Follows Goes Effect deleted)

variable {bits n len : Nat} {T : Type}

/-- What a call does with the stacks. -/
def callPlace : Call bits T → Place (Storage bits T)
  | .pushPeek _ c | .pushNew _ c | .popPeek c | .allPop _ c => .call c
  | .pushStorage _ x _ | .popStorage x _ | .popDelete x _ => .uses x false
  | .allStorage x _ => .uses x true
  | .pushPrimary _ _ _ | .popPrimary _ | .allSwap | .allPrimary _ => .none

def placeOf : Pc bits T → Place (Storage bits T)
  | .idle => .none
  | .call c => callPlace c
  | .drop c => .drop c

/-- The claims of a call on the slots of a storage: the primary one, or the one in an entry. -/
def callClaims (loc : Option Addr) : Call bits T → Claims T
  | .pushPrimary _ val c => if loc = none then pushClaims val c else unclaimed
  | .pushStorage val x c => if loc = some x then pushClaims val c else unclaimed
  | .popStorage x c => if loc = some x then popClaims c else unclaimed
  | .popPrimary c => if loc = none then popClaims c else unclaimed
  | .allStorage x c => if loc = some x then allClaims c else unclaimed
  | .allPrimary c => if loc = none then allClaims c else unclaimed
  | .pushPeek _ _ | .pushNew _ _ | .popPeek _ | .popDelete _ _ | .allSwap | .allPop _ _ => unclaimed

def claimsOf (loc : Option Addr) : Pc bits T → Claims T
  | .call c => callClaims loc c
  | .idle | .drop _ => unclaimed

/-- The values that a call has at hand. -/
def callHolds : Call bits T → Multiset T
  | .pushPrimary _ _ c | .pushStorage _ _ c => pushHolds c
  | .pushPeek val _ | .pushNew val _ => {val}
  | .popStorage _ c | .popPrimary c => popHolds c
  | .popDelete _ val => held val
  | .allPop acc _ => acc
  | .allStorage _ c | .allPrimary c => allHolds c
  | .popPeek _ | .allSwap => 0

/-- The values that a call returns, or has passed to `fold`. -/
def resHolds : Res T → Multiset T
  | .pushed => 0
  | .rejected val => {val}
  | .popped val => held val
  | .folded vals => vals

/-- What a call knows. -/
def CallOk (len : Nat) (m : Mem bits T n) : Call bits T → Prop
  | .pushPrimary _ val c | .pushStorage val _ c => PushOk len val c
  | .popStorage _ c | .popPrimary c => PopOk len c
  | .allStorage x c => AllOk len c ∧ m.family.heap.isDeleted x = true
  | .allPrimary c => AllOk len c
  | .pushPeek _ c | .popPeek c => c.op = .peek
  | .pushNew val c => c.op = .push (.withVal len val)
  | .allPop _ c => c.op = .pop
  | .popDelete x _ => Dead len (m.storage x)
  | .allSwap => True

/-- The entry whose storage a call of `pop_all` is about to empty. -/
def callTaking : Call bits T → Option Addr
  | .allPop _ c => deleted c
  | .allStorage x c => if allTaking c then some x else none
  | _ => none

def takingOf : Pc bits T → Option Addr
  | .call c => callTaking c
  | .idle | .drop _ => none

/-- The entry that a call of `pop` is about to delete. -/
def callDeleting : Call bits T → Option Addr
  | .popDelete x _ => some x
  | _ => none

def deletingOf : Pc bits T → Option Addr
  | .call c => callDeleting c
  | .idle | .drop _ => none

/-- The thread uses the stack that `pop_all` has moved the entries to. -/
def usesPopped : Pc bits T → Bool
  | .call (.allPop _ _) | .call (.allStorage _ _) => true
  | _ => false

/-- Where a thread stands after an access. -/
def next : Outcome (Call bits T) (Res T) → Pc bits T
  | .running c => .call c
  | .done _ => .idle

structure Inv (len : Nat) (m : Mem bits T n) (pc : Fin n → Pc bits T) : Prop where
  family : ∃ owner tgt, FamilyInv m.family owner tgt (placeOf ∘ pc)
  primary : StorageInv len m.primary (claimsOf none ∘ pc)
  storages : ∀ x ∈ m.family.attached, (m.family.heap.value x).isSome = true ∧
    StorageInv len (m.storage x) (claimsOf (some x) ∘ pc)
  calls : ∀ t c, pc t = .call c → CallOk len m c
  dead : ∀ x ∈ m.family.attached, m.family.heap.isDeleted x = true →
    Dead len (m.storage x) ∨ ∃ t, takingOf (pc t) = some x
  live : ∀ x ∈ m.family.attached, m.family.heap.isDeleted x = false →
    Instantiated len (m.storage x) ∨ ∃ t, deletingOf (pc t) = some x
  popped : ∀ t, usesPopped (pc t) = false → m.family.newest (some t) = none

/-- The result is one of the operation. -/
def Answers : Op T → Res T → Prop
  | .push _, .pushed | .tryPush _, .pushed | .pop, .popped _ | .popAll, .folded _ => True
  | .tryPush val, .rejected val' => val' = val
  | _, _ => False

/-- The values in the storages. -/
def stored (len : Nat) (m : Mem bits T n) : Multiset T :=
  values len m.primary + ∑ x ∈ m.family.attached.toFinset, values len (m.storage x)

/-- One access of the call `c` of the thread `t`. -/
structure After (len : Nat) (m : Mem bits T n) (pc : Fin n → Pc bits T) (t : Fin n)
    (c : Call bits T) (r : Mem bits T n × Outcome (Call bits T) (Res T)) : Prop where
  inv : Inv len r.1 (Function.update pc t (next r.2))
  stored : stored len r.1 + outcome callHolds resHolds r.2 = stored len m + callHolds c
  op : outcome (fun c' => c'.op = c.op) (Answers c.op) r.2

variable {m m' : Mem bits T n} {pc : Fin n → Pc bits T} {t : Fin n} {p : Pc bits T}
  {c : Call bits T}

/-- What a call knows of an entry that it uses remains true. -/
structure Keeps (len : Nat) (m m' : Mem bits T n) : Prop where
  dead : ∀ x ∈ m.family.attached, Dead len (m.storage x) → Dead len (m'.storage x)
  deleted : ∀ x ∈ m.family.attached, m.family.heap.isDeleted x = true →
    m'.family.heap.isDeleted x = true

theorem CallOk.keeps (hc : CallOk len m c) (hk : Keeps len m m')
    (hused : ∀ x b, callPlace c = .uses x b → x ∈ m.family.attached) : CallOk len m' c := by
  cases c with
  | popDelete x val => exact hk.dead x (hused x false rfl) hc
  | allStorage x c => exact ⟨hc.1, hk.deleted x (hused x true rfl) hc.2⟩
  | _ => exact hc

theorem storage_setStorage {x y : Addr} {s' : Storage bits T} :
    (m.setStorage x s').storage y = if y = x then s' else m.storage y := by
  show (Function.update m.family.heap.value x (some s') y).getD .new = _
  by_cases hy : y = x
  · rw [hy, Function.update_self, if_pos rfl]
    rfl
  · rw [Function.update_of_ne hy, if_neg hy]
    rfl

/-- The storages in the attached entries are the same. -/
theorem storage_congr {x : Addr} (hx : m'.family.heap.value x = m.family.heap.value x) :
    m'.storage x = m.storage x :=
  congrArg (fun o => o.getD .new) hx

/-- A new storage with one instance. -/
theorem withVal_inv (h : ArrayLen bits len) (val : T) {P : Type} :
    StorageInv len (Storage.withVal len val : Storage bits T) (fun _ : P => unclaimed) ∧
      Instantiated len (Storage.withVal len val : Storage bits T) := by
  have hbit : ∀ i, (BitVec.ofNat bits 1 <<< len).getLsbD i = decide (i = len) :=
    fun _ => getLsbD_one_shiftLeft h.lt_bits
  have hinst : ∀ i, inst len (BitVec.ofNat bits 1 <<< len) i = decide (i = 0) := by
    intro i
    unfold inst
    rw [hbit]
    simp
  refine ⟨storageInv_unclaimed (fun i hi => ⟨?_, ?_⟩) fun j hj => ?_, 0, h.pos, ?_⟩
  · exact (hbit i).trans (decide_eq_false (Nat.ne_of_lt hi))
  · show (if i = 0 then some val else none).isSome = inst len (BitVec.ofNat bits 1 <<< len) i
    rw [hinst]
    split
    · rename_i h0
      simp [h0]
    · rename_i h0
      simp [h0]
  · have := h.pos
    exact (hbit j).trans (decide_eq_false (by omega))
  · exact (hinst 0).trans rfl

namespace Inv

/-- The entry that a thread uses is attached. -/
theorem used (h : Inv len m pc) {x : Addr} {b : Bool} (hx : placeOf (pc t) = .uses x b) :
    x ∈ m.family.attached := by
  obtain ⟨owner, tgt, hf⟩ := h.family
  have hok := hf.ok t
  rw [Function.comp_apply, hx] at hok
  exact hok

/-- The thread `t` goes on. -/
theorem moves (h : Inv len m pc) (hk : Keeps len m m')
    (hfam : ∃ owner tgt,
      FamilyInv m'.family owner tgt (Function.update (placeOf ∘ pc) t (placeOf p)))
    (hprim : StorageInv len m'.primary
      (Function.update (claimsOf none ∘ pc) t (claimsOf none p)))
    (hstor : ∀ x ∈ m'.family.attached, (m'.family.heap.value x).isSome = true ∧
      StorageInv len (m'.storage x)
        (Function.update (claimsOf (some x) ∘ pc) t (claimsOf (some x) p)))
    (hok : ∀ c, p = .call c → CallOk len m' c)
    (hdead : ∀ x ∈ m'.family.attached, m'.family.heap.isDeleted x = true →
      Dead len (m'.storage x) ∨ takingOf p = some x ∨
        x ∈ m.family.attached ∧ m.family.heap.isDeleted x = true ∧ takingOf (pc t) ≠ some x)
    (hlive : ∀ x ∈ m'.family.attached, m'.family.heap.isDeleted x = false →
      Instantiated len (m'.storage x) ∨ deletingOf p = some x ∨
        x ∈ m.family.attached ∧ deletingOf (pc t) ≠ some x ∧
          (Instantiated len (m.storage x) → Instantiated len (m'.storage x)))
    (hnewest : ∀ u, u ≠ t → m'.family.newest (some u) = m.family.newest (some u))
    (hpopped : usesPopped p = false → m'.family.newest (some t) = none) :
    Inv len m' (Function.update pc t p) where
  family := by
    rw [Function.comp_update]
    exact hfam
  primary := by
    rw [Function.comp_update]
    exact hprim
  storages x hx := by
    rw [Function.comp_update]
    exact hstor x hx
  calls u c hu := by
    by_cases hut : u = t
    · rw [hut, Function.update_self] at hu
      exact hok c hu
    · rw [Function.update_of_ne hut] at hu
      refine (h.calls u c hu).keeps hk fun x b hx => ?_
      have hplace : placeOf (pc u) = .uses x b := by
        rw [hu]
        exact hx
      exact h.used hplace
  dead x hx hxd := by
    rcases hdead x hx hxd with hd | hp | ⟨hatt, hold, hne⟩
    · exact .inl hd
    · exact .inr ⟨t, by rw [Function.update_self]; exact hp⟩
    · rcases h.dead x hatt hold with hd | ⟨u, hu⟩
      · exact .inl (hk.dead x hatt hd)
      · have hut : u ≠ t := fun hc => hne (hc ▸ hu)
        exact .inr ⟨u, by rw [Function.update_of_ne hut]; exact hu⟩
  live x hx hxl := by
    rcases hlive x hx hxl with hi | hp | ⟨hatt, hne, hi⟩
    · exact .inl hi
    · exact .inr ⟨t, by rw [Function.update_self]; exact hp⟩
    · have hold : m.family.heap.isDeleted x = false := by
        by_contra hd
        rw [hk.deleted x hatt ((Bool.not_eq_false _).mp hd)] at hxl
        cases hxl
      rcases h.live x hatt hold with hd | ⟨u, hu⟩
      · exact .inl (hi hd)
      · have hut : u ≠ t := fun hc => hne (hc ▸ hu)
        exact .inr ⟨u, by rw [Function.update_of_ne hut]; exact hu⟩
  popped u hu := by
    by_cases hut : u = t
    · rw [hut, Function.update_self] at hu
      rw [hut]
      exact hpopped hu
    · rw [Function.update_of_ne hut] at hu
      rw [hnewest u hut]
      exact h.popped u hu

/-- An access to the primary storage. -/
theorem primary_step (h : Inv len m pc) {s' : Storage bits T}
    (hs : Moves len m.primary s' (claimsOf none (pc t)) (claimsOf none p))
    (hx : ∀ x, claimsOf (some x) p = claimsOf (some x) (pc t))
    (hplace : Follows (placeOf (pc t)) (placeOf p))
    (hok : ∀ c, p = .call c → CallOk len (m.setPrimary s') c)
    (htaking : takingOf (pc t) = none) (hdeleting : deletingOf (pc t) = none)
    (hpopped : usesPopped p = usesPopped (pc t)) :
    Inv len (m.setPrimary s') (Function.update pc t p) := by
  obtain ⟨owner, tgt, hf⟩ := h.family
  refine h.moves ⟨fun _ _ hd => hd, fun _ _ hd => hd⟩ ⟨owner, tgt, hf.follows hplace⟩
    (h.primary.move hs) (fun x hatt => ?_) hok (fun x hatt hd => ?_) (fun x hatt hl => ?_)
    (fun _ _ => rfl) fun hp => h.popped t (hpopped ▸ hp)
  · exact ⟨(h.storages x hatt).1, (h.storages x hatt).2.same (hx x)⟩
  · exact .inr (.inr ⟨hatt, hd, by rw [htaking]; nofun⟩)
  · exact .inr (.inr ⟨hatt, by rw [hdeleting]; nofun, fun hi => hi⟩)

/-- An access to the storage in the entry `x`. -/
theorem storage_step (h : Inv len m pc) {x : Addr} (hatt : x ∈ m.family.attached)
    {s' : Storage bits T}
    (hs : Moves len (m.storage x) s' (claimsOf (some x) (pc t)) (claimsOf (some x) p))
    (hloc : ∀ loc, loc ≠ some x → claimsOf loc p = claimsOf loc (pc t))
    (hplace : Follows (placeOf (pc t)) (placeOf p))
    (hok : ∀ c, p = .call c → CallOk len (m.setStorage x s') c)
    (hdead : Dead len (m.storage x) → Dead len s')
    (htaking : ∀ y, takingOf (pc t) = some y → y = x ∧ (Dead len s' ∨ takingOf p = some x))
    (hlive : m.family.heap.isDeleted x = true ∨ deletingOf p = some x ∨
      (Instantiated len (m.storage x) → Instantiated len s'))
    (hdeleting : deletingOf (pc t) = none) (hpopped : usesPopped p = usesPopped (pc t)) :
    Inv len (m.setStorage x s') (Function.update pc t p) := by
  obtain ⟨owner, tgt, hf⟩ := h.family
  have hset : ∀ y, (m.setStorage x s').storage y = if y = x then s' else m.storage y :=
    fun _ => storage_setStorage
  refine h.moves ⟨fun y _ hd => ?_, fun _ _ hd => hd⟩
    ⟨owner, tgt, (hf.setValue hatt (some s')).follows hplace⟩
    (h.primary.same (hloc none nofun)) (fun y hy => ?_) hok (fun y hy hd => ?_)
    (fun y hy hl => ?_) (fun _ _ => rfl) fun hp => h.popped t (hpopped ▸ hp)
  · rw [hset]
    split
    · rename_i heq
      exact hdead (heq ▸ hd)
    · exact hd
  · rw [hset]
    show (Function.update m.family.heap.value x (some s') y).isSome = true ∧ _
    by_cases heq : y = x
    · rw [heq, Function.update_self, if_pos rfl]
      exact ⟨rfl, (h.storages x hatt).2.move hs⟩
    · rw [Function.update_of_ne heq, if_neg heq]
      refine ⟨(h.storages y hy).1, (h.storages y hy).2.same (hloc _ fun hc => heq ?_)⟩
      exact Option.some.inj hc
  · rw [hset]
    by_cases ht : takingOf (pc t) = some y
    · obtain ⟨rfl, hd' | hp⟩ := htaking y ht
      · rw [if_pos rfl]
        exact .inl hd'
      · exact .inr (.inl hp)
    · exact .inr (.inr ⟨hy, hd, ht⟩)
  · have hnone : deletingOf (pc t) ≠ some y := by rw [hdeleting]; nofun
    rw [hset]
    by_cases heq : y = x
    · rw [heq, if_pos rfl]
      rw [heq] at hy hl hnone
      rcases hlive with hd | hp | hi
      · have hd' : (m.setStorage x s').family.heap.isDeleted x = true := hd
        rw [hd'] at hl
        cases hl
      · exact .inr (.inl hp)
      · exact .inr (.inr ⟨hy, hnone, hi⟩)
    · rw [if_neg heq]
      exact .inr (.inr ⟨hy, hnone, fun hi => hi⟩)

/-- An access of a call on the stack `i`. -/
theorem stack_step (h : Inv len m pc) (hlen : ArrayLen bits len) {i : Option (Fin n)}
    (hi : ∀ u, i = some u → u = t) {c : Stack.Call (Storage bits T)}
    (hc : placeOf (pc t) = .call c)
    (hclaims : ∀ loc, claimsOf loc (pc t) = unclaimed ∧ claimsOf loc p = unclaimed)
    (hplace : Goes (placeOf p) ((m.family.mem i).step c).2)
    (hok : ∀ c', p = .call c' →
      CallOk len (m.setFamily (m.family.setMem i ((m.family.mem i).step c).1)) c')
    (hpush : ∀ v cond, c.op = .pushIf v cond → ∃ val, v = .withVal len val)
    (htaking : ∀ y, takingOf (pc t) = some y → takingOf p = some y)
    (htakes : ∀ c' y, ((m.family.mem i).step c).2 = .running c' → deleted c' = some y →
      takingOf p = some y)
    (hdeleting : deletingOf (pc t) = none)
    (hpopped : usesPopped p = false →
      Function.update m.family.newest i ((m.family.mem i).step c).1.newest (some t) = none) :
    Inv len (m.setFamily (m.family.setMem i ((m.family.mem i).step c).1))
      (Function.update pc t p) := by
  obtain ⟨owner, tgt, hf⟩ := h.family
  have hafter := hf.callAfter (p := placeOf p) hc i hplace
  have hvalue := hafter.value
  have hentry := hafter.entry
  have heffect := hafter.effect
  have hfam := hafter.inv
  have hnodead := hf.words.unattached
  -- The entries that were attached before.
  have hold : ∀ x ∈ m.family.attached,
      (m.setFamily (m.family.setMem i ((m.family.mem i).step c).1)).storage x = m.storage x :=
    fun x hx => storage_congr (hvalue x hx)
  have hnewest : ∀ u, u ≠ t →
      Function.update m.family.newest i ((m.family.mem i).step c).1.newest (some u)
        = m.family.newest (some u) :=
    fun u hu => Function.update_of_ne (fun hc => hu (hi u hc.symm)) ..
  have hstor : ∀ x ∈ m.family.attached,
      (((m.family.mem i).step c).1.heap.value x).isSome = true ∧
      StorageInv len (m.storage x)
        (Function.update (claimsOf (some x) ∘ pc) t (claimsOf (some x) p)) := by
    intro x hx
    rw [hvalue x hx]
    refine ⟨(h.storages x hx).1, (h.storages x hx).2.same ?_⟩
    exact (hclaims _).2.trans (hclaims _).1.symm
  -- Undeleted entries that were attached before.
  have hlive : ∀ x ∈ m.family.attached, Instantiated len (m.storage x) ∨
      deletingOf p = some x ∨ x ∈ m.family.attached ∧ deletingOf (pc t) ≠ some x ∧
        (Instantiated len (m.storage x) → Instantiated len (m.storage x)) := by
    intro x hx
    exact .inr (.inr ⟨hx, by rw [hdeleting]; nofun, fun hi => hi⟩)
  -- Entries that were deleted before.
  have hdead : ∀ x ∈ m.family.attached, m.family.heap.isDeleted x = true →
      Dead len (m.storage x) ∨ takingOf p = some x ∨ x ∈ m.family.attached ∧
        m.family.heap.isDeleted x = true ∧ takingOf (pc t) ≠ some x := by
    intro x hx hd
    by_cases ht : takingOf (pc t) = some x
    · exact .inr (.inl (htaking x ht))
    · exact .inr (.inr ⟨hx, hd, ht⟩)
  generalize hr : (m.family.mem i).step c = r at *
  cases heffect with
  | attach q e hq =>
    obtain ⟨hnew, hval⟩ := hentry q e hq
    have hop : c.op = .pushIf q.val q.cond := by
      rw [hq]
      rfl
    obtain ⟨val, hq'⟩ := hpush _ _ hop
    have hstored : m.family.heap.value e = some (.withVal len val) := hval.trans (congrArg some hq')
    -- Nobody uses the new entry.
    have hclaim : ∀ u, claimsOf (some e) (pc u) = unclaimed := by
      have hnone : ∀ u x b, placeOf (pc u) = .uses x b → ¬some e = some x := by
        intro u x b hx hc
        exact hnew (Option.some.inj hc ▸ h.used hx)
      intro u
      cases hu : pc u with
      | idle => rfl
      | drop c => rfl
      | call c =>
        cases c with
        | pushStorage v x c => exact if_neg (hnone u x false (by rw [hu]; rfl))
        | popStorage x c => exact if_neg (hnone u x false (by rw [hu]; rfl))
        | allStorage x c => exact if_neg (hnone u x true (by rw [hu]; rfl))
        | _ => rfl
    refine h.moves ⟨fun x hx hd => ?_, fun _ _ hd => hd⟩ hfam
      (h.primary.same ((hclaims _).2.trans (hclaims _).1.symm)) (fun x hx => ?_) hok
      (fun x hx hd => ?_) (fun x hx hl => ?_) hnewest hpopped
    · rw [hold x hx]
      exact hd
    · rcases List.mem_cons.mp hx with rfl | hx
      · change (m.family.heap.value x).isSome = true ∧
          StorageInv len ((m.family.heap.value x).getD .new) _
        rw [hstored]
        refine ⟨rfl, ?_⟩
        have hfun : Function.update (claimsOf (some x) ∘ pc) t (claimsOf (some x) p)
            = fun _ => (unclaimed : Claims T) := by
          funext u
          by_cases hu : u = t
          · rw [hu, Function.update_self]
            exact (hclaims _).2
          · rw [Function.update_of_ne hu]
            exact hclaim u
        rw [hfun]
        exact (withVal_inv hlen val).1
      · rw [hold x hx]
        exact hstor x hx
    · rcases List.mem_cons.mp hx with rfl | hx
      · have hlive' := hnodead x hnew
        rw [show m.family.heap.isDeleted x = true from hd] at hlive'
        cases hlive'
      · rw [hold x hx]
        exact hdead x hx hd
    · rcases List.mem_cons.mp hx with rfl | hx
      · refine .inl ?_
        change Instantiated len ((m.family.heap.value x).getD .new)
        rw [hstored]
        exact (withVal_inv (P := Unit) hlen val).2
      · rw [hold x hx]
        exact hlive x hx
  | delete cond z hz hzl =>
    have hdel : (m.family.heap.deleteSelf z).1.isDeleted
        = Function.update m.family.heap.isDeleted z true := isDeleted_deleteSelf hzl
    refine h.moves ⟨fun x hx hd => ?_, fun x _ hd => ?_⟩ hfam
      (h.primary.same ((hclaims _).2.trans (hclaims _).1.symm)) (fun x hx => ?_) hok
      (fun x hx hd => ?_) (fun x hx hl => ?_) hnewest hpopped
    · rw [hold x hx]
      exact hd
    · show (m.family.heap.deleteSelf z).1.isDeleted x = true
      rw [hdel]
      by_cases hxz : x = z
      · rw [hxz, Function.update_self]
      · rw [Function.update_of_ne hxz]
        exact hd
    · rw [hold x hx]
      exact hstor x hx
    · rw [hold x hx]
      change (m.family.heap.deleteSelf z).1.isDeleted x = true at hd
      rw [hdel] at hd
      by_cases hxz : x = z
      · exact .inr (.inl (htakes _ x rfl (by rw [hxz]; rfl)))
      · rw [Function.update_of_ne hxz] at hd
        exact hdead x hx hd
    · rw [hold x hx]
      exact hlive x hx
  | quiet hq =>
    have hatt : r.1.attached = m.family.attached := hq.attached
    have hdel : r.1.heap.isDeleted = m.family.heap.isDeleted := hq.isDeleted
    refine h.moves ⟨fun x hx hd => ?_, fun x _ hd => (congrFun hdel x).trans hd⟩ hfam
      (h.primary.same ((hclaims _).2.trans (hclaims _).1.symm)) (fun x hx => ?_) hok
      (fun x hx hd => ?_) (fun x hx hl => ?_) hnewest hpopped
    · rw [hold x hx]
      exact hd
    · change x ∈ r.1.attached at hx
      rw [hatt] at hx
      rw [hold x hx]
      exact hstor x hx
    · change x ∈ r.1.attached at hx
      rw [hatt] at hx
      rw [hold x hx]
      exact hdead x hx ((congrFun hdel x).symm.trans hd)
    · change x ∈ r.1.attached at hx
      rw [hatt] at hx
      rw [hold x hx]
      exact hlive x hx

/-- A step of a thread without claims that does not change the storages or what is deleted. -/
theorem frame_step (h : Inv len m pc) {f : Family (Storage bits T) (Option (Fin n))}
    (hfam : ∃ owner tgt, FamilyInv f owner tgt (Function.update (placeOf ∘ pc) t (placeOf p)))
    (hatt : f.attached = m.family.attached) (hvalue : f.heap.value = m.family.heap.value)
    (hdel : f.heap.isDeleted = m.family.heap.isDeleted)
    (hclaims : ∀ loc, claimsOf loc (pc t) = unclaimed ∧ claimsOf loc p = unclaimed)
    (hok : ∀ c, p = .call c → CallOk len (m.setFamily f) c)
    (htaking : takingOf (pc t) = none) (hdeleting : deletingOf (pc t) = none)
    (hnewest : ∀ u, u ≠ t → f.newest (some u) = m.family.newest (some u))
    (hpopped : usesPopped p = false → f.newest (some t) = none) :
    Inv len (m.setFamily f) (Function.update pc t p) := by
  have hstorage : ∀ x, (m.setFamily f).storage x = m.storage x :=
    fun x => storage_congr (congrFun hvalue x)
  have hsame : ∀ loc, claimsOf loc p = claimsOf loc (pc t) :=
    fun loc => (hclaims loc).2.trans (hclaims loc).1.symm
  refine h.moves ⟨fun x _ hd => ?_, fun x _ hd => (congrFun hdel x).trans hd⟩ hfam
    (h.primary.same (hsame _)) (fun x hx => ?_) hok (fun x hx hd => ?_) (fun x hx hl => ?_)
    hnewest hpopped
  · rw [hstorage]
    exact hd
  · change x ∈ f.attached at hx
    rw [hatt] at hx
    rw [hstorage]
    show (f.heap.value x).isSome = true ∧ _
    rw [hvalue]
    exact ⟨(h.storages x hx).1, (h.storages x hx).2.same (hsame _)⟩
  · change x ∈ f.attached at hx
    rw [hatt] at hx
    exact .inr (.inr ⟨hx, (congrFun hdel x).symm.trans hd, by rw [htaking]; nofun⟩)
  · change x ∈ f.attached at hx
    rw [hatt] at hx
    rw [hstorage]
    exact .inr (.inr ⟨hx, by rw [hdeleting]; nofun, fun hi => hi⟩)

/-- `pop` deletes the entry `x`, whose storage has no valid slot. -/
theorem delete_step (h : Inv len m pc) {x : Addr} {val : Option T}
    (hpc : pc t = .call (.popDelete x val)) (hplace : placeOf p = .none)
    (hclaims : ∀ loc, claimsOf loc p = unclaimed)
    (hok : ∀ c, p = .call c → CallOk len (m.setHeap (m.family.heap.deleteSelf x).1) c) :
    Inv len (m.setHeap (m.family.heap.deleteSelf x).1) (Function.update pc t p) := by
  obtain ⟨owner, tgt, hf⟩ := h.family
  have hatt : x ∈ m.family.attached := by
    have hused : placeOf (pc t) = .uses x false := by
      rw [hpc]
      rfl
    exact h.used hused
  have hdead : Dead len (m.storage x) := h.calls t _ hpc
  have hold : ∀ loc, claimsOf loc (pc t) = unclaimed := by
    intro loc
    rw [hpc]
    rfl
  have hsame : ∀ loc, claimsOf loc p = claimsOf loc (pc t) :=
    fun loc => (hclaims loc).trans (hold loc).symm
  -- What is deleted afterwards.
  have hdel : ∀ y, (m.family.heap.deleteSelf x).1.isDeleted y = true ↔
      y = x ∨ m.family.heap.isDeleted y = true := by
    intro y
    cases hlive : m.family.heap.isDeleted x with
    | true =>
      rw [deleteSelf_dead hlive]
      refine ⟨.inr, ?_⟩
      rintro (rfl | hy)
      · exact hlive
      · exact hy
    | false =>
      rw [isDeleted_deleteSelf hlive]
      by_cases hyx : y = x
      · simp [hyx]
      · simp [hyx]
  have hvalue : (m.family.heap.deleteSelf x).1.value = m.family.heap.value := by
    unfold Heap.deleteSelf
    split <;> rfl
  have hstorage : ∀ y, (m.setHeap (m.family.heap.deleteSelf x).1).storage y = m.storage y :=
    fun y => storage_congr (congrFun hvalue y)
  obtain ⟨tgt', hf'⟩ := hf.delete (t := t) hatt
  refine h.moves ⟨fun y _ hd => ?_, fun y _ hd => (hdel y).mpr (.inr hd)⟩
    ⟨owner, tgt', by rw [hplace]; exact hf'⟩ (h.primary.same (hsame _)) (fun y hy => ?_) hok
    (fun y hy hd => ?_) (fun y hy hl => ?_) (fun _ _ => rfl) fun _ => h.popped t (by rw [hpc]; rfl)
  · rw [hstorage]
    exact hd
  · rw [hstorage]
    show ((m.family.heap.deleteSelf x).1.value y).isSome = true ∧ _
    rw [hvalue]
    exact ⟨(h.storages y hy).1, (h.storages y hy).2.same (hsame _)⟩
  · rw [hstorage]
    rcases (hdel y).mp hd with rfl | hd
    · exact .inl hdead
    · exact .inr (.inr ⟨hy, hd, by rw [hpc]; nofun⟩)
  · rw [hstorage]
    refine .inr (.inr ⟨hy, fun hc => ?_, fun hi => hi⟩)
    rw [hpc] at hc
    have hdx := (hdel y).mpr (.inl (Option.some.inj hc).symm)
    rw [show (m.family.heap.deleteSelf x).1.isDeleted y = false from hl] at hdx
    cases hdx

/-- The release of an entry. -/
theorem release (h : Inv len m pc) {x : Addr} (hlt : x < m.family.heap.nextAddr)
    (hun : m.family.heap.unlinked x = true) (hword : ∀ i, m.family.newest i ≠ some x)
    (hheld : ∀ t, (placeOf (pc t)).holds x = false) :
    Inv len (m.setHeap (m.family.heap.release x)) pc where
  family := by
    obtain ⟨owner, tgt, hf⟩ := h.family
    exact ⟨owner, tgt, hf.release hlt hun hword hheld⟩
  primary := h.primary
  storages := h.storages
  calls t c hc := (h.calls t c hc).keeps ⟨fun _ _ hd => hd, fun _ _ hd => hd⟩ fun x b hx => by
    have hplace : placeOf (pc t) = .uses x b := by
      rw [hc]
      exact hx
    exact h.used hplace
  dead := h.dead
  live := h.live
  popped := h.popped

end Inv

end Sdd.Proofs.Bag
