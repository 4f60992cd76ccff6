import Mathlib.Tactic.Abel
import Sdd.Lib.Run
import Sdd.Proofs.Bag.Invariant

/-!
# `Sdd.Proofs.Bag.Steps`: the steps of a bag

Every access of every call keeps the invariant and all values (`call_after`), and so does every
step of a run (`inv_step`, `inv_of_run`). `Lands` is where an access to a storage leads a call;
there is one lemma for each call that works on a storage, and one for each call on a stack.
-/

set_option autoImplicit false

namespace Sdd.Proofs.Bag

open Sdd.Bag (Mem Call Pc Op Res)
open Sdd.Proofs.Stacks (FamilyInv Follows Goes Effect Quiet deleted deleted_op deleted_start)

variable {bits n len : Nat} {T : Type} {m m' : Mem bits T n} {pc : Fin n → Pc bits T} {t : Fin n}
  {c : Call bits T} {fails : Bool}

/-- Where an access to the storage `loc` leads the call `c`. -/
structure Lands (len : Nat) (m' : Mem bits T n) (c : Call bits T) (loc : Option Addr)
    (k : Claims T) (v : Multiset T) (out : Outcome (Call bits T) (Res T)) : Prop where
  claims : claimsOf loc (next out) = k
  others : ∀ l, l ≠ loc → claimsOf l (next out) = callClaims l c
  place : Follows (callPlace c) (placeOf (next out))
  ok : outcome (CallOk len m') (fun _ => True) out
  popped : usesPopped (next out) = usesPopped (.call c)
  holds : outcome callHolds resHolds out = v
  op : outcome (fun c' => c'.op = c.op) (Answers c.op) out

/-- What is known of a call that goes on. -/
theorem ok_next {out : Outcome (Call bits T) (Res T)}
    (hok : outcome (CallOk len m') (fun _ => True) out) :
    ∀ c, next out = .call c → CallOk len m' c := by
  intro c hc
  cases out with
  | running c' =>
    cases hc
    exact hok
  | done res => cases hc

/-- An access to the primary storage. -/
theorem primary_after (h : Inv len m pc) (hpc : pc t = .call c) {s' : Storage bits T}
    {k : Claims T} {v : Multiset T} {out : Outcome (Call bits T) (Res T)}
    (hs : CallStep len m.primary s' (callClaims none c) k (callHolds c) v)
    (hlands : Lands len (m.setPrimary s') c none k v out)
    (htaking : callTaking c = none) (hdeleting : callDeleting c = none) :
    After len m pc t c (m.setPrimary s', out) where
  inv := by
    refine h.primary_step ?_ (fun x => ?_) ?_ (ok_next hlands.ok) ?_ ?_ ?_
    · rw [hpc, hlands.claims]
      exact hs.moves
    · rw [hpc]
      exact hlands.others _ nofun
    · rw [hpc]
      exact hlands.place
    · rw [hpc]
      exact htaking
    · rw [hpc]
      exact hdeleting
    · rw [hpc]
      exact hlands.popped
  stored := by
    show values len s' + _ + _ = values len m.primary + _ + _
    rw [hlands.holds, add_right_comm, hs.values, add_right_comm]
    rfl
  op := hlands.op

/-- An access to the storage in the entry `x`. -/
theorem storage_after (h : Inv len m pc) (hpc : pc t = .call c) {x : Addr} {b : Bool}
    (hplace : callPlace c = .uses x b) {s' : Storage bits T}
    {k : Claims T} {v : Multiset T} {out : Outcome (Call bits T) (Res T)}
    (hs : CallStep len (m.storage x) s' (callClaims (some x) c) k (callHolds c) v)
    (hlands : Lands len (m.setStorage x s') c (some x) k v out)
    (hdead : Dead len (m.storage x) → Dead len s')
    (htaking : ∀ y, callTaking c = some y → y = x ∧ (Dead len s' ∨ takingOf (next out) = some x))
    (hlive : m.family.heap.isDeleted x = true ∨ deletingOf (next out) = some x ∨
      (Instantiated len (m.storage x) → Instantiated len s'))
    (hdeleting : callDeleting c = none) :
    After len m pc t c (m.setStorage x s', out) where
  inv := by
    have hatt : x ∈ m.family.attached := by
      have hused : placeOf (pc t) = .uses x b := by
        rw [hpc]
        exact hplace
      exact h.used hused
    refine h.storage_step hatt ?_ (fun l hl => ?_) ?_ (ok_next hlands.ok) hdead (fun y hy => ?_)
      hlive ?_ ?_
    · rw [hpc, hlands.claims]
      exact hs.moves
    · rw [hpc]
      exact hlands.others l hl
    · rw [hpc]
      exact hlands.place
    · rw [hpc] at hy
      exact htaking y hy
    · rw [hpc]
      exact hdeleting
    · rw [hpc]
      exact hlands.popped
  stored := by
    have hatt : x ∈ m.family.attached.toFinset := by
      have hused : placeOf (pc t) = .uses x b := by
        rw [hpc]
        exact hplace
      exact List.mem_toFinset.mpr (h.used hused)
    have hset : ∀ y, (m.setStorage x s').storage y = Function.update m.storage x s' y := by
      intro y
      rw [storage_setStorage]
      by_cases hy : y = x
      · rw [hy, if_pos rfl, Function.update_self]
      · rw [if_neg hy, Function.update_of_ne hy]
    have hsum := sum_update hatt m.storage (values len) s'
    unfold stored
    rw [hlands.holds]
    show values len m.primary + ∑ y ∈ m.family.attached.toFinset,
      values len ((m.setStorage x s').storage y) + v = _
    simp only [hset]
    refine add_right_cancel (b := values len (m.storage x)) ?_
    calc values len m.primary
          + ∑ y ∈ m.family.attached.toFinset, values len (Function.update m.storage x s' y) + v
          + values len (m.storage x)
        = values len m.primary
          + (∑ y ∈ m.family.attached.toFinset, values len (Function.update m.storage x s' y)
            + values len (m.storage x)) + v := by abel
      _ = values len m.primary + ∑ y ∈ m.family.attached.toFinset, values len (m.storage y)
          + (values len s' + v) := by
        rw [hsum]
        abel
      _ = values len m.primary + ∑ y ∈ m.family.attached.toFinset, values len (m.storage y)
          + callHolds c + values len (m.storage x) := by
        rw [hs.values]
        abel
  op := hlands.op

section storages

variable (hlen : ArrayLen bits len) (h : Inv len m pc)
include h

/-- What a thread knows of the primary storage. -/
theorem knows_primary (hpc : pc t = .call c) : Knows len m.primary (callClaims none c) := by
  have hk := h.primary.knows t
  rw [Function.comp_apply, hpc] at hk
  exact hk

/-- What a thread knows of the storage in the entry that it uses. -/
theorem knows_storage {x : Addr} {b : Bool} (hpc : pc t = .call c)
    (hplace : callPlace c = .uses x b) : Knows len (m.storage x) (callClaims (some x) c) := by
  have hused : placeOf (pc t) = .uses x b := by
    rw [hpc]
    exact hplace
  have hk := (h.storages x (h.used hused)).2.knows t
  rw [Function.comp_apply, hpc] at hk
  exact hk

omit h in
/-- A call has no claims when it begins with a storage. -/
theorem claims_load {l loc : Option Addr} {k : Claims T} (hk : k = unclaimed) :
    (if l = loc then k else unclaimed) = unclaimed := by
  rw [hk, ite_self]

include hlen

/-- `push` or `try_push`, in `push` of the primary storage. -/
theorem pushPrimary_after {tries : Bool} {val : T} {call : PushCall bits T}
    (hpc : pc t = .call (.pushPrimary tries val call)) :
    After len m pc t (.pushPrimary tries val call)
      (Call.step len fails t m (.pushPrimary tries val call)) := by
  have hok : PushOk len val call := h.calls t _ hpc
  obtain ⟨hstep, hres⟩ := pushCall_step hlen
    (knows_primary h hpc) hok
  simp only [Call.step]
  refine primary_after h hpc hstep ?_ rfl rfl
  generalize (call.step len true fails m.primary).2 = out at hres
  cases out with
  | running c =>
    exact ⟨rfl, fun l hl => (if_neg hl).trans (if_neg hl).symm, .none, hres, rfl, rfl, rfl⟩
  | done o =>
    cases o with
    | none =>
      refine ⟨rfl, fun l hl => (if_neg hl).symm, .none, trivial, rfl, rfl, ?_⟩
      cases tries <;> exact trivial
    | some v =>
      cases hres v rfl
      cases tries with
      | false =>
        exact ⟨rfl, fun l hl => (if_neg hl).symm, .start .peek, rfl, rfl, rfl, rfl⟩
      | true => exact ⟨rfl, fun l hl => (if_neg hl).symm, .none, trivial, rfl, rfl, rfl⟩

/-- `push`, in `push` of a storage in an entry. -/
theorem pushStorage_after {val : T} {x : Addr} {call : PushCall bits T}
    (hpc : pc t = .call (.pushStorage val x call)) :
    After len m pc t (.pushStorage val x call)
      (Call.step len fails t m (.pushStorage val x call)) := by
  have hok : PushOk len val call := h.calls t _ hpc
  have hself : callClaims (some x) (.pushStorage val x call) = pushClaims val call := if_pos rfl
  have hk : Knows len (m.storage x) (pushClaims val call) := hself ▸ knows_storage h hpc rfl
  obtain ⟨hstep, hres⟩ := pushCall_step hlen hk hok
  simp only [Call.step]
  refine storage_after h hpc rfl (by rw [hself]; exact hstep) ?_
    (pushCall_dead hlen hk hok) nofun (.inr (.inr (pushCall_instantiated hlen hk hok))) rfl
  generalize (call.step len false fails (m.storage x)).2 = out at hres
  cases out with
  | running c =>
    exact ⟨if_pos rfl, fun l hl => (if_neg hl).trans (if_neg hl).symm, .same, hres, rfl, rfl, rfl⟩
  | done o =>
    cases o with
    | none => exact ⟨rfl, fun l hl => (if_neg hl).symm, .none, trivial, rfl, rfl, trivial⟩
    | some v =>
      cases hres v rfl
      exact ⟨rfl, fun l hl => (if_neg hl).symm, .start _, rfl, rfl, rfl, rfl⟩

/-- `pop`, in `pop` of a storage in an entry. -/
theorem popStorage_after {x : Addr} {call : PopCall bits T}
    (hpc : pc t = .call (.popStorage x call)) :
    After len m pc t (.popStorage x call) (Call.step len fails t m (.popStorage x call)) := by
  have hok : PopOk len call := h.calls t _ hpc
  have hself : callClaims (some x) (.popStorage x call) = popClaims call := if_pos rfl
  have hk : Knows len (m.storage x) (popClaims call) := hself ▸ knows_storage h hpc rfl
  obtain ⟨hstep, hres⟩ := popCall_step hlen hk hok
  have hinst := popCall_instantiated hlen fails hk hok
  simp only [Call.step]
  refine storage_after h hpc rfl (by rw [hself]; exact hstep) ?_
    (popCall_dead hlen hk hok) nofun (.inr ?_) rfl
  · have hstorage : (m.setStorage x (call.step len fails (m.storage x)).1).storage x
        = (call.step len fails (m.storage x)).1 := by
      rw [storage_setStorage, if_pos rfl]
    generalize call.step len fails (m.storage x) = r at hres hstorage
    obtain ⟨s', out⟩ := r
    cases out with
    | running c =>
      exact ⟨if_pos rfl, fun l hl => (if_neg hl).trans (if_neg hl).symm, .same, hres, rfl, rfl, rfl⟩
    | done res =>
      obtain ⟨val, empty⟩ := res
      cases empty with
      | true =>
        refine ⟨rfl, fun l hl => (if_neg hl).symm, .same, ?_, rfl, rfl, rfl⟩
        show Dead len ((m.setStorage x s').storage x)
        rw [hstorage]
        intro i hi
        unfold valid
        rw [hres rfl i hi]
        rfl
      | false =>
        cases val with
        | none =>
          exact ⟨rfl, fun l hl => (claims_load rfl).trans (if_neg hl).symm, .none, trivial, rfl, rfl,
            rfl⟩
        | some v => exact ⟨rfl, fun l hl => (if_neg hl).symm, .none, trivial, rfl, rfl, trivial⟩
  · by_cases hi : Instantiated len (m.storage x)
    · rcases hinst hi with hi' | ⟨val, hval⟩
      · exact .inr fun _ => hi'
      · refine .inl ?_
        rw [hval]
        rfl
    · exact .inr fun hi' => absurd hi' hi

/-- `pop`, in `pop` of the primary storage. -/
theorem popPrimary_after {call : PopCall bits T} (hpc : pc t = .call (.popPrimary call)) :
    After len m pc t (.popPrimary call) (Call.step len fails t m (.popPrimary call)) := by
  have hok : PopOk len call := h.calls t _ hpc
  obtain ⟨hstep, hres⟩ := popCall_step hlen (knows_primary h hpc) hok
  simp only [Call.step]
  refine primary_after h hpc hstep ?_ rfl rfl
  generalize (call.step len fails m.primary).2 = out at hres
  cases out with
  | running c =>
    exact ⟨rfl, fun l hl => (if_neg hl).trans (if_neg hl).symm, .none, hres, rfl, rfl, rfl⟩
  | done res => exact ⟨rfl, fun l hl => (if_neg hl).symm, .none, trivial, rfl, rfl, trivial⟩

/-- `pop_all`, in `pop_all` of a storage in an entry. -/
theorem allStorage_after {x : Addr} {call : AllCall bits T}
    (hpc : pc t = .call (.allStorage x call)) :
    After len m pc t (.allStorage x call) (Call.step len fails t m (.allStorage x call)) := by
  obtain ⟨hok, hdel⟩ := h.calls t _ hpc
  have hself : callClaims (some x) (.allStorage x call) = allClaims call := if_pos rfl
  have hk : Knows len (m.storage x) (allClaims call) := hself ▸ knows_storage h hpc rfl
  obtain ⟨hstep, hres⟩ := allCall_step hlen hk hok
  simp only [Call.step]
  -- The thread goes on to empty the storage as long as that can have a valid slot.
  have htaking : ∀ y, callTaking (.allStorage x call : Call bits T) = some y → y = x ∧
      (Dead len (call.step len fails (m.storage x)).1 ∨
        takingOf (next (Call.allTaken x (call.step len fails (m.storage x)).2)) = some x) := by
    intro y hy
    have htake : allTaking call = true ∧ x = y := by simpa [callTaking] using hy
    refine ⟨htake.2.symm, ?_⟩
    rcases allCall_takes hlen hk hok htake.1 with hd | hd
    · exact .inl hd
    · refine .inr ?_
      generalize (call.step len fails (m.storage x)).2 = out at hd
      cases out with
      | running c => exact if_pos hd
      | done acc => cases hd
  refine storage_after h hpc rfl (by rw [hself]; exact hstep) ?_
    (allCall_dead hlen hk hok) htaking (.inl hdel) rfl
  generalize (call.step len fails (m.storage x)).2 = out at hres
  cases out with
  | running c =>
    exact ⟨if_pos rfl, fun l hl => (if_neg hl).trans (if_neg hl).symm, .same, ⟨hres, hdel⟩, rfl,
      rfl, rfl⟩
  | done acc => exact ⟨rfl, fun l hl => (if_neg hl).symm, .start _, rfl, rfl, rfl, rfl⟩

/-- `pop_all`, in `pop_all` of the primary storage. -/
theorem allPrimary_after {call : AllCall bits T} (hpc : pc t = .call (.allPrimary call)) :
    After len m pc t (.allPrimary call) (Call.step len fails t m (.allPrimary call)) := by
  have hok : AllOk len call := h.calls t _ hpc
  obtain ⟨hstep, hres⟩ := allCall_step hlen (knows_primary h hpc) hok
  simp only [Call.step]
  refine primary_after h hpc hstep ?_ rfl rfl
  generalize (call.step len fails m.primary).2 = out at hres
  cases out with
  | running c =>
    exact ⟨rfl, fun l hl => (if_neg hl).trans (if_neg hl).symm, .none, hres, rfl, rfl, rfl⟩
  | done acc => exact ⟨rfl, fun l hl => (if_neg hl).symm, .none, trivial, rfl, rfl, trivial⟩

end storages

section onStacks

variable {call : Stack.Call (Storage bits T)} {i : Option (Fin n)}

/-- Where an access of the call `call` on the stack `i` leads the call `c`. -/
structure Follow (len : Nat) (m : Mem bits T n) (t : Fin n) (c : Call bits T) (i : Option (Fin n))
    (call : Stack.Call (Storage bits T)) (out : Outcome (Call bits T) (Res T)) : Prop where
  claims : ∀ l, claimsOf l (next out) = unclaimed
  goes : Goes (placeOf (next out)) ((m.family.mem i).step call).2
  ok : outcome (CallOk len (m.setFamily (m.family.setMem i ((m.family.mem i).step call).1)))
    (fun _ => True) out
  taking : ∀ y, callTaking c = some y → takingOf (next out) = some y
  takes : ∀ c' y, ((m.family.mem i).step call).2 = .running c' → deleted c' = some y →
    takingOf (next out) = some y
  popped : usesPopped (next out) = false →
    Function.update m.family.newest i ((m.family.mem i).step call).1.newest (some t) = none
  holds : stored len (m.setFamily (m.family.setMem i ((m.family.mem i).step call).1))
    + outcome callHolds resHolds out = stored len m + callHolds c
  op : outcome (fun c' => c'.op = c.op) (Answers c.op) out

/-- An access of a call on the stack `i`. -/
theorem stack_after (hlen : ArrayLen bits len) (h : Inv len m pc) (hpc : pc t = .call c)
    (hi : ∀ u, i = some u → u = t) (hplace : callPlace c = .call call)
    (hclaims : ∀ l, callClaims l c = unclaimed) (hdeleting : callDeleting c = none)
    (hpush : ∀ v cond, call.op = .pushIf v cond → ∃ val, v = .withVal len val)
    {out : Outcome (Call bits T) (Res T)} (hf : Follow len m t c i call out) :
    After len m pc t c (m.setFamily (m.family.setMem i ((m.family.mem i).step call).1), out) where
  inv := by
    refine h.stack_step hlen hi ?_ (fun l => ⟨?_, hf.claims l⟩) hf.goes (ok_next hf.ok) hpush ?_
      hf.takes ?_ hf.popped
    · rw [hpc]
      exact hplace
    · rw [hpc]
      exact hclaims l
    · rw [hpc]
      exact hf.taking
    · rw [hpc]
      exact hdeleting
  stored := hf.holds
  op := hf.op

/-- What one access of a call on a stack leaves, whatever place the thread goes to. -/
theorem stack_effect (h : Inv len m pc) (hpc : pc t = .call c) (hplace : callPlace c = .call call)
    (i : Option (Fin n)) :
    Effect (m.family.mem i) call ((m.family.mem i).step call) ∧
      (∀ x ∈ m.family.attached,
        ((m.family.mem i).step call).1.heap.value x = m.family.heap.value x) ∧
      (∀ q e, call = .attach q e (m.family.newest i) → e ∉ m.family.attached ∧
        ((m.family.mem i).step call).1.heap.value e = some q.val) ∧
      ∀ x, ((m.family.mem i).step call).2 = .done (.popped (some x)) →
        ((m.family.mem i).step call).1.heap.isDeleted x = true := by
  obtain ⟨owner, tgt, hf⟩ := h.family
  have hcall : (placeOf ∘ pc) t = .call call := by
    rw [Function.comp_apply, hpc]
    exact hplace
  cases hstep : ((m.family.mem i).step call).2 with
  | running c' =>
    have hafter := hf.callAfter (p := .call c') hcall i (by rw [hstep]; exact rfl)
    rw [← hstep]
    exact ⟨hafter.effect, hafter.value, hafter.entry, hafter.popped⟩
  | done res =>
    have hafter := hf.callAfter (p := .none) hcall i (by rw [hstep]; exact .none)
    rw [← hstep]
    exact ⟨hafter.effect, hafter.value, hafter.entry, hafter.popped⟩

/-- The same values are in the same storages. -/
theorem stored_congr (hprim : m'.primary = m.primary)
    (hatt : m'.family.attached = m.family.attached)
    (hvalue : ∀ x ∈ m.family.attached, m'.family.heap.value x = m.family.heap.value x) :
    stored len m' = stored len m := by
  unfold stored
  rw [hprim, hatt]
  refine congrArg _ (Finset.sum_congr rfl fun x hx => ?_)
  rw [storage_congr (hvalue x (List.mem_toFinset.mp hx))]

/-- A storage is attached. -/
theorem stored_attach {i : Option (Fin n)} {r : Stack.Mem (Storage bits T)} {e : Addr}
    (hatt : r.attached = e :: m.family.attached) (he : e ∉ m.family.attached)
    (hvalue : ∀ x ∈ m.family.attached, r.heap.value x = m.family.heap.value x) :
    stored len (m.setFamily (m.family.setMem i r))
      = stored len m + values len ((r.heap.value e).getD .new) := by
  have hmem : e ∉ m.family.attached.toFinset := fun hc => he (List.mem_toFinset.mp hc)
  unfold stored
  rw [add_assoc]
  refine congrArg _ ?_
  show ∑ x ∈ r.attached.toFinset, _ = _
  rw [hatt, List.toFinset_cons, Finset.sum_insert hmem, add_comm]
  refine congrArg (· + _) (Finset.sum_congr rfl fun x hx => ?_)
  rw [storage_congr]
  exact hvalue x (List.mem_toFinset.mp hx)

/-- A call that is not one of `pop_if` has deleted nothing. -/
theorem deleted_none {op : Stack.Op (Storage bits T)} (hop : call.op = op)
    (hne : ∀ cond, op ≠ .popIf cond) : deleted call = none := by
  cases hd : deleted call with
  | none => rfl
  | some x =>
    obtain ⟨⟨cond, hc⟩, -⟩ := deleted_op hd
    exact absurd (hop.symm.trans hc) (hne cond)

/-- One access of `peek_with`. -/
theorem peek_effect {mem : Stack.Mem (Storage bits T)}
    {r : Stack.Mem (Storage bits T) × Outcome (Stack.Call (Storage bits T)) Stack.Res}
    (heffect : Effect mem call r) (hop : call.op = .peek) :
    r.1.attached = mem.attached ∧ (∀ c, r.2 = .running c → c.op = .peek ∧ deleted c = none) ∧
      ∀ res, r.2 = .done res → ∃ o, res = .peeked o := by
  have hquiet := heffect.quiet_of (.inl hop)
  rw [hop] at hquiet
  refine ⟨hquiet.attached, fun c hc => ?_, fun res hres => (hquiet.done res hres).of_peek⟩
  have hc' := (hquiet.running c hc).2
  exact ⟨hc', deleted_none hc' nofun⟩

variable (hlen : ArrayLen bits len) (h : Inv len m pc)
include hlen h

/-- Where an access of `peek_with` leads the call `c`. -/
structure Peeks (n len : Nat) (c : Call bits T) (out : Outcome (Stack.Call (Storage bits T)) Stack.Res)
    (out' : Outcome (Call bits T) (Res T)) : Prop where
  claims : ∀ l, claimsOf l (next out') = unclaimed
  goes : Goes (placeOf (next out')) out
  ok : ∀ m' : Mem bits T n, outcome (CallOk len m') (fun _ => True) out'
  holds : outcome callHolds resHolds out' = callHolds c
  op : outcome (fun c' => c'.op = c.op) (Answers c.op) out'

/-- One access of `peek_with`, by a call that goes on as `k` says. -/
theorem peek_after (hpc : pc t = .call c) (hplace : callPlace c = .call call)
    (hclaims : ∀ l, callClaims l c = unclaimed) (hdeleting : callDeleting c = none)
    (htaking : callTaking c = none) (hpopped : usesPopped (.call c) = false)
    (hop : call.op = .peek)
    (k : Outcome (Stack.Call (Storage bits T)) Stack.Res → Outcome (Call bits T) (Res T))
    (hrun : ∀ c', c'.op = .peek → Peeks n len c (.running c') (k (.running c')))
    (hdone : ∀ o, Peeks n len c (.done (.peeked o)) (k (.done (.peeked o)))) :
    After len m pc t c (m.setFamily (m.family.setMem none ((m.family.mem none).step call).1),
      k ((m.family.mem none).step call).2) := by
  obtain ⟨heffect, hvalue, -⟩ := stack_effect h hpc hplace none
  obtain ⟨hatt, hruns, hdones⟩ := peek_effect heffect hop
  have hstored : stored len (m.setFamily (m.family.setMem none ((m.family.mem none).step call).1))
      = stored len m := stored_congr rfl hatt hvalue
  -- The access leads to one of the two.
  have hpeeks : Peeks n len c ((m.family.mem none).step call).2
      (k ((m.family.mem none).step call).2) := by
    cases hstep : ((m.family.mem none).step call).2 with
    | running c' => exact hrun c' (hruns c' hstep).1
    | done res =>
      obtain ⟨o, rfl⟩ := hdones res hstep
      exact hdone o
  refine stack_after hlen h hpc (fun u hu => (by cases hu)) hplace hclaims hdeleting
    (by rw [hop]; nofun) ⟨hpeeks.claims, hpeeks.goes, hpeeks.ok _, fun y hy => ?_,
      fun c' y hc' hy => ?_, fun _ => ?_, ?_, hpeeks.op⟩
  · rw [htaking] at hy
    cases hy
  · rw [(hruns c' hc').2] at hy
    cases hy
  · rw [Function.update_of_ne (Option.some_ne_none t)]
    exact h.popped t (by rw [hpc]; exact hpopped)
  · rw [hstored, hpeeks.holds]

/-- `push`, in `peek_with`. -/
theorem pushPeek_after {val : T} (hpc : pc t = .call (.pushPeek val call)) :
    After len m pc t (.pushPeek val call) (Call.step len fails t m (.pushPeek val call)) := by
  refine peek_after hlen h hpc rfl (fun _ => rfl) rfl rfl rfl (h.calls t _ hpc)
    (Call.pushPeeked len val) (fun c' hop => ?_) fun o => ?_
  · exact ⟨fun _ => rfl, rfl, fun _ => hop, rfl, rfl⟩
  · cases o with
    | none => exact ⟨fun _ => rfl, .start _, fun _ => rfl, rfl, rfl⟩
    | some x => exact ⟨fun _ => claims_load rfl, .peeked x rfl, fun _ => rfl, rfl, rfl⟩

/-- `pop`, in `peek_with`. -/
theorem popPeek_after (hpc : pc t = .call (.popPeek call)) :
    After len m pc t (.popPeek call) (Call.step len fails t m (.popPeek call)) := by
  refine peek_after hlen h hpc rfl (fun _ => rfl) rfl rfl rfl (h.calls t _ hpc)
    Call.popPeeked (fun c' hop => ?_) fun o => ?_
  · exact ⟨fun _ => rfl, rfl, fun _ => hop, rfl, rfl⟩
  · cases o with
    | none => exact ⟨fun _ => claims_load rfl, .none, fun _ => trivial, rfl, rfl⟩
    | some x => exact ⟨fun _ => claims_load rfl, .peeked x rfl, fun _ => trivial, rfl, rfl⟩

omit hlen h in
/-- One access of `push_unchecked`: an entry is attached, or the call goes on. -/
theorem push_effect {mem : Stack.Mem (Storage bits T)} {s : Storage bits T}
    {r : Stack.Mem (Storage bits T) × Outcome (Stack.Call (Storage bits T)) Stack.Res}
    (heffect : Effect mem call r) (hop : call.op = .push s) :
    (∃ q e, call = .attach q e mem.newest ∧ q.val = s ∧ r.2 = .done (.pushed e) ∧
        r.1.attached = e :: mem.attached) ∨
      r.1.attached = mem.attached ∧ ∃ c, r.2 = .running c ∧ c.op = .push s := by
  cases heffect with
  | attach q e hq =>
    refine .inl ⟨q, e, hq, ?_, rfl, rfl⟩
    rw [hq] at hop
    exact (Stack.Op.pushIf.inj hop).1
  | delete cond x hx hlive =>
    rw [hx] at hop
    cases hop
  | quiet hquiet =>
    refine .inr ⟨hquiet.attached, ?_⟩
    cases hout : r.2 with
    | running c => exact ⟨c, rfl, (hquiet.running c hout).2.trans hop⟩
    | done res =>
      have hanswer := hquiet.done res hout
      rw [hop] at hanswer
      cases res with
      | rejected =>
        -- The condition always holds.
        obtain ⟨val, cond, o, hcond, hfalse⟩ := hanswer
        cases hcond
        cases hfalse
      | popped o =>
        cases o with
        | none =>
          obtain ⟨cond, hcond, -⟩ := hanswer
          cases hcond
        | some x =>
          obtain ⟨cond, hcond, -⟩ := hanswer
          cases hcond
      | refused e =>
        obtain ⟨cond, hcond, -⟩ := hanswer
        cases hcond
      | peeked o => cases o <;> cases hanswer.1
      | pushed e => cases hanswer
      | empty b => cases hanswer

/-- `push`, in `push_unchecked`. -/
theorem pushNew_after {val : T} (hpc : pc t = .call (.pushNew val call)) :
    After len m pc t (.pushNew val call) (Call.step len fails t m (.pushNew val call)) := by
  have hop : call.op = .push (.withVal len val) := h.calls t _ hpc
  obtain ⟨heffect, hvalue, hentry, -⟩ := stack_effect h hpc rfl none
  have hnewest : Function.update m.family.newest none ((m.family.mem none).step call).1.newest
      (some t) = none := by
    rw [Function.update_of_ne (Option.some_ne_none t)]
    exact h.popped t (by rw [hpc]; rfl)
  refine stack_after hlen h hpc (fun u hu => (by cases hu)) rfl (fun _ => rfl) rfl
    (fun v cond hc => ⟨val, ?_⟩) ?_
  · rw [hop] at hc
    cases hc
    rfl
  rcases push_effect heffect hop with ⟨q, e, hq, hval, hdone, hatt⟩ | ⟨hatt, c', hrun, hop'⟩
  · rw [hdone]
    refine ⟨fun _ => rfl, ?_, trivial, nofun, ?_, fun _ => hnewest, ?_, trivial⟩
    · rw [hdone]
      exact .none
    · rw [hdone]
      nofun
    · -- The value is in the new storage now.
      obtain ⟨hnew, hstored⟩ := hentry q e hq
      show stored len _ + 0 = stored len m + {val}
      rw [add_zero, stored_attach hatt hnew hvalue, hstored, hval]
      exact congrArg _ (values_withVal hlen val)
  · rw [hrun]
    refine ⟨fun _ => rfl, ?_, hop', nofun, fun c'' y hc'' hy => ?_, fun _ => hnewest, ?_, rfl⟩
    · rw [hrun]
      exact rfl
    · rw [hrun] at hc''
      cases hc''
      rw [deleted_none hop' nofun] at hy
      cases hy
    · exact congrArg (· + _) (stored_congr rfl hatt hvalue)

omit hlen in
/-- One access of `pop` on a stack whose entries all have storages. -/
theorem pop_effect {i : Option (Fin n)}
    {r : Stack.Mem (Storage bits T) × Outcome (Stack.Call (Storage bits T)) Stack.Res}
    (heffect : Effect (m.family.mem i) call r)
    (hvalue : ∀ x ∈ m.family.attached, r.1.heap.value x = m.family.heap.value x)
    (hop : call.op = .pop) :
    r.1.attached = m.family.attached ∧
      ((∃ c, r.2 = .running c ∧ c.op = .pop ∧ ∀ x, deleted call = some x → deleted c = some x) ∨
        (r.2 = .done (.popped none) ∧ deleted call = none ∧ r.1.newest = none) ∨
        ∃ x, r.2 = .done (.popped (some x)) ∧ deleted call = some x) := by
  cases heffect with
  | attach q e hq =>
    rw [hq] at hop
    cases hop
  | delete cond x hx hlive =>
    rw [hx] at hop
    refine ⟨rfl, .inl ⟨_, rfl, hop, fun y hy => ?_⟩⟩
    rw [hx] at hy
    cases hy
  | quiet hquiet =>
    have hatt : r.1.attached = m.family.attached := hquiet.attached
    refine ⟨hatt, ?_⟩
    cases hout : r.2 with
    | running c =>
      obtain ⟨hdel, hop'⟩ := hquiet.running c hout
      exact .inl ⟨c, rfl, hop'.trans hop, fun x hx => hdel.trans hx⟩
    | done res =>
      have hanswer := hquiet.done res hout
      rw [hop] at hanswer
      cases res with
      | popped o =>
        cases o with
        | none =>
          obtain ⟨-, -, hdel, hnewest⟩ := hanswer
          exact .inr (.inl ⟨rfl, hdel, hnewest⟩)
        | some x =>
          obtain ⟨-, -, hdel⟩ := hanswer
          exact .inr (.inr ⟨x, rfl, hdel⟩)
      | refused e =>
        -- There is a storage, and the condition always holds.
        obtain ⟨cond, hcond, he, hany⟩ := hanswer
        rw [hatt] at he
        obtain ⟨s, hs⟩ := Option.isSome_iff_exists.mp (h.storages e he).1
        rw [hvalue e he, hs] at hany
        cases hcond
        cases hany
      | rejected =>
        obtain ⟨val, cond, o, hcond, -⟩ := hanswer
        cases hcond
      | peeked o => cases o <;> cases hanswer.1
      | pushed e => cases hanswer
      | empty b => cases hanswer

/-- `pop_all`, in `pop` of the stack with all the entries. -/
theorem allPop_after {acc : List T} (hpc : pc t = .call (.allPop acc call)) :
    After len m pc t (.allPop acc call) (Call.step len fails t m (.allPop acc call)) := by
  have hop : call.op = .pop := h.calls t _ hpc
  obtain ⟨heffect, hvalue, -, hpopped⟩ := stack_effect h hpc rfl (some t)
  obtain ⟨hatt, hcases⟩ := pop_effect h heffect hvalue hop
  have hstored : stored len
      (m.setFamily (m.family.setMem (some t) ((m.family.mem (some t)).step call).1))
        = stored len m := stored_congr rfl hatt hvalue
  refine stack_after hlen h hpc (fun u hu => (Option.some.inj hu).symm) rfl (fun _ => rfl) rfl
    (by rw [hop]; nofun) ?_
  rcases hcases with ⟨c', hrun, hop', hdel⟩ | ⟨hdone, hdel, hnewest⟩ | ⟨x, hdone, hdel⟩
  · rw [hrun]
    refine ⟨fun _ => rfl, ?_, hop', hdel, fun c'' y hc'' hy => ?_, nofun, ?_, rfl⟩
    · rw [hrun]
      exact rfl
    · rw [hrun] at hc''
      cases hc''
      exact hy
    · rw [hstored]
      rfl
  · rw [hdone]
    refine ⟨fun _ => claims_load rfl, ?_, trivial, fun y hy => ?_, ?_, fun _ => ?_, ?_, rfl⟩
    · rw [hdone]
      exact .none
    · rw [show callTaking (.allPop acc call) = deleted call from rfl, hdel] at hy
      cases hy
    · rw [hdone]
      nofun
    · rw [Function.update_self]
      exact hnewest
    · rw [hstored]
      rfl
  · rw [hdone]
    refine ⟨fun _ => claims_load rfl, ?_, ⟨trivial, hpopped x hdone⟩, fun y hy => ?_, ?_, nofun, ?_,
      rfl⟩
    · rw [hdone]
      exact .popped x rfl
    · show some x = some y
      exact hdel.symm.trans hy
    · rw [hdone]
      nofun
    · rw [hstored]
      rfl

omit hlen in
/-- `pop`, before `delete_self`. -/
theorem popDelete_after {x : Addr} {val : Option T} (hpc : pc t = .call (.popDelete x val)) :
    After len m pc t (.popDelete x val) (Call.step len fails t m (.popDelete x val)) := by
  have hvalue : (m.family.heap.deleteSelf x).1.value = m.family.heap.value := by
    unfold Heap.deleteSelf
    split <;> rfl
  have hstored : stored len (m.setHeap (m.family.heap.deleteSelf x).1) = stored len m :=
    stored_congr rfl rfl fun y _ => congrFun hvalue y
  simp only [Call.step]
  cases val with
  | none =>
    refine ⟨h.delete_step hpc rfl (fun _ => claims_load rfl) (fun c hc => ?_), ?_, rfl⟩
    · cases hc
      exact trivial
    · rw [hstored]
      rfl
  | some v =>
    refine ⟨h.delete_step hpc rfl (fun _ => rfl) (fun c hc => (by cases hc)), ?_, trivial⟩
    rw [hstored]
    rfl

omit hlen in
/-- `pop_all`, before `pop_all` of the stack. -/
theorem allSwap_after (hpc : pc t = .call .allSwap) :
    After len m pc t .allSwap (Call.step len fails t m .allSwap) := by
  obtain ⟨owner, tgt, hf⟩ := h.family
  have hnone : m.family.newest (some t) = none := h.popped t (by rw [hpc]; rfl)
  have hstart : Stack.CallInv m.family.heap m.family.attached tgt
      (Stack.Call.start .pop : Stack.Call (Storage bits T)) := Stack.callInv_start _
  refine ⟨h.frame_step ?_ rfl rfl rfl (fun _ => ⟨?_, rfl⟩) (fun c hc => ?_) ?_ ?_ (fun u hu => ?_)
    nofun, ?_, rfl⟩
  · refine ⟨_, tgt, hf.popAll hnone (Option.some_ne_none t).symm
      (.of_none hstart (fun x hx => ?_) rfl)⟩
    cases hx
  · rw [hpc]
    rfl
  · cases hc
    exact rfl
  · rw [hpc]
    rfl
  · rw [hpc]
    rfl
  · show Function.update (Function.update m.family.newest (some t) (m.family.newest none)) none none
      (some u) = _
    rw [Function.update_of_ne (Option.some_ne_none u),
      Function.update_of_ne fun hc => hu (Option.some.inj hc)]
  · rfl

/-- One access of a call. -/
theorem call_after (hpc : pc t = .call c) (fails : Bool) :
    After len m pc t c (c.step len fails t m) := by
  cases c with
  | pushPrimary tries val call => exact pushPrimary_after hlen h hpc
  | pushPeek val call => exact pushPeek_after hlen h hpc
  | pushStorage val x call => exact pushStorage_after hlen h hpc
  | pushNew val call => exact pushNew_after hlen h hpc
  | popPeek call => exact popPeek_after hlen h hpc
  | popStorage x call => exact popStorage_after hlen h hpc
  | popDelete x val => exact popDelete_after h hpc
  | popPrimary call => exact popPrimary_after hlen h hpc
  | allSwap => exact allSwap_after h hpc
  | allPop acc call => exact allPop_after hlen h hpc
  | allStorage x call => exact allStorage_after hlen h hpc
  | allPrimary call => exact allPrimary_after hlen h hpc

end onStacks

end Sdd.Proofs.Bag
