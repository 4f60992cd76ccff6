import Mathlib.Algebra.Order.BigOperators.Group.Finset
import Mathlib.Data.Fintype.Basic
import Sdd.Proofs.Bag.Runs

/-!
# `Sdd.Proofs.Bag.Conservation`: a bag loses and duplicates nothing

What the history of a bag says about the values: the ones that were passed to `push` and
`try_push` (`offered`), the ones that the bag has taken (`accepted`) or given back (`rejected`),
and the ones that came out of it (`handed`). Two equations hold in every state of a run: one says
where the offered values are (`Balanced`), and the other what the calls have answered (`Settled`).
When no call is in progress, the values that are in the bag and the ones that came out of it are
the ones that it has taken (`conservation`).
-/

set_option autoImplicit false

namespace Sdd.Proofs.Bag

open Sdd.Lib
open Sdd.Lib.Linearize (Event)
open Sdd.Bag (Mem Call Pc Op Res World Action)
open Sdd.Proofs.Stack (Stacks entries mem_entries)
open Sdd.Proofs.Stacks (FamilyInv)

variable {bits n len : Nat} {T : Type} {w w' : World bits T n} {t : Fin n}

section accounts

/-- The value that is passed to an operation. -/
def argument : Op T → Multiset T
  | .push val | .tryPush val => {val}
  | .pop | .popAll => 0

/-- The values that were passed to `push` and `try_push`. -/
def offered (history : List (Event (Fin n) (Op T) (Res T))) : Multiset T :=
  (history.map fun
    | .invoke _ op => argument op
    | _ => 0).sum

/-- A sum over the results of the operations. -/
def results (f : Op T → Res T → Multiset T) (history : List (Event (Fin n) (Op T) (Res T))) :
    Multiset T :=
  (history.map fun
    | .result _ op res => f op res
    | _ => 0).sum

/-- The values of the calls of `push` that have returned, and of `try_push` that have returned
`Ok`. -/
def accepted (history : List (Event (Fin n) (Op T) (Res T))) : Multiset T :=
  results (fun
    | op, .pushed => argument op
    | _, _ => 0) history

/-- The values that `try_push` has given back. -/
def rejected (history : List (Event (Fin n) (Op T) (Res T))) : Multiset T :=
  results (fun
    | _, .rejected val => {val}
    | _, _ => 0) history

/-- The values that `pop` has returned, and that the calls of `pop_all` that have returned have
passed to `fold`. -/
def returned (history : List (Event (Fin n) (Op T) (Res T))) : Multiset T :=
  results (fun
    | _, .popped val => held val
    | _, .folded vals => (vals : Multiset T)
    | _, _ => 0) history

/-- The values that a call of `pop_all` in progress has passed to `fold`. -/
def folded : Pc bits T → Multiset T
  | .call (.allPop acc _) => acc
  | .call (.allStorage _ c) | .call (.allPrimary c) => allHolds c
  | _ => 0

/-- The values that came out of the bag. -/
def handed (w : World bits T n) : Multiset T := returned w.history + ∑ t, folded (w.pc t)

/-- The values in the valid slots of a storage. -/
def contents (len : Nat) (s : Storage bits T) : Multiset T :=
  ∑ i ∈ Finset.range len, if valid len s.metadata i then held (s.slots i) else 0

/-- The call has read a slot that holds no instance. -/
def Uninit : Call bits T → Prop
  | .pushPrimary _ _ .uninit | .pushStorage _ _ .uninit => True
  | .popPrimary .uninit | .popStorage _ .uninit => True
  | .allPrimary (.uninit _) | .allStorage _ (.uninit _) => True
  | _ => False

/-- No call is in progress. -/
def AtRest (w : World bits T n) : Prop := ∀ t c, w.pc t ≠ .call c

/-- The values that a thread has at hand. -/
def holdsOf : Pc bits T → Multiset T
  | .call c => callHolds c
  | .idle | .drop _ => 0

/-- The value of the operation that a thread is in. -/
def argumentOf : Pc bits T → Multiset T
  | .call c => argument c.op
  | .idle | .drop _ => 0

end accounts

section equations

variable {history : List (Event (Fin n) (Op T) (Res T))} {e : Event (Fin n) (Op T) (Res T)}

/-- What an event adds to a sum over the history. -/
theorem sum_snoc {E M : Type} [AddMonoid M] (f : E → M) (l : List E) (e : E) :
    ((l ++ [e]).map f).sum = (l.map f).sum + f e := by
  rw [List.map_append, List.sum_append, List.map_singleton, List.sum_singleton]

@[simp] theorem offered_invoke (op : Op T) :
    offered (history ++ [.invoke t op]) = offered history + argument op := sum_snoc _ _ _

@[simp] theorem offered_result (op : Op T) (res : Res T) :
    offered (history ++ [.result t op res]) = offered history :=
  (sum_snoc _ _ _).trans (add_zero _)

@[simp] theorem results_invoke (f : Op T → Res T → Multiset T) (op : Op T) :
    results f (history ++ [.invoke t op]) = results f history :=
  (sum_snoc _ _ _).trans (add_zero _)

@[simp] theorem results_result (f : Op T → Res T → Multiset T) (op : Op T) (res : Res T) :
    results f (history ++ [.result t op res]) = results f history + f op res := sum_snoc _ _ _

/-- A result hands over the values that the call has at hand. -/
theorem results_holds (op : Op T) (res : Res T) :
    rejected (history ++ [.result t op res]) + returned (history ++ [.result t op res]) =
      rejected history + returned history + resHolds res := by
  unfold rejected returned
  rw [results_result, results_result, add_add_add_comm]
  cases res with
  | pushed => rfl
  | rejected val => exact congrArg _ (add_zero _)
  | popped val => exact congrArg _ (zero_add _)
  | folded vals => exact congrArg _ (zero_add _)

/-- A result settles the value of the operation. -/
theorem results_argument {op : Op T} {res : Res T} (h : Answers op res) :
    accepted (history ++ [.result t op res]) + rejected (history ++ [.result t op res]) =
      accepted history + rejected history + argument op := by
  unfold accepted rejected
  rw [results_result, results_result, add_add_add_comm]
  -- What is handed back is the argument of the call; the other answers hand nothing back.
  cases res with
  | pushed => exact congrArg _ (add_zero _)
  | rejected val =>
    cases op with
    | tryPush val' =>
      obtain rfl : val = val' := h
      exact congrArg _ (zero_add _)
    | push val' => cases h
    | pop => cases h
    | popAll => cases h
  | popped val =>
    cases op with
    | pop => rfl
    | push val' => cases h
    | tryPush val' => cases h
    | popAll => cases h
  | folded vals =>
    cases op with
    | popAll => rfl
    | push val' => cases h
    | tryPush val' => cases h
    | pop => cases h

/-- A sum over the threads after one of them goes on. -/
theorem sum_goto {M : Type} [AddCommMonoid M] (f : Pc bits T → M) (pc : Fin n → Pc bits T)
    (p : Pc bits T) :
    ∑ u, f (Function.update pc t p u) + f (pc t) = ∑ u, f (pc u) + f p :=
  sum_update (Finset.mem_univ t) pc f p

/-- The values of `push` and `try_push` are in the storages, at hand, or with the callers. -/
def Balanced (len : Nat) (w : World bits T n) : Prop :=
  offered w.history =
    stored len w.mem + ∑ t, holdsOf (w.pc t) + (rejected w.history + returned w.history)

/-- The values of `push` and `try_push` are accepted, given back, or still offered. -/
def Settled (w : World bits T n) : Prop :=
  offered w.history =
    accepted w.history + rejected w.history + ∑ t, argumentOf (w.pc t)

/-- What one thread gives up is with the others. -/
theorem moved_eq {M : Type} [AddCancelCommMonoid M] {s s' p p' r r' h h' k : M}
    (hs : s' + (h' + k) = s + h) (hp : p' + h = p + h') (hr : r' = r + k) :
    s' + p' + r' = s + p + r := by
  refine add_right_cancel (b := h) ?_
  calc s' + p' + r' + h = s' + (p' + h) + (r + k) := by rw [hr]; ac_rfl
    _ = s' + (h' + k) + p + r := by rw [hp]; ac_rfl
    _ = s + p + r + h := by rw [hs]; ac_rfl

/-- An operation begins with the value that is passed to it. -/
theorem start_holds (op : Op T) : callHolds (.start op : Call bits T) = argument op := by
  cases op <;> rfl

theorem start_op (op : Op T) : (.start op : Call bits T).op = op := by
  cases op <;> rfl

/-- A thread goes from one place to another without values. -/
theorem Balanced.frame (h : Balanced len w) {m : Mem bits T n} {p : Pc bits T}
    (hm : stored len m = stored len w.mem) (hold : holdsOf (w.pc t) = 0) (hnew : holdsOf p = 0) :
    Balanced len ⟨m, Function.update w.pc t p, w.history⟩ := by
  have hsum := sum_goto (t := t) holdsOf w.pc p
  rw [hold, hnew] at hsum
  unfold Balanced
  rw [hm, add_right_cancel hsum]
  exact h

theorem Settled.frame (h : Settled w) {m : Mem bits T n} {p : Pc bits T}
    (hold : argumentOf (w.pc t) = 0) (hnew : argumentOf p = 0) :
    Settled ⟨m, Function.update w.pc t p, w.history⟩ := by
  have hsum := sum_goto (t := t) argumentOf w.pc p
  rw [hold, hnew] at hsum
  unfold Settled
  rw [add_right_cancel hsum]
  exact h

/-- The next access of a call. -/
theorem Balanced.call (h : Balanced len w) {c : Call bits T} {fails : Bool}
    (hpc : w.pc t = .call c)
    (ha : After len w.mem w.pc t c (c.step len fails t w.mem)) :
    Balanced len (w.called t c.op (c.step len fails t w.mem)) := by
  obtain ⟨-, hstored, -⟩ := ha
  generalize c.step len fails t w.mem = r at hstored
  obtain ⟨m, out⟩ := r
  have hhold : holdsOf (w.pc t) = callHolds c := by rw [hpc]; rfl
  cases out with
  | running c' =>
    have hsum := sum_goto (t := t) holdsOf w.pc (.call c')
    rw [hhold] at hsum
    refine h.trans (moved_eq (k := 0) ?_ hsum (add_zero _).symm).symm
    rw [add_zero]
    exact hstored
  | done res =>
    have hsum := sum_goto (t := t) holdsOf w.pc .idle
    rw [hhold] at hsum
    refine (offered_result c.op res).trans (h.trans
      (moved_eq (k := resHolds res) ?_ hsum (results_holds c.op res)).symm)
    rw [show holdsOf (.idle : Pc bits T) = 0 from rfl, zero_add]
    exact hstored

theorem Settled.call (h : Settled w) {c : Call bits T} {fails : Bool} (hpc : w.pc t = .call c)
    (ha : After len w.mem w.pc t c (c.step len fails t w.mem)) :
    Settled (w.called t c.op (c.step len fails t w.mem)) := by
  obtain ⟨-, -, hop⟩ := ha
  generalize c.step len fails t w.mem = r at hop
  obtain ⟨m, out⟩ := r
  have harg : argumentOf (w.pc t) = argument c.op := by rw [hpc]; rfl
  cases out with
  | running c' =>
    have hsum := sum_goto (t := t) argumentOf w.pc (.call c')
    rw [harg, show argumentOf (.call c') = argument c.op from congrArg argument hop] at hsum
    unfold Settled
    show offered w.history = accepted w.history + rejected w.history +
      ∑ u, argumentOf (Function.update w.pc t (.call c') u)
    rw [add_right_cancel hsum]
    exact h
  | done res =>
    have hsum := sum_goto (t := t) argumentOf w.pc .idle
    rw [harg, show argumentOf (.idle : Pc bits T) = 0 from rfl, add_zero] at hsum
    unfold Settled
    show offered (w.history ++ [.result t c.op res]) =
      accepted (w.history ++ [.result t c.op res]) + rejected (w.history ++ [.result t c.op res]) +
        ∑ u, argumentOf (Function.update w.pc t .idle u)
    rw [offered_result, results_argument hop, add_assoc, add_comm (argument c.op), hsum]
    exact h

end equations

section runs

variable (hlen : ArrayLen bits len)

include hlen

/-- Every action keeps the two equations. -/
theorem balanced_step (h : Inv len w.mem w.pc) (hb : Balanced len w) (hs : Settled w)
    {a : Action T n} (hw : w.step len a = some w') : Balanced len w' ∧ Settled w' := by
  cases stepped hw with
  | invoke t op hpc =>
    -- The thread held nothing before the call, and its argument afterwards.
    have hidle : holdsOf (w.pc t) = 0 ∧ argumentOf (w.pc t) = 0 := by
      rw [hpc]
      exact ⟨rfl, rfl⟩
    have hhold := sum_goto (t := t) holdsOf w.pc (.call (.start op))
    have harg := sum_goto (t := t) argumentOf w.pc (.call (.start op))
    rw [hidle.1, add_zero, show holdsOf (.call (.start op)) = argument op from start_holds op] at hhold
    rw [hidle.2, add_zero, show argumentOf (.call (.start op) : Pc bits T) = argument op from
      congrArg argument (start_op op)] at harg
    constructor
    · unfold Balanced
      show offered (w.history ++ [Event.invoke t op]) = stored len w.mem +
        ∑ u, holdsOf (Function.update w.pc t (.call (.start op)) u) +
          (results _ (w.history ++ [Event.invoke t op]) + results _ (w.history ++ [Event.invoke t op]))
      rw [offered_invoke, results_invoke, results_invoke, hhold, hb]
      show _ = _ + (rejected w.history + returned w.history)
      ac_rfl
    · unfold Settled
      show offered (w.history ++ [Event.invoke t op]) =
        results _ (w.history ++ [Event.invoke t op]) + results _ (w.history ++ [Event.invoke t op]) +
          ∑ u, argumentOf (Function.update w.pc t (.call (.start op)) u)
      rw [offered_invoke, results_invoke, results_invoke, harg, hs]
      exact add_assoc _ _ _
  | call t c fails hpc =>
    have ha := call_after hlen h hpc fails
    exact ⟨hb.call hpc ha, hs.call hpc ha⟩
  -- Guards and references that are dropped carry no values.
  | clean t c fails p hpc hp =>
    obtain ⟨owner, tgt, hf⟩ := h.family
    have hclean := hf.drop_cleans (t := t) (c := c) (by rw [Function.comp_apply, hpc]; rfl)
    have hnew : holdsOf p = 0 ∧ argumentOf p = 0 := by
      rcases hp with ⟨c', -, rfl⟩ | ⟨q, -, rfl⟩
      · exact ⟨rfl, rfl⟩
      · exact ⟨rfl, rfl⟩
    refine ⟨hb.frame (stored_congr rfl rfl fun x _ => ?_) (by rw [hpc]; rfl) hnew.1,
      hs.frame (by rw [hpc]; rfl) hnew.2⟩
    exact congrFun hclean.fields.1 x
  | drop t x y hpc hy =>
    exact ⟨hb.frame rfl (by rw [hpc]; rfl) rfl, hs.frame (by rw [hpc]; rfl) rfl⟩
  | release x hx =>
    -- The slots of a storage that is released stay as they are.
    refine ⟨?_, hs⟩
    have hsame : stored len (w.mem.setHeap (w.mem.family.heap.release x)) = stored len w.mem :=
      stored_congr rfl rfl fun _ _ => rfl
    unfold Balanced
    rw [hsame]
    exact hb

/-- What is true in every state of a run. -/
theorem balanced_of_run {P : World bits T n → Action T n → Prop}
    (h : Run (World.step len) P World.init w) :
    Inv len w.mem w.pc ∧ Balanced len w ∧ Settled w := by
  refine h.invariant (fun w => Inv len w.mem w.pc ∧ Balanced len w ∧ Settled w)
    ⟨inv_init, ?_, ?_⟩ fun _ _ _ hi _ hs =>
      ⟨inv_step hlen hi.1 hs, balanced_step hlen hi.1 hi.2.1 hi.2.2 hs⟩
  · simp [Balanced, stored, World.init, offered, rejected, returned, results, holdsOf, values,
      Storage.new, Stacks.Family.empty, held]
  · simp [Settled, World.init, offered, rejected, accepted, results, argumentOf]

end runs

section rest

variable {s : Storage bits T}

/-- Nobody has a claim on a slot of the storage. -/
def Unowned (len : Nat) (s : Storage bits T) : Prop := ∀ i < len, Matches (cell len s i) none

/-- The instances of a storage that nobody uses are in valid slots. -/
theorem Unowned.contents_eq (h : Unowned len s) : contents len s = values len s := by
  refine Finset.sum_congr rfl fun i hi => ?_
  obtain ⟨howned, hslot⟩ := h i (Finset.mem_range.mp hi)
  split
  · rfl
  · rename_i hvalid
    have hinst : inst len s.metadata i = false := by
      have hfree : owned s.metadata i = false := howned
      simpa [valid, hfree] using hvalid
    have hnone : s.slots i = none := Option.isNone_iff_eq_none.mp
      (Option.isSome_eq_false_iff.mp (hslot.trans hinst))
    rw [hnone]
    rfl

/-- A storage without a valid slot that nobody uses has no instance. -/
theorem Unowned.values_dead (h : Unowned len s) (hd : Dead len s) : values len s = 0 := by
  rw [← h.contents_eq]
  refine Finset.sum_eq_zero fun i hi => if_neg ?_
  rw [hd i (Finset.mem_range.mp hi)]
  nofun

/-- The thread has no claim on a slot, and is not about to delete or to empty the storage in an
entry. -/
structure Free (p : Pc bits T) : Prop where
  claims : ∀ loc, claimsOf loc p = unclaimed
  taking : takingOf p = none
  deleting : deletingOf p = none
  popped : usesPopped p = false

theorem free_of_not_call {p : Pc bits T} (h : ∀ c, p ≠ .call c) : Free p := by
  cases p with
  | call c => exact absurd rfl (h c)
  | idle => exact ⟨fun _ => rfl, rfl, rfl, rfl⟩
  | drop c => exact ⟨fun _ => rfl, rfl, rfl, rfl⟩

/-- The storages when no thread uses them. `reach` are the entries from `newest` on. -/
structure Rest (len : Nat) (m : Mem bits T n) (reach : List Addr) : Prop where
  linked : Linked (Proofs.next m.family.heap) (m.family.newest none) reach
  nodup : reach.Nodup
  primary : Unowned len m.primary ∧ High len m.primary.metadata
  storages : ∀ x ∈ m.family.attached, Unowned len (m.storage x) ∧ High len (m.storage x).metadata
  attached : ∀ x ∈ reach, x ∈ m.family.attached
  dead : ∀ x ∈ m.family.attached, m.family.heap.isDeleted x = true → Dead len (m.storage x)
  live : ∀ x ∈ m.family.attached, m.family.heap.isDeleted x = false → x ∈ reach ∧
    Instantiated len (m.storage x)

variable {m : Mem bits T n} {reach : List Addr}

/-- An undeleted entry is in the stack `none` when the others are empty. -/
theorem owner_none {owner : Addr → Option (Fin n)} {tgt : Addr → Option Addr}
    (hs : Stacks m.family.heap m.family.attached owner m.family.newest tgt)
    (hpopped : ∀ t, m.family.newest (some t) = none) {x : Addr} (hx : x ∈ m.family.attached)
    (hlive : m.family.heap.isDeleted x = false) : owner x = none := by
  cases ho : owner x with
  | none => rfl
  | some t =>
    have hmem : x ∈ entries m.family.heap m.family.attached owner (some t) :=
      mem_entries.mpr ⟨hx, hlive, ho⟩
    rw [Stacks.entries_nil hs (hpopped t)] at hmem
    cases hmem

/-- What is in the stacks when all of them but `none` are empty. -/
theorem Rest.of_stacks {owner : Addr → Option (Fin n)} {tgt : Addr → Option Addr}
    (hs : Stacks m.family.heap m.family.attached owner m.family.newest tgt)
    (hpopped : ∀ t, m.family.newest (some t) = none)
    (hprimary : Unowned len m.primary ∧ High len m.primary.metadata)
    (hstorages : ∀ x ∈ m.family.attached,
      Unowned len (m.storage x) ∧ High len (m.storage x).metadata)
    (hdead : ∀ x ∈ m.family.attached, m.family.heap.isDeleted x = true → Dead len (m.storage x))
    (hlive : ∀ x ∈ m.family.attached, m.family.heap.isDeleted x = false →
      Instantiated len (m.storage x)) :
    ∃ reach, Rest len m reach ∧ reach.filter (fun x => !m.family.heap.isDeleted x) =
      entries m.family.heap m.family.attached owner none := by
  obtain ⟨reach, hl, hnodup, hatt⟩ := hs.heap.linked fun y hy => (hs.roots none y hy).1
  have heq := (hs.list none).unique (Threaded.of_linked hs.heap.skip hl)
  refine ⟨reach, ⟨hl, hnodup, hprimary, hstorages, hatt, hdead, fun x hx hx' => ⟨?_, hlive x hx hx'⟩⟩,
    heq.symm⟩
  have hmem : x ∈ entries m.family.heap m.family.attached owner none :=
    mem_entries.mpr ⟨hx, hx', owner_none hs hpopped hx hx'⟩
  rw [heq] at hmem
  exact (List.mem_filter.mp hmem).1

theorem rest {pc : Fin n → Pc bits T} (h : Inv len m pc) (hrest : ∀ t, Free (pc t)) :
    ∃ reach, Rest len m reach := by
  obtain ⟨owner, tgt, hf⟩ := h.family
  have hunowned : ∀ {s : Storage bits T} {loc}, StorageInv len s (claimsOf loc ∘ pc) →
      Unowned len s ∧ High len s.metadata := by
    intro s loc hs
    exact ⟨fun i hi => hs.free i hi fun t => congrFun ((hrest t).claims loc) i, hs.high⟩
  obtain ⟨reach, hr, -⟩ := Rest.of_stacks hf.words (fun t => h.popped t (hrest t).popped)
    (hunowned h.primary) (fun x hx => hunowned (h.storages x hx).2)
    (fun x hx hd => (h.dead x hx hd).resolve_right fun ⟨t, ht⟩ => by
      rw [(hrest t).taking] at ht
      cases ht)
    fun x hx hlive => (h.live x hx hlive).resolve_right fun ⟨t, ht⟩ => by
      rw [(hrest t).deleting] at ht
      cases ht
  exact ⟨reach, hr⟩

/-- The instances in the storages are in the valid slots of the storages in a list of entries
which has all undeleted ones. -/
theorem Rest.stored_eq (h : Rest len m reach) {l : List Addr} (hnodup : l.Nodup)
    (hsub : ∀ x ∈ l, x ∈ m.family.attached)
    (hlive : ∀ x ∈ m.family.attached, m.family.heap.isDeleted x = false → x ∈ l) :
    stored len m = contents len m.primary + (l.map fun x => contents len (m.storage x)).sum := by
  unfold stored
  rw [h.primary.1.contents_eq]
  have hsub' : l.toFinset ⊆ m.family.attached.toFinset := fun x hx =>
    List.mem_toFinset.mpr (hsub x (List.mem_toFinset.mp hx))
  have hzero : ∀ x ∈ m.family.attached.toFinset, x ∉ l.toFinset →
      values len (m.storage x) = 0 := by
    intro x hx hout
    have hx' := List.mem_toFinset.mp hx
    refine (h.storages x hx').1.values_dead (h.dead x hx' ?_)
    by_contra hdel
    exact hout (List.mem_toFinset.mpr (hlive x hx' ((Bool.not_eq_true _).mp hdel)))
  rw [← Finset.sum_subset hsub' hzero, List.sum_toFinset _ hnodup]
  refine congrArg _ (congrArg _ (List.map_congr_left fun x hx => ?_))
  exact ((h.storages x (hsub x hx)).1.contents_eq).symm

end rest

/-- What a call of `pop_all` has passed to `fold`, it has at hand. -/
theorem folded_le (p : Pc bits T) : folded p ≤ holdsOf p := by
  cases p with
  | call c =>
    cases c with
    | allPop acc c => exact le_refl _
    | allStorage x c => exact le_refl _
    | allPrimary c => exact le_refl _
    | _ => exact Multiset.zero_le _
  | idle => exact le_refl _
  | drop c => exact le_refl _

/-- No call reads a slot that holds no instance. -/
theorem CallOk.not_uninit {m : Mem bits T n} {c : Call bits T} (h : CallOk len m c) :
    ¬Uninit c := by
  intro hc
  unfold Uninit at hc
  split at hc
  · exact h
  · exact h
  · exact h
  · exact h
  · exact h
  · exact h.1
  · exact hc

/-- The values that were accepted are in the storages, at hand or outside, or those that are
offered in part are. -/
theorem accepted_eq (hbal : Balanced len w) (hset : Settled w) :
    stored len w.mem + ∑ t, holdsOf (w.pc t) + returned w.history =
      accepted w.history + ∑ t, argumentOf (w.pc t) := by
  refine add_right_cancel (b := rejected w.history) ?_
  calc stored len w.mem + ∑ t, holdsOf (w.pc t) + returned w.history + rejected w.history
      = offered w.history := by rw [hbal]; ac_rfl
    _ = accepted w.history + ∑ t, argumentOf (w.pc t) + rejected w.history := by
      rw [hset]
      ac_rfl

/-- When no call is in progress, the accepted values are in the storages, or came out. -/
theorem stored_add_handed (hbal : Balanced len w) (hset : Settled w) (hrest : AtRest w) :
    stored len w.mem + handed w = accepted w.history := by
  have hzero : ∀ {f : Pc bits T → Multiset T}, (∀ c, f (.drop c) = 0) → f .idle = 0 →
      ∑ t, f (w.pc t) = 0 := by
    intro f hdrop hidle
    refine Finset.sum_eq_zero fun t _ => ?_
    cases hpc : w.pc t with
    | call c => exact absurd hpc (hrest t c)
    | idle => exact hidle
    | drop c => exact hdrop c
  have heq := accepted_eq hbal hset
  rw [hzero (fun _ => rfl) rfl, hzero (fun _ => rfl) rfl, add_zero, add_zero] at heq
  unfold handed
  rw [hzero (fun _ => rfl) rfl, add_zero]
  exact heq

/-- A bag loses and duplicates nothing:

* what came out of the bag was accepted, or is the value of a call of `push` or `try_push` that
  has not returned, and it came out once for each time that it was pushed;
* no call reads a slot that holds no instance;
* when no call is in progress, the values in the valid slots of the primary storage and of the
  storages from `newest` on are the ones that were accepted and did not come out. -/
theorem conservation (hlen : ArrayLen bits len)
    (h : Run (World.step len) (fun _ _ => True) (World.init : World bits T n) w) :
    handed w ≤ accepted w.history + ∑ t, argumentOf (w.pc t) ∧
    (∀ t c, w.pc t = .call c → ¬Uninit c) ∧
    (AtRest w → ∃ reach, Linked (Proofs.next w.mem.family.heap) (w.mem.family.newest none) reach ∧
      contents len w.mem.primary + (reach.map fun x => contents len (w.mem.storage x)).sum +
        handed w = accepted w.history) := by
  obtain ⟨hinv, hbal, hset⟩ := balanced_of_run hlen h
  refine ⟨?_, fun t c hc => (hinv.calls t c hc).not_uninit, fun hrest => ?_⟩
  · calc handed w ≤ returned w.history + ∑ t, holdsOf (w.pc t) :=
        add_le_add_right (Finset.sum_le_sum fun t _ => folded_le (w.pc t)) _
      _ ≤ stored len w.mem + (∑ t, holdsOf (w.pc t) + returned w.history) := by
        rw [add_comm (returned w.history)]
        exact Multiset.le_add_left _ _
      _ = accepted w.history + ∑ t, argumentOf (w.pc t) := by
        rw [← accepted_eq hbal hset, add_assoc]
  · obtain ⟨reach, hr⟩ := rest hinv fun t => free_of_not_call (hrest t)
    refine ⟨reach, hr.linked, ?_⟩
    rw [← hr.stored_eq hr.nodup hr.attached fun x hx hlive => (hr.live x hx hlive).1]
    exact stored_add_handed hbal hset hrest

/-- For the concrete runs: a thread calls a method and makes `k` accesses. -/
def call (t : Fin n) (op : Op T) (k : Nat) : List (Action T n) :=
  .thread t (.invoke op) :: List.replicate k (.thread t (.proceed false))

/-- The threads are idle, for the concrete runs. -/
def allIdle (w : World bits T n) : Bool := (List.finRange n).all fun t => match w.pc t with
  | .idle => true
  | _ => false

theorem atRest_of_allIdle (h : allIdle w = true) : AtRest w := by
  intro t c hpc
  have hidle := List.all_eq_true.mp h t (List.mem_finRange t)
  rw [hpc] at hidle
  cases hidle

/-- Two values are pushed, the latter into a new storage, and `pop_all` folds them while a third
one is pushed. -/
theorem conservation_folded : ∃ w : World 64 Nat 2, accepted w.history = {5, 7, 9} ∧
    handed w = {7, 5} ∧ ∃ reach, Linked (Proofs.next w.mem.family.heap)
      (w.mem.family.newest none) reach ∧ contents 1 w.mem.primary +
        (reach.map fun x => contents 1 (w.mem.storage x)).sum + {7, 5} = {5, 7, 9} := by
  have h : (exec (World.step 1) (fun _ _ => true) (World.init : World 64 Nat 2)
      (call 0 (.push 5) 4 ++ call 0 (.push 7) 5 ++ call 1 .popAll 15 ++ call 0 (.push 9) 5 ++
        List.replicate 3 (.thread 1 (.proceed false)))).any (fun w =>
      allIdle w && decide (accepted w.history = {5, 7, 9} ∧ handed w = {7, 5})) = true := by
    decide +kernel
  obtain ⟨w, hw, h⟩ := Run.of_exec_any h
  rw [Bool.and_eq_true, decide_eq_true_eq] at h
  obtain ⟨hidle, hacc, hhanded⟩ := h
  obtain ⟨reach, hl, heq⟩ := (conservation ⟨by decide, by decide, by decide⟩
    (hw.mono fun _ _ _ => trivial)).2.2 (atRest_of_allIdle hidle)
  rw [hacc, hhanded] at heq
  exact ⟨w, hacc, hhanded, reach, hl, heq⟩

end Sdd.Proofs.Bag
