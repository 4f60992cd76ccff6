import Sdd.Proofs.Stacks.Family

/-!
# `Sdd.Proofs.Stacks.Effects`: what a call on a stack does

The accesses of a call on a stack, by what a program that uses the stack can see of them: an entry
is attached, an entry is deleted, or neither (`Effect`). A call returns in the first or in the
last case, with an answer to its operation (`Answer`).
-/

set_option autoImplicit false

namespace Sdd.Proofs.Stacks

open Sdd.Stack (Call Clean Mem Op Push Res)
open Sdd.Proofs.Stack (Stacks CallInv cleanNext_outcome)

variable {T ι : Type} [DecidableEq ι] {m : Mem T} {owner : Addr → ι} {word : ι → Option Addr}
  {tgt : Addr → Option Addr} {k : Clean T} {o : Option Addr}

/-- The entry that a thread which cleans up has deleted. -/
def cleanDeleted : Clean T → Option Addr
  | .popped _ e => some e
  | .push _ | .popIf _ | .peek | .isEmpty => none

/-- The entry that a call has deleted. -/
def deleted : Call T → Option Addr
  | .loadNewest k | .cleanDeleted k _ | .cleanNext k _ _ | .cleanExchange k _ _ => cleanDeleted k
  | .swapLink _ _ _ | .attach _ _ _ | .popGetShared _ _ | .popDeleted _ _ | .popDelete _ _ => none

/-- The operation is answered without an entry that is attached now. `d` is the entry that the
call has deleted, and `m` is the state in which it returns. -/
def Answer (m : Mem T) (d : Option Addr) (op : Op T) : Res → Prop
  | .pushed _ => False
  | .rejected => ∃ val cond o, op = .pushIf val cond ∧ cond o = false
  | .popped none => ∃ cond, op = .popIf cond ∧ d = none ∧ m.newest = none
  | .popped (some e) => ∃ cond, op = .popIf cond ∧ d = some e
  | .refused e => ∃ cond, op = .popIf cond ∧ e ∈ m.attached ∧ (m.heap.value e).any cond = false
  | .peeked none => op = .peek ∧ m.newest = none
  | .peeked (some e) => op = .peek ∧ m.heap.isDeleted e = false
  | .empty _ => op = .isEmpty

/-- An access that attaches and deletes nothing. -/
structure Quiet (m : Mem T) (d : Option Addr) (op : Op T) (r : Mem T × Outcome (Call T) Res) :
    Prop where
  attached : r.1.attached = m.attached
  isDeleted : r.1.heap.isDeleted = m.heap.isDeleted
  running : ∀ c, r.2 = .running c → deleted c = d ∧ c.op = op
  done : ∀ res, r.2 = .done res → Answer r.1 d op res

/-- What a program sees of an access. -/
inductive Effect (m : Mem T) (c : Call T) : Mem T × Outcome (Call T) Res → Prop where
  | attach (p : Push T) (e : Addr) (hc : c = .attach p e m.newest) :
      Effect m c ({ m with
          newest := some e
          attached := e :: m.attached
          cond := Function.update m.cond e p.cond }, .done (.pushed e))
  | delete (cond : T → Bool) (x : Addr) (hc : c = .popDelete cond x)
      (hlive : m.heap.isDeleted x = false) :
      Effect m c ({ m with heap := (m.heap.deleteSelf x).1 },
        .running (.cleanDeleted (.popped cond x) x))
  | quiet {r : Mem T × Outcome (Call T) Res} (h : Quiet m (deleted c) c.op r) : Effect m c r

/-- The answer to `peek`. -/
theorem Answer.of_peek {d : Option Addr} {res : Res} (h : Answer m d .peek res) :
    ∃ o, res = .peeked o := by
  cases res with
  | peeked o => exact ⟨o, rfl⟩
  | popped o =>
    cases o with
    | none =>
      obtain ⟨_, hop, -⟩ := h
      cases hop
    | some e =>
      obtain ⟨_, hop, -⟩ := h
      cases hop
  | rejected =>
    obtain ⟨_, _, _, hop, -⟩ := h
    cases hop
  | refused e =>
    obtain ⟨_, hop, -⟩ := h
    cases hop
  | pushed e => exact h.elim
  | empty b => cases h

/-- The answer to `is_empty`. -/
theorem Answer.of_isEmpty {d : Option Addr} {res : Res} (h : Answer m d .isEmpty res) :
    ∃ b, res = .empty b := by
  cases res with
  | empty b => exact ⟨b, rfl⟩
  | popped o =>
    cases o with
    | none =>
      obtain ⟨_, hop, -⟩ := h
      cases hop
    | some e =>
      obtain ⟨_, hop, -⟩ := h
      cases hop
  | rejected =>
    obtain ⟨_, _, _, hop, -⟩ := h
    cases hop
  | refused e =>
    obtain ⟨_, hop, -⟩ := h
    cases hop
  | pushed e => exact h.elim
  | peeked o =>
    cases o with
    | none => cases h.1
    | some e => cases h.1

/-- `peek` and `is_empty` attach and delete nothing. -/
theorem Effect.quiet_of {c : Call T} {r : Mem T × Outcome (Call T) Res} (h : Effect m c r)
    (hop : c.op = .peek ∨ c.op = .isEmpty) : Quiet m (deleted c) c.op r := by
  cases h with
  | attach p e hc =>
    subst hc
    rcases hop with hop | hop <;> cases hop
  | delete cond x hc hlive =>
    subst hc
    rcases hop with hop | hop <;> cases hop
  | quiet h => exact h

/-- An access after which the call goes on. -/
theorem Quiet.goes {m' : Mem T} {d : Option Addr} {op : Op T} {c : Call T}
    (hatt : m'.attached = m.attached) (hdel : m'.heap.isDeleted = m.heap.isDeleted)
    (hc : deleted c = d ∧ c.op = op) : Quiet m d op (m', .running c) where
  attached := hatt
  isDeleted := hdel
  running c' hc' := by
    cases hc'
    exact hc
  done res hres := by cases hres

/-- An access after which the call returns. -/
theorem Quiet.returns {m' : Mem T} {d : Option Addr} {op : Op T} {res : Res}
    (hatt : m'.attached = m.attached) (hdel : m'.heap.isDeleted = m.heap.isDeleted)
    (hres : Answer m' d op res) : Quiet m d op (m', .done res) where
  attached := hatt
  isDeleted := hdel
  running c hc := by cases hc
  done res' hres' := by
    cases hres'
    exact hres

section walk

variable {m' : Mem T} (hatt : m'.attached = m.attached)
  (hdel : m'.heap.isDeleted = m.heap.isDeleted)
include hatt hdel

/-- The condition of `push_if` is evaluated. -/
theorem evaluate_quiet (p : Push T) : Quiet m none (.pushIf p.val p.cond) (m'.evaluate p o) := by
  unfold Mem.evaluate
  split
  · split
    · exact .goes hatt hdel ⟨rfl, rfl⟩
    · exact .goes hatt hdel ⟨rfl, rfl⟩
  · rename_i hcond
    exact .returns hatt hdel ⟨_, _, _, rfl, (Bool.not_eq_true _).mp hcond⟩

/-- `cleanup_newest` returns. -/
theorem cleaned_quiet (hnone : o = none → m'.newest = none)
    (hlive : ∀ x, o = some x → m.heap.isDeleted x = false) :
    Quiet m (cleanDeleted k) k.op (m'.cleaned k o) := by
  unfold Mem.cleaned
  cases k with
  | push p => exact evaluate_quiet hatt hdel p
  | popIf cond =>
    cases o with
    | none => exact .returns hatt hdel ⟨cond, rfl, rfl, hnone rfl⟩
    | some x => exact .goes hatt hdel ⟨rfl, rfl⟩
  | popped cond e => exact .returns hatt hdel ⟨cond, rfl, rfl⟩
  | peek =>
    cases o with
    | none => exact .returns hatt hdel ⟨rfl, hnone rfl⟩
    | some x => exact .returns hatt hdel ⟨rfl, (congrFun hdel x).trans (hlive x rfl)⟩
  | isEmpty => exact .returns hatt hdel rfl

/-- One turn of the loop of `cleanup_newest`. -/
theorem cleanup_quiet (ho : o = m'.newest) : Quiet m (cleanDeleted k) k.op (m'.cleanup k o) := by
  cases o with
  | none => exact cleaned_quiet hatt hdel (fun _ => ho.symm) nofun
  | some x => exact .goes hatt hdel ⟨rfl, rfl⟩

end walk

/-- One access of a call. -/
theorem step_effect {c : Call T} (hs : Stacks m.heap m.attached owner word tgt)
    (hc : CallInv m.heap m.attached tgt c)
    (hheld : ∀ x, c.holds x = true → m.heap.released x = false) : Effect m c (m.step c) := by
  cases c with
  | loadNewest k => exact .quiet (cleanup_quiet rfl rfl rfl)
  | cleanDeleted k x =>
    simp only [Mem.step]
    split
    · exact .quiet (.goes rfl rfl ⟨rfl, rfl⟩)
    · rename_i hlive
      refine .quiet (cleaned_quiet rfl rfl (by simp) fun y hy => ?_)
      cases hy
      exact (Bool.not_eq_true _).mp hlive
  | cleanNext k x call =>
    obtain ⟨hclean, -⟩ := cleanNext_outcome (m := m) hs hc hheld
    refine .quiet ?_
    simp only [Mem.step]
    unfold Mem.cleanNext
    split
    · exact .goes rfl hclean.isDeleted_eq ⟨rfl, rfl⟩
    · exact .goes rfl hclean.isDeleted_eq ⟨rfl, rfl⟩
  | cleanExchange k x next =>
    simp only [Mem.step]
    split
    · exact .quiet (cleanup_quiet rfl rfl rfl)
    · exact .quiet (cleanup_quiet rfl rfl rfl)
  | swapLink p e newest =>
    obtain ⟨hp, hentry, -⟩ := hc
    have hlive := hs.unattached e (hp e hentry).2.1
    exact .quiet (.goes rfl (isDeleted_private hlive) ⟨rfl, rfl⟩)
  | attach p e newest =>
    simp only [Mem.step]
    split
    · rename_i hnewest
      exact .attach p e (by rw [hnewest])
    · exact .quiet (cleanup_quiet (k := .push p) rfl rfl rfl)
  | popGetShared cond x =>
    simp only [Mem.step]
    split
    · exact .quiet (.goes rfl rfl ⟨rfl, rfl⟩)
    · exact .quiet (.goes rfl rfl ⟨rfl, rfl⟩)
  | popDeleted cond x =>
    simp only [Mem.step]
    split
    · rename_i hcond
      refine .quiet (.returns rfl rfl ⟨cond, rfl, hc, ?_⟩)
      simp only [Bool.and_eq_true, Bool.not_eq_true'] at hcond
      exact hcond.2
    · exact .quiet (.goes rfl rfl ⟨rfl, rfl⟩)
  | popDelete cond x =>
    cases hlive : m.heap.isDeleted x with
    | true =>
      simp only [Mem.step, deleteSelf_dead hlive]
      exact .quiet (.goes rfl rfl ⟨rfl, rfl⟩)
    | false =>
      have hstep : m.step (.popDelete cond x) = ({ m with heap := (m.heap.deleteSelf x).1 },
          .running (.cleanDeleted (.popped cond x) x)) := by
        simp only [Mem.step, deleteSelf_eq hlive]
      rw [hstep]
      exact .delete cond x rfl hlive

/-- A call that has deleted an entry is one of `pop_if`, and holds a `Shared` of the entry. -/
theorem deleted_op {c : Call T} {x : Addr} (h : deleted c = some x) :
    (∃ cond, c.op = .popIf cond) ∧ c.holds x = true := by
  have hclean : ∀ {k : Clean T}, cleanDeleted k = some x →
      (∃ cond, k.op = .popIf cond) ∧ k.holds = some x := by
    intro k hk
    cases k with
    | popped cond e =>
      cases hk
      exact ⟨⟨cond, rfl⟩, rfl⟩
    | _ => cases hk
  cases c with
  | loadNewest k =>
    obtain ⟨hop, hx⟩ := hclean h
    exact ⟨hop, by simp [Call.holds, hx]⟩
  | cleanDeleted k y =>
    obtain ⟨hop, hx⟩ := hclean h
    exact ⟨hop, by simp [Call.holds, hx]⟩
  | cleanNext k y call =>
    obtain ⟨hop, hx⟩ := hclean h
    exact ⟨hop, by simp [Call.holds, hx]⟩
  | cleanExchange k y next =>
    obtain ⟨hop, hx⟩ := hclean h
    exact ⟨hop, by simp [Call.holds, hx]⟩
  | _ => cases h

/-- A call begins. -/
theorem deleted_start (op : Op T) : deleted (Call.start op) = none := by
  cases op <;> rfl

/-- Where a thread can go when a call returns. -/
inductive Leaves (res : Res) : Place T → Prop where
  | none : Leaves res .none
  | start (op : Op T) : Leaves res (.call (.start op))
  | peeked (x : Addr) (h : res = .peeked (some x)) : Leaves res (.uses x false)
  | popped (x : Addr) (h : res = .popped (some x)) : Leaves res (.uses x true)

/-- Where a thread goes after an access. -/
def Goes (p : Place T) : Outcome (Call T) Res → Prop
  | .running c => p = .call c
  | .done res => Leaves res p

section family

variable {n : Nat} {f : Stacks.Family T ι} {place : Fin n → Place T} {t : Fin n} {c : Call T}
  {p : Place T}

/-- What one access of a call leaves to the program. -/
structure CallAfter (f : Stacks.Family T ι) (i : ι) (place : Fin n → Place T) (t : Fin n)
    (c : Call T) (p : Place T) : Prop where
  inv : ∃ owner tgt,
    FamilyInv (f.setMem i ((f.mem i).step c).1) owner tgt (Function.update place t p)
  effect : Effect (f.mem i) c ((f.mem i).step c)
  value : ∀ x ∈ f.attached, ((f.mem i).step c).1.heap.value x = f.heap.value x
  entry : ∀ q e, c = .attach q e (f.newest i) →
    e ∉ f.attached ∧ ((f.mem i).step c).1.heap.value e = some q.val
  popped : ∀ x, ((f.mem i).step c).2 = .done (.popped (some x)) →
    ((f.mem i).step c).1.heap.isDeleted x = true

/-- One access of a call on the stack `i`. -/
theorem FamilyInv.callAfter (h : FamilyInv f owner tgt place) (hc : place t = .call c) (i : ι)
    (hp : Goes p ((f.mem i).step c).2) : CallAfter f i place t c p := by
  have hok := h.ok t
  rw [hc] at hok
  have hheld : ∀ x, c.holds x = true → f.heap.released x = false := fun x hx =>
    h.held t x (by rw [hc]; exact hx)
  have heffect := step_effect (m := f.mem i) h.words hok hheld
  obtain ⟨owner', tgt', hmoved, hgo⟩ := h.call hc i
  constructor
  case inv =>
    refine ⟨owner', tgt', hgo p ?_⟩
    have hout := hmoved.outcome
    cases hstep : ((f.mem i).step c).2 with
    | running c' =>
      rw [hstep] at hp
      exact hp
    | done res =>
      rw [hstep] at hp hout
      cases hp with
      | none => exact .of_none trivial (fun x hx => (by cases hx)) rfl
      | start op =>
        refine .of_none (Stack.callInv_start op) (fun x hx => ?_) ?_
        · cases op <;> cases hx
        · cases op <;> rfl
      | peeked x hres =>
        cases hres
        exact .of_none hout (fun y hy => (by cases hy)) rfl
      | popped x hres =>
        cases hres
        refine .of_none hout.1 (fun y hy => ?_) rfl
        have hxy : x = y := by simpa [Place.holds] using hy
        -- The call has held a `Shared` of the entry that it has deleted.
        have hdel : deleted c = some x := by
          generalize (f.mem i).step c = r at heffect hstep
          cases heffect with
          | attach q e hq => cases hstep
          | delete cond z hz hlive => cases hstep
          | quiet hquiet => exact (hquiet.done _ hstep).choose_spec.2
        show ((f.mem i).step c).1.heap.released y = false
        rw [hmoved.released, ← hxy]
        exact hheld x (deleted_op hdel).2
  case effect => exact heffect
  case value => exact fun x hx => hmoved.value x (h.words.heap.bound x hx)
  case entry =>
    intro q e hq
    subst hq
    obtain ⟨hpush, hentry, -⟩ := hok
    obtain ⟨hlt, hnot, hval⟩ := hpush e hentry
    exact ⟨hnot, (hmoved.value e hlt).trans hval⟩
  case popped =>
    intro x hx
    have hout := hmoved.outcome
    rw [hx] at hout
    exact hout.2

end family

end Sdd.Proofs.Stacks
