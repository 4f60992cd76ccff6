import Sdd.Proofs.Stack.Linearizable

/-!
# `Sdd.Proofs.Stack.PushIf`: the condition of `push_if`

`push_if` evaluates its condition on the entry in `newest`, and attaches its entry when
`newest` still refers to that entry. The deletion of an entry is recorded in the link of the
entry, so that it can be deleted in between. `pushIf_linearizable` is about runs in which the
condition still holds of the newest undeleted entry at that moment, and in which no entry is
deleted below one whose condition does not hold of what is then directly below it
(`agreesAction`). In `pushIf_misplaced` an entry is attached above a deleted one, for which its
condition is false, and no order of the operations explains the answers.
-/

set_option autoImplicit false

namespace Sdd.Proofs.Stack

open Sdd.Lib Sdd.Lib.Linearize Sdd.Stack

variable {T : Type} {n : Nat} {P : World T n → Action T n → Prop} {w w' : World T n}

/-- In every run in which each entry is attached while its condition holds of the newest
undeleted entry, and in which the deletion of an entry leaves the entry directly above it with
an entry directly below for which its condition holds: the history is linearizable. `P` can
describe the run further. -/
theorem pushIf_linearizable (hP : ∀ x a, P x a → agreesAction x a = true)
    (h : Run World.step P World.init w) : Linearizable Lifo.Step ⟨[], []⟩ w.history := by
  obtain ⟨-, L, q, he⟩ := linear_of_run (J := fun _ => True) trivial (fun _ _ _ _ _ _ => trivial)
    (fun x a _ hp => hP x a hp) h
  exact ⟨L, _, he.trace, he.history⟩

section misplaced

/-- The history of a stack with one entry. A `push_if` whose condition does not hold of an
empty stack returns `Ok`, and then a `pop` that has begun before returns the first entry. -/
def misplaced : List (Event (Fin 2) (Op Bool) Res) → Bool
  | [.invoke 0 (.pushIf true _), .result 0 _ (.pushed 0), .invoke 0 (.pushIf _ cond),
      .invoke 1 (.popIf _), .result 0 _ (.pushed 1), .result 1 _ (.popped (some 0))] =>
    !cond none
  | _ => false

variable {val : Bool} {first cond : Option Bool → Bool} {want : Bool → Bool}

/-- A configuration of two threads. -/
abbrev Two := Config (Fin 2) (Op Bool) Res (Lifo Bool)

/-- No operation is in progress. -/
def Idle (s : Lifo Bool) (c : Two) : Prop :=
  c.status 0 = .idle ∧ c.status 1 = .idle ∧ c.state = s

/-- The first push is in progress. -/
def Pushing (first : Option Bool → Bool) (c : Two) : Prop :=
  c.status 1 = .idle ∧
    ((c.status 0 = .pending (.pushIf true first) ∧ c.state = ⟨[], []⟩) ∨
      ∃ res, c.status 0 = .decided (.pushIf true first) res ∧
        ∀ e, res = .pushed e → c.state = ⟨[e], [(e, true)]⟩)

/-- The conditional push is in progress. -/
def Trying (val : Bool) (cond : Option Bool → Bool) (c : Two) : Prop :=
  c.status 1 = .idle ∧
    ((c.status 0 = .pending (.pushIf val cond) ∧ c.state = ⟨[0], [(0, true)]⟩) ∨
      (∃ e r, e ≠ 0 ∧ c.status 0 = .decided (.pushIf val cond) (.pushed e) ∧
        c.state.stack = (e, val) :: r) ∨
      c.status 0 = .decided (.pushIf val cond) .rejected)

/-- The pop is in progress as well. If it has returned the first entry, the push has not
succeeded and will not. -/
inductive Both (val : Bool) (cond : Option Bool → Bool) (want : Bool → Bool) (c : Two) : Prop where
  | start (h₀ : c.status 0 = .pending (.pushIf val cond)) (h₁ : c.status 1 = .pending (.popIf want))
      (hs : c.state = ⟨[0], [(0, true)]⟩)
  | pushed (e : Addr) (r : List (Addr × Bool)) (he : e ≠ 0)
      (h₀ : c.status 0 = .decided (.pushIf val cond) (.pushed e))
      (h₁ : c.status 1 = .pending (.popIf want)) (hs : c.state.stack = (e, val) :: r)
  | other (res : Res) (h₁ : c.status 1 = .decided (.popIf want) res)
      (hres : res ≠ .popped (some 0))
  | popped (h₀ : c.status 0 = .pending (.pushIf val cond))
      (h₁ : c.status 1 = .decided (.popIf want) (.popped (some 0))) (hs : c.state.stack = [])
  | rejected (h₀ : c.status 0 = .decided (.pushIf val cond) .rejected)

/-- The push has returned `Ok`, and the pop does not return the first entry. -/
def Late (want : Bool → Bool) (c : Two) : Prop :=
  c.status 0 = .idle ∧
    ((∃ e x r, e ≠ 0 ∧ c.status 1 = .pending (.popIf want) ∧ c.state.stack = (e, x) :: r) ∨
      ∃ res, c.status 1 = .decided (.popIf want) res ∧ res ≠ .popped (some 0))

/-- There are two threads. -/
theorem fin_two (t : Fin 2) : t = 0 ∨ t = 1 := by
  decide +revert

/-- No operation is in progress that could take effect. -/
theorem idle_effect {q : Lifo Bool} (c : Two) (t : Fin 2) (op : Op Bool) (res : Res)
    (s : Lifo Bool) (h : Idle q c) (ht : c.status t = .pending op) (_ : Lifo.Step c.state op res s) :
    Idle q ⟨Function.update c.status t (.decided op res), s⟩ := by
  obtain ⟨h₀, h₁, -⟩ := h
  rcases fin_two t with rfl | rfl
  · rw [h₀] at ht
    cases ht
  · rw [h₁] at ht
    cases ht

/-- The effect of the first push, on the empty stack. -/
theorem pushing_effect (c : Two) (t : Fin 2) (op : Op Bool) (res : Res) (s : Lifo Bool)
    (h : Pushing first c) (ht : c.status t = .pending op) (hs : Lifo.Step c.state op res s) :
    Pushing first ⟨Function.update c.status t (.decided op res), s⟩ := by
  obtain ⟨h₁, h₀⟩ := h
  rcases fin_two t with rfl | rfl
  · rcases h₀ with ⟨h₀, hstate⟩ | ⟨res', h₀, -⟩
    · rw [h₀] at ht
      cases ht
      refine ⟨h₁, .inr ⟨res, rfl, fun e he => ?_⟩⟩
      cases hs with
      | push val' cond' e' he' hcond =>
        cases he
        rw [hstate]
      | reject val' cond' hcond => cases he
    · rw [h₀] at ht
      cases ht
  · rw [h₁] at ht
    cases ht

/-- The effect of the conditional push, on the stack with one entry. -/
theorem trying_effect (c : Two) (t : Fin 2) (op : Op Bool) (res : Res) (s : Lifo Bool)
    (h : Trying val cond c) (ht : c.status t = .pending op) (hs : Lifo.Step c.state op res s) :
    Trying val cond ⟨Function.update c.status t (.decided op res), s⟩ := by
  obtain ⟨h₁, h₀⟩ := h
  rcases fin_two t with rfl | rfl
  · refine ⟨h₁, .inr ?_⟩
    rcases h₀ with ⟨h₀, hstate⟩ | ⟨e, r, -, h₀, -⟩ | h₀
    · rw [h₀] at ht
      cases ht
      rw [hstate] at hs
      cases hs with
      | push val' cond' e he hmet =>
        have hne : e ≠ 0 := fun hc => he (hc ▸ List.mem_cons_self)
        exact .inl ⟨e, _, hne, rfl, rfl⟩
      | reject val' cond' hmet => exact .inr rfl
    · rw [h₀] at ht
      cases ht
    · rw [h₀] at ht
      cases ht
  · rw [h₁] at ht
    cases ht

/-- The effect of the conditional push or of the pop. -/
theorem both_effect (hnone : cond none = false) (c : Two) (t : Fin 2) (op : Op Bool)
    (res : Res) (s : Lifo Bool) (h : Both val cond want c) (ht : c.status t = .pending op)
    (hs : Lifo.Step c.state op res s) :
    Both val cond want ⟨Function.update c.status t (.decided op res), s⟩ := by
  cases h with
  | start h₀ h₁ hstate =>
    rw [hstate] at hs
    rcases fin_two t with rfl | rfl
    · rw [h₀] at ht
      cases ht
      cases hs with
      | push val' cond' e he hmet =>
        have hne : e ≠ 0 := fun hc => he (hc ▸ List.mem_cons_self)
        exact .pushed e _ hne rfl h₁ rfl
      | reject val' cond' hmet => exact .rejected rfl
    · rw [h₁] at ht
      cases ht
      cases hs with
      | empty cond' hnil => cases hnil
      | pop cond' e x rest hq hmet =>
        cases hq
        exact .popped h₀ rfl rfl
      | refuse cond' e x hq hmet => exact .other _ rfl nofun
  | pushed e r he h₀ h₁ hstack =>
    rcases fin_two t with rfl | rfl
    · rw [h₀] at ht
      cases ht
    · rw [h₁] at ht
      cases ht
      refine .other res rfl ?_
      cases hs with
      | empty cond' hnil => exact nofun
      | pop cond' e' x rest hq hmet =>
        rw [hstack] at hq
        cases hq
        intro hc
        cases hc
        exact he rfl
      | refuse cond' e' x hq hmet => exact nofun
  | other res' h₁ hres =>
    rcases fin_two t with rfl | rfl
    · exact .other res' h₁ hres
    · rw [h₁] at ht
      cases ht
  | popped h₀ h₁ hstack =>
    rcases fin_two t with rfl | rfl
    · rw [h₀] at ht
      cases ht
      cases hs with
      | push val' cond' e he hmet =>
        rw [hstack] at hmet
        change cond none = true at hmet
        rw [hnone] at hmet
        cases hmet
      | reject val' cond' hmet => exact .rejected rfl
    · rw [h₁] at ht
      cases ht
  | rejected h₀ =>
    rcases fin_two t with rfl | rfl
    · rw [h₀] at ht
      cases ht
    · exact .rejected h₀

/-- The effect of the pop after the conditional push has returned. -/
theorem late_effect (c : Two) (t : Fin 2) (op : Op Bool) (res : Res) (s : Lifo Bool)
    (h : Late want c) (ht : c.status t = .pending op) (hs : Lifo.Step c.state op res s) :
    Late want ⟨Function.update c.status t (.decided op res), s⟩ := by
  obtain ⟨h₀, h₁⟩ := h
  rcases fin_two t with rfl | rfl
  · rw [h₀] at ht
    cases ht
  · refine ⟨h₀, .inr ⟨res, ?_⟩⟩
    rcases h₁ with ⟨e, x, r, he, h₁, hstack⟩ | ⟨res', h₁, -⟩
    · rw [h₁] at ht
      cases ht
      refine ⟨rfl, ?_⟩
      cases hs with
      | empty cond' hnil => exact nofun
      | pop cond' e' x' rest hq hmet =>
        rw [hstack] at hq
        cases hq
        intro hc
        cases hc
        exact he rfl
      | refuse cond' e' x' hq hmet => exact nofun
    · rw [h₁] at ht
      cases ht

/-- Such a history is not linearizable: if the pop comes before the conditional push, this
finds an empty stack, and otherwise the first entry is not the newest one. -/
theorem not_linearizable_of_misplaced {H : List (Event (Fin 2) (Op Bool) Res)}
    (hH : misplaced H = true) : ¬Linearizable Lifo.Step ⟨[], []⟩ H := by
  unfold misplaced at hH
  split at hH
  · rename_i first op₁ val cond want op₂ op₃
    rw [Bool.not_eq_true'] at hH
    rintro ⟨L, c, h, hL⟩
    have hstart : Idle ⟨[], []⟩ (.start ⟨[], []⟩) := ⟨rfl, rfl, rfl⟩
    obtain ⟨L₁, c₁, h₁⟩ := Trace.advance (J := Pushing first) ⟨hstart, h, hL⟩ idle_effect
      fun c c' hc hm => by
        cases hm with
        | invoke t op ht => exact ⟨hc.2.1, .inl ⟨rfl, hc.2.2⟩⟩
    obtain ⟨L₂, c₂, h₂⟩ := Trace.advance (J := Idle ⟨[0], [(0, true)]⟩) h₁ pushing_effect
      fun c c' hc hm => by
        cases hm with
        | result t op res ht =>
          obtain ⟨hc₁, ⟨hc₀, -⟩ | ⟨res', hc₀, hres⟩⟩ := hc
          · rw [hc₀] at ht
            cases ht
          · rw [hc₀] at ht
            cases ht
            exact ⟨rfl, hc₁, hres 0 rfl⟩
    obtain ⟨L₃, c₃, h₃⟩ := Trace.advance (J := Trying val cond) h₂ idle_effect
      fun c c' hc hm => by
        cases hm with
        | invoke t op ht => exact ⟨hc.2.1, .inl ⟨rfl, hc.2.2⟩⟩
    obtain ⟨L₄, c₄, h₄⟩ := Trace.advance (J := Both val cond want) h₃ trying_effect
      fun c c' hc hm => by
        cases hm with
        | invoke t op ht =>
          obtain ⟨-, ⟨hc₀, hstate⟩ | ⟨e, r, he, hc₀, hstack⟩ | hc₀⟩ := hc
          · exact .start hc₀ rfl hstate
          · exact .pushed e r he hc₀ rfl hstack
          · exact .rejected hc₀
    obtain ⟨L₅, c₅, h₅⟩ := Trace.advance (J := Late want) h₄ (both_effect hH)
      fun c c' hc hm => by
        cases hm with
        | result t op res ht =>
          cases hc with
          | start hc₀ hc₁ hstate =>
            rw [hc₀] at ht
            cases ht
          | pushed e r he hc₀ hc₁ hstack => exact ⟨rfl, .inl ⟨e, val, r, he, hc₁, hstack⟩⟩
          | other res hc₁ hres => exact ⟨rfl, .inr ⟨res, hc₁, hres⟩⟩
          | popped hc₀ hc₁ hstack =>
            rw [hc₀] at ht
            cases ht
          | rejected hc₀ =>
            rw [hc₀] at ht
            cases ht
    obtain ⟨-, -, hfalse, -⟩ := Trace.advance (J := fun _ => False) h₅ late_effect
      fun c c' hc hm => by
        cases hm with
        | result t op res ht =>
          obtain ⟨-, ⟨e, x, r, -, hc₁, -⟩ | ⟨res, hc₁, hres⟩⟩ := hc
          · rw [hc₁] at ht
            cases ht
          · rw [hc₁] at ht
            cases ht
            exact hres rfl
    exact hfalse
  · cases hH

end misplaced

/-- The thread 1 finds the entry that the thread 0 has pushed. The thread 0 calls `push_if`,
with a condition that holds of this entry. The thread 1 deletes the entry, and before it has
removed it from `newest` the thread 0 attaches its new entry above it. -/
theorem pushIf_misplaced : ∃ w : World Bool 2,
    Run World.step (fun _ _ => True) World.init w ∧
      ¬Linearizable Lifo.Step ⟨[], []⟩ w.history := by
  have h : (exec World.step (fun _ _ => true) World.init
      ([invoke 0 (.push true)] ++ proceeds 0 3 ++
        [invoke 0 (.pushIf false fun o => o == some true)] ++ proceeds 0 3 ++ [invoke 1 .pop] ++
        proceeds 1 5 ++ proceeds 0 1 ++ proceeds 1 4)).any
      (fun w : World Bool 2 => misplaced w.history) = true := by
    decide +kernel
  obtain ⟨w, hr, hw⟩ := Run.of_exec_any h
  exact ⟨w, hr.mono fun _ _ _ => trivial, not_linearizable_of_misplaced hw⟩

/-- The same threads, with a condition that holds of an empty stack as well. -/
theorem pushIf_linearizable_empty : ∃ w : World Bool 2,
    w.mem.contents = [1] ∧ Linearizable Lifo.Step ⟨[], []⟩ w.history := by
  have h : (exec World.step agreesAction World.init
      ([invoke 0 (.push true)] ++ proceeds 0 3 ++
        [invoke 0 (.pushIf false fun o => o != some false)] ++ proceeds 0 3 ++ [invoke 1 .pop] ++
        proceeds 1 5 ++ proceeds 0 1 ++ proceeds 1 4)).any
      (fun w : World Bool 2 => w.mem.contents == [1]) = true := by
    decide +kernel
  obtain ⟨w, hr, hw⟩ := Run.of_exec_any h
  exact ⟨w, beq_iff_eq.mp hw, pushIf_linearizable (fun _ _ hx => hx) hr⟩

end Sdd.Proofs.Stack
