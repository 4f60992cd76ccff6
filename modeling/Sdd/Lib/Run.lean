/-!
# `Sdd.Lib.Run`: runs of a transition function

A system is a partial transition function `step : S → A → Option S`: `step s a` is the
state after the action `a`, and `none` when `a` is not enabled in `s`. `Run step P s s'`
says that some sequence of actions leads from `s` to `s'` such that every action meets
`P` in the state it starts from. The predicate `P` restricts the runs: it can name the
actions that occur, or the states they start from.

`Run.invariant` is the induction every safety proof uses: what the first state has and
each step keeps, the last state has. `During` speaks of a moment in the past of a run: a
state since which some part of the system has not changed. `exec` runs a list of actions and
checks each one with a decidable predicate, so that a concrete run is an evaluation;
`Run.of_exec` turns the evaluation into a `Run`.
-/

set_option autoImplicit false

namespace Sdd.Lib

variable {S A : Type}

/-- Some sequence of actions leads from `s` to the last state, and every action meets `P`
in the state it starts from. -/
inductive Run (step : S → A → Option S) (P : S → A → Prop) (s : S) : S → Prop where
  | refl : Run step P s s
  | tail {s₁ s₂ : S} (a : A) (h : Run step P s s₁) (hp : P s₁ a) (hs : step s₁ a = some s₂) :
      Run step P s s₂

namespace Run

variable {step : S → A → Option S} {P Q : S → A → Prop} {s s₁ s₂ : S}

/-- What the first state has and each step of the run keeps, the last state has. -/
theorem invariant (I : S → Prop) (h : Run step P s s₁) (h₀ : I s)
    (hstep : ∀ x a x', I x → P x a → step x a = some x' → I x') : I s₁ := by
  induction h with
  | refl => exact h₀
  | tail a _ hp hs ih => exact hstep _ a _ ih hp hs

/-- A run under a stronger restriction is a run under a weaker one. -/
theorem mono (h : Run step P s s₁) (hPQ : ∀ x a, P x a → Q x a) : Run step Q s s₁ := by
  induction h with
  | refl => exact .refl
  | tail a _ hp hs ih => exact .tail a ih (hPQ _ _ hp) hs

/-- Two runs compose. -/
theorem trans (h : Run step P s s₁) (h' : Run step P s₁ s₂) : Run step P s s₂ := by
  induction h' with
  | refl => exact h
  | tail a _ hp hs ih => exact .tail a ih hp hs

/-- One step in front of a run. -/
theorem head (a : A) (hp : P s a) (hs : step s a = some s₁) (h : Run step P s₁ s₂) :
    Run step P s s₂ :=
  trans (.tail a .refl hp hs) h

/-- A run is empty, or has a first step. -/
theorem eq_or_head (h : Run step P s s₁) :
    s = s₁ ∨ ∃ a s₂, P s a ∧ step s a = some s₂ ∧ Run step P s₂ s₁ := by
  induction h with
  | refl => exact .inl rfl
  | tail a _ hp hs ih =>
    rcases ih with rfl | ⟨b, s₂, hb, hs₂, hr⟩
    · exact .inr ⟨a, _, hp, hs, .refl⟩
    · exact .inr ⟨b, s₂, hb, hs₂, .tail a hr hp hs⟩

end Run

section During

variable {B : Type} (step : S → A → Option S) (P : S → A → Prop) (s₀ : S) (f : S → B)

/-- `Q` holds in some state of a run from `s₀` to `s` since which `f` has not changed. -/
def During (s : S) (Q : S → Prop) : Prop :=
  ∃ u, Run step P s₀ u ∧ Run step P u s ∧ f u = f s ∧ Q u

variable {step P s₀ f} {s s' : S} {Q Q' : S → Prop}

/-- The present moment. -/
theorem During.now (h : Run step P s₀ s) (hq : Q s) : During step P s₀ f s Q :=
  ⟨s, h, .refl, rfl, hq⟩

/-- A step that does not change `f`. -/
theorem During.later (h : During step P s₀ f s Q) {a : A} (hp : P s a) (hs : step s a = some s')
    (hf : f s' = f s) : During step P s₀ f s' Q := by
  obtain ⟨u, hu, hr, hfu, hq⟩ := h
  exact ⟨u, hu, .tail a hr hp hs, hfu.trans hf.symm, hq⟩

end During

/-- Runs a list of actions from `s`, checking each one in the state it starts from. -/
def exec (step : S → A → Option S) (check : S → A → Bool) : S → List A → Option S
  | s, [] => some s
  | s, a :: as => if check s a then (step s a).bind fun s' => exec step check s' as else none

/-- A list of actions that `exec` accepts is a run whose actions all pass the check. -/
theorem Run.of_exec {step : S → A → Option S} {check : S → A → Bool} {s s' : S} {as : List A}
    (h : exec step check s as = some s') : Run step (fun x a => check x a = true) s s' := by
  induction as generalizing s with
  | nil =>
    cases h
    exact .refl
  | cons a as ih =>
    rw [exec] at h
    split at h
    · rename_i hc
      obtain ⟨s₁, hs, h⟩ := Option.bind_eq_some_iff.mp h
      exact .head a hc hs (ih h)
    · cases h

/-- A test of the state that a list of actions leads to, as a statement about a run. -/
theorem Run.of_exec_any {step : S → A → Option S} {check : S → A → Bool} {s : S} {as : List A}
    {p : S → Bool} (h : (exec step check s as).any p = true) :
    ∃ s', Run step (fun x a => check x a = true) s s' ∧ p s' = true := by
  cases he : exec step check s as with
  | none =>
    rw [he] at h
    cases h
  | some s' =>
    rw [he] at h
    exact ⟨s', .of_exec he, h⟩

/-- A list of actions that all meet a predicate, whatever the state, is a run. -/
theorem Run.of_forall {step : S → A → Option S} {P : S → A → Prop} {s : S} {as : List A}
    {p : S → Bool} (h : (exec step (fun _ _ => true) s as).any p = true)
    (hP : ∀ a ∈ as, ∀ x, P x a) : ∃ s', Run step P s s' ∧ p s' = true := by
  induction as generalizing s with
  | nil =>
    rw [exec, Option.any_some] at h
    exact ⟨s, .refl, h⟩
  | cons a as ih =>
    rw [exec, if_pos rfl] at h
    cases hs : step s a with
    | none =>
      rw [hs] at h
      cases h
    | some s₁ =>
      rw [hs] at h
      obtain ⟨s', hr, hp⟩ := ih h fun b hb => hP b (List.mem_cons_of_mem a hb)
      exact ⟨s', .head a (hP a List.mem_cons_self s) hs hr, hp⟩

end Sdd.Lib
