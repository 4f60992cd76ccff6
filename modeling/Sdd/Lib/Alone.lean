import Mathlib.Logic.Function.Iterate
import Mathlib.Logic.Relation

/-!
# `Sdd.Lib.Alone`: parties that run alone

A party runs alone when the other parties of a system stand still. `own` gives the next step
of the party, if it can take one, and `env` is what can still happen in between without the
others, such as the release of resources. `Ends own env done s` says that the party comes
to a state in `done` after finitely many of its own steps, whatever happens in between.

`Ends.of_step` is the rule for proofs: a step that the party can take whatever has happened in
between, and an end from there. Inductions over a loop go on with it. `not_ends` is the rule for
the opposite: an invariant that each own step keeps and that excludes `done`. `Ends.andThen` puts
two parts of a program one after the other.
-/

set_option autoImplicit false

namespace Sdd.Lib

open Relation (ReflTransGen)

variable {S : Type}

/-- The party comes to a state in `done`, whatever happens in between. -/
inductive Ends (own : S → Option S) (env : S → S → Prop) (done : S → Prop) : S → Prop where
  | done {s : S} (h : done s) : Ends own env done s
  | step {s : S} (hs : ∀ s₁, ReflTransGen env s s₁ → ∃ s₂, own s₁ = some s₂)
      (h : ∀ s₁ s₂, ReflTransGen env s s₁ → own s₁ = some s₂ → Ends own env done s₂) :
      Ends own env done s

variable {own : S → Option S} {env : S → S → Prop} {done done' : S → Prop} {s s' : S}

/-- What each step in between keeps. -/
theorem env_invariant {P : S → Prop} (henv : ∀ s s', P s → env s s' → P s')
    (h : ReflTransGen env s s') (hs : P s) : P s' := by
  induction h with
  | refl => exact hs
  | tail _ he ih => exact henv _ _ ih he

namespace Ends

/-- Two parts, one after the other. -/
theorem andThen (h : Ends own env done s) (hd : ∀ s, done s → Ends own env done' s) :
    Ends own env done' s := by
  induction h with
  | done h => exact hd _ h
  | step hs _ ih => exact .step hs ih

/-- A step of the party, after which it ends. -/
theorem of_step (P : S → Prop) (henv : ∀ s s', P s → env s s' → P s')
    (hown : ∀ s, P s → ∃ s', own s = some s' ∧ Ends own env done s') (hs : P s) :
    Ends own env done s := by
  refine .step (fun s₁ h₁ => ?_) fun s₁ s₂ h₁ h₂ => ?_
  · obtain ⟨s₂, h₂, -⟩ := hown s₁ (env_invariant henv h₁ hs)
    exact ⟨s₂, h₂⟩
  · obtain ⟨s₂', h₂', hends⟩ := hown s₁ (env_invariant henv h₁ hs)
    cases h₂.symm.trans h₂'
    exact hends

/-- What every step of the party keeps, and everything that happens in between, is true in the
end. -/
theorem keeps (h : Ends own env done s) (P : S → Prop) (henv : ∀ s s', P s → env s s' → P s')
    (hown : ∀ s s', P s → own s = some s' → P s') (hs : P s) :
    Ends own env (fun s => done s ∧ P s) s := by
  induction h with
  | done h => exact .done ⟨h, hs⟩
  | step hex _ ih =>
    exact .step hex fun s₁ s₂ h₁ h₂ => ih s₁ s₂ h₁ h₂ (hown _ _ (env_invariant henv h₁ hs) h₂)

/-- A weaker end. -/
theorem imp (h : Ends own env done s) (hd : ∀ s, done s → done' s) : Ends own env done' s :=
  h.andThen fun _ h => .done (hd _ h)

/-- The party has come to an end, if it has no next step. -/
theorem done_of_stuck (h : Ends own env done s) (hs : own s = none) : done s := by
  cases h with
  | done h => exact h
  | step hex _ =>
    obtain ⟨s', hs'⟩ := hex s .refl
    cases hs.symm.trans hs'

/-- What is known of the end in two ways. -/
theorem meet (h : Ends own env done s) (h' : Ends own env done' s)
    (hdone : ∀ s, done s → own s = none) (hdone' : ∀ s, done' s → own s = none) :
    ∃ s', done s' ∧ done' s' := by
  induction h with
  | @done s hd => exact ⟨s, hd, h'.done_of_stuck (hdone s hd)⟩
  | @step s hex _ ih =>
    obtain ⟨s₂, hs₂⟩ := hex s .refl
    cases h' with
    | done hd =>
      rw [hdone' s hd] at hs₂
      cases hs₂
    | step _ hnext => exact ih s s₂ .refl hs₂ (hnext s s₂ .refl hs₂)

/-- A part of a program inside a larger one. `part` is what the part sees of a state, and `At`
says that the larger program is in this part. It leaves the part with one of its steps. -/
theorem inside {S' : Type} {own' : S' → Option S'} {env' : S' → S' → Prop} {done' : S' → Prop}
    {s' : S'} (part : S' → S) (At : S' → Prop) (h : Ends own env done (part s')) (hat : At s')
    (hdone : ∀ s, At s → ¬done (part s))
    (henv : ∀ s s₁, At s → env' s s₁ → At s₁ ∧ ReflTransGen env (part s) (part s₁))
    (hown : ∀ s u, At s → own (part s) = some u → ∃ s₁, own' s = some s₁ ∧
      (At s₁ ∧ part s₁ = u ∨ (Ends own env done u → Ends own' env' done' s₁))) :
    Ends own' env' done' s' := by
  generalize hp : part s' = p at h
  induction h generalizing s' with
  | done hd => exact absurd (hp ▸ hd) (hdone s' hat)
  | @step p hex hnext ih =>
    subst hp
    have hreach : ∀ {s₁}, ReflTransGen env' s' s₁ →
        At s₁ ∧ ReflTransGen env (part s') (part s₁) := by
      intro s₁ hs₁
      induction hs₁ with
      | refl => exact ⟨hat, .refl⟩
      | tail _ he ihr =>
        obtain ⟨hat₁, hr⟩ := ihr
        obtain ⟨hat₂, hr₂⟩ := henv _ _ hat₁ he
        exact ⟨hat₂, hr.trans hr₂⟩
    refine .step (fun s₁ hs₁ => ?_) fun s₁ s₂ hs₁ hs₂ => ?_
    · obtain ⟨hat₁, hr⟩ := hreach hs₁
      obtain ⟨u, hu⟩ := hex _ hr
      obtain ⟨s₂, hs₂, -⟩ := hown s₁ u hat₁ hu
      exact ⟨s₂, hs₂⟩
    · obtain ⟨hat₁, hr⟩ := hreach hs₁
      obtain ⟨u, hu⟩ := hex _ hr
      obtain ⟨s₂', hs₂', hcases⟩ := hown s₁ u hat₁ hu
      cases hs₂.symm.trans hs₂'
      rcases hcases with ⟨hat₂, hp₂⟩ | hleave
      · exact ih (part s₁) u hr hu hat₂ hp₂
      · exact hleave (hnext _ u hr hu)

/-- Without anything in between the party comes to a state in `done`, too: the one in which it
has no next step. -/
theorem reaches (h : Ends own env done s) (hdone : ∀ s, done s → own s = none) {k : Nat}
    (hk : (fun o => Option.bind o own)^[k] (some s) = some s') (hstuck : own s' = none) :
    done s' := by
  induction h generalizing k with
  | @done s h =>
    cases k with
    | zero =>
      cases hk
      exact h
    | succ k =>
      rw [Function.iterate_succ_apply, Option.bind_some, hdone s h,
        Function.iterate_fixed rfl] at hk
      cases hk
  | @step s hs _ ih =>
    obtain ⟨s₂, hs₂⟩ := hs s .refl
    cases k with
    | zero =>
      cases hk
      rw [hstuck] at hs₂
      cases hs₂
    | succ k =>
      rw [Function.iterate_succ_apply, Option.bind_some, hs₂] at hk
      exact ih s s₂ .refl hs₂ hk

/-- A path begins with what happens in between, and then the party takes a step, if it takes
one. -/
theorem path_cases {s s' : S}
    (hp : ReflTransGen (fun s s' => own s = some s' ∨ env s s') s s') :
    ReflTransGen env s s' ∨ ∃ s₁ s₂, ReflTransGen env s s₁ ∧ own s₁ = some s₂ ∧
      ReflTransGen (fun s s' => own s = some s' ∨ env s s') s₂ s' := by
  induction hp using ReflTransGen.head_induction_on with
  | refl => exact .inl .refl
  | @head s s₁ hstep hp ih =>
    rcases hstep with hown | henv
    · exact .inr ⟨s, s₁, .refl, hown, hp⟩
    · rcases ih with ih | ⟨s₂, s₃, hbefore, hown, hafter⟩
      · exact .inl (.head henv ih)
      · exact .inr ⟨s₂, s₃, .head henv hbefore, hown, hafter⟩

/-- Every way of the party to a state in which it has no next step leads to `done`. -/
theorem of_path (h : Ends own env done s)
    (hdone : ∀ s, done s → own s = none ∧ ∀ s', env s s' → done s')
    (hp : ReflTransGen (fun s s' => own s = some s' ∨ env s s') s s') (hstuck : own s' = none) :
    done s' := by
  induction h with
  | done h =>
    refine env_invariant (P := done) (fun s s' hs hstep => ?_) hp h
    rcases hstep with hown | henv
    · cases (hdone s hs).1.symm.trans hown
    · exact (hdone s hs).2 s' henv
  | @step s hex _ ih =>
    rcases path_cases hp with hbefore | ⟨s₁, s₂, hbefore, hown, hafter⟩
    · obtain ⟨s₂, hs₂⟩ := hex s' hbefore
      rw [hstuck] at hs₂
      cases hs₂
    · exact ih s₁ s₂ hbefore hown hafter

end Ends

/-- The party does not end if each of its steps keeps `Q`, which excludes `done`. -/
theorem not_ends (Q : S → Prop) (h : ∀ s, Q s → ¬done s ∧ ∀ s', own s = some s' → Q s')
    (hs : Q s) : ¬Ends own env done s := by
  intro he
  induction he with
  | done hd => exact (h _ hs).1 hd
  | @step s hex _ ih =>
    obtain ⟨s', hs'⟩ := hex s .refl
    exact ih s s' .refl hs' ((h s hs).2 s' hs')

end Sdd.Lib
