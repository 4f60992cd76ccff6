import Sdd.Lib.Alone

/-!
# `Sdd.Lib.Container`: containers that are emptied by calls

A party calls `pop` on a container, and each call returns an element or nothing. A call is made
of accesses of the party (`own`), and `env` is what can happen in between and between two calls.
`Pops` says that a call that begins now returns, and what holds of its answer and of the state
after it. `Yields` says that the calls return the elements of a list one after the other, and
then nothing.

`Yields.of_holds` is the rule for proofs: an invariant that gives the elements, the first one of
which a call takes away. A container yields one list only (`Yields.unique`), so that a copy of a
container can be judged by the lists that both yield (`copies_iff`).
-/

set_option autoImplicit false

namespace Sdd.Lib

open Relation (ReflTransGen)

/-- A container with elements in `T`, and the party that calls `pop`. -/
structure Container (S T : Type) where
  /-- The call begins. -/
  invoke : S → Option S
  own : S → Option S
  env : S → S → Prop
  /-- The call has returned an element, or nothing. -/
  answered : S → Option T → Prop
  stuck : ∀ s o, answered s o → own s = none
  unique : ∀ s o o', answered s o → answered s o' → o = o'

variable {S S' T : Type}

namespace Container

variable (c : Container S T)

/-- A call of `pop` returns, and `Q` holds of the answer and of the state after it. -/
def Pops (Q : Option T → S → Prop) (s : S) : Prop :=
  ∀ s₁, ReflTransGen c.env s s₁ → ∃ s₂, c.invoke s₁ = some s₂ ∧
    Ends c.own c.env (fun s => ∃ o, c.answered s o ∧ Q o s) s₂

/-- The calls of `pop` return the elements of the list, and then nothing. -/
def Yields : List T → S → Prop
  | [] => c.Pops fun o _ => o = none
  | v :: vs => c.Pops fun o s => o = some v ∧ Yields vs s

variable {c} {Q Q' : Option T → S → Prop} {vs vs' : List T} {s : S}

theorem Pops.mono (h : c.Pops Q s) (hQ : ∀ o s, Q o s → Q' o s) : c.Pops Q' s := by
  intro s₁ hs₁
  obtain ⟨s₂, hs₂, he⟩ := h s₁ hs₁
  exact ⟨s₂, hs₂, he.imp fun s ⟨o, ho, hq⟩ => ⟨o, ho, hQ o s hq⟩⟩

/-- What is known of the answer of a call in two ways. -/
theorem Pops.meet (h : c.Pops Q s) (h' : c.Pops Q' s) : ∃ o s', Q o s' ∧ Q' o s' := by
  obtain ⟨s₂, hs₂, he⟩ := h s .refl
  obtain ⟨s₃, hs₃, he'⟩ := h' s .refl
  cases hs₂.symm.trans hs₃
  obtain ⟨s', ⟨o, ho, hq⟩, o', ho', hq'⟩ :=
    he.meet he' (fun s ⟨o, ho, _⟩ => c.stuck s o ho) fun s ⟨o, ho, _⟩ => c.stuck s o ho
  cases c.unique s' o o' ho ho'
  exact ⟨o, s', hq, hq'⟩

/-- `Holds vs s` says that `vs` are the elements of the container, the next one first. -/
theorem Yields.of_holds (Holds : List T → S → Prop)
    (hpop : ∀ vs s, Holds vs s → c.Pops (fun o s' => o = vs.head? ∧ Holds vs.tail s') s)
    (h : Holds vs s) : c.Yields vs s := by
  induction vs generalizing s with
  | nil => exact (hpop [] s h).mono fun o s' h' => h'.1
  | cons v vs ih => exact (hpop (v :: vs) s h).mono fun o s' h' => ⟨h'.1, ih h'.2⟩

/-- A container yields one list only. -/
theorem Yields.unique (h : c.Yields vs s) (h' : c.Yields vs' s) : vs = vs' := by
  induction vs generalizing s vs' with
  | nil =>
    cases vs' with
    | nil => rfl
    | cons v' vs' =>
      obtain ⟨o, s', ho, ho', -⟩ := Pops.meet h h'
      cases ho.symm.trans ho'
  | cons v vs ih =>
    cases vs' with
    | nil =>
      obtain ⟨o, s', ⟨ho, -⟩, ho'⟩ := Pops.meet h h'
      cases ho.symm.trans ho'
    | cons v' vs' =>
      obtain ⟨o, s', ⟨ho, hy⟩, ho', hy'⟩ := Pops.meet h h'
      cases ho.symm.trans ho'
      rw [ih hy hy']

/-- A party makes a copy of a container. What it has done in the end is right if and only if the
copy holds the images of the elements of the container. -/
theorem copies_iff {own : S' → Option S'} {env : S' → S' → Prop} {done : S' → Prop}
    (original copy : S' → S) (f : T → T) {copied : List T} {s : S'}
    (hstuck : ∀ s, done s → own s = none)
    (h : Ends own env
      (fun s => done s ∧ c.Yields vs (original s) ∧ c.Yields copied (copy s)) s) :
    Ends own env (fun s => done s ∧
      ∃ vs, c.Yields vs (original s) ∧ c.Yields (vs.map f) (copy s)) s ↔ copied = vs.map f := by
  constructor
  · intro h'
    obtain ⟨s', ⟨-, hy, hcopied⟩, -, vs', hy', hcopied'⟩ :=
      h.meet h' (fun s hs => hstuck s hs.1) fun s hs => hstuck s hs.1
    rw [hcopied.unique hcopied', hy.unique hy']
  · rintro rfl
    exact h.imp fun s hs => ⟨hs.1, vs, hs.2⟩

end Container

end Sdd.Lib
