import Mathlib.Logic.Function.Basic

/-!
# `Sdd.Lib.Linearize`: linearizability

A history lists the invocations and the results of operations in the order in which they
happen. It is linearizable to a sequential specification when each operation can be given
a point at which it takes effect: after its invocation, before its result, such that the
effects in their order are a sequential run of the specification. An operation that has not
returned may or may not have taken effect.

`Trace spec c L c'` says that the events `L`, effects included, lead from the configuration
`c` to `c'`; a configuration has the status of each thread and the state of the
specification. `Linearizable` asks for effects that turn a history into a trace. The lemmas
take a trace apart and change the status of a thread that takes no part in it, which is
what is needed to insert an effect in the past of a trace.
-/

set_option autoImplicit false

namespace Sdd.Lib.Linearize

variable {T Op Res S : Type} [DecidableEq T]

inductive Event (T Op Res : Type) where
  | invoke (t : T) (op : Op)
  | effect (t : T) (op : Op) (res : Res)
  | result (t : T) (op : Op) (res : Res)

namespace Event

/-- The thread of an event. -/
def thread : Event T Op Res → T
  | invoke t _ | effect t _ _ | result t _ _ => t

/-- Effects are not part of the history. -/
def visible : Event T Op Res → Bool
  | effect _ _ _ => false
  | _ => true

end Event

/-- What a thread is doing: nothing, or an operation that has not taken effect, or one that
has. -/
inductive Status (Op Res : Type) where
  | idle
  | pending (op : Op)
  | decided (op : Op) (res : Res)

structure Config (T Op Res S : Type) where
  status : T → Status Op Res
  state : S

/-- All threads are idle. -/
def Config.start (s : S) : Config T Op Res S := ⟨fun _ => .idle, s⟩

/-- One event. -/
inductive Move (spec : S → Op → Res → S → Prop) (c : Config T Op Res S) :
    Event T Op Res → Config T Op Res S → Prop where
  | invoke (t : T) (op : Op) (h : c.status t = .idle) :
      Move spec c (.invoke t op) ⟨Function.update c.status t (.pending op), c.state⟩
  | effect (t : T) (op : Op) (res : Res) (s : S) (h : c.status t = .pending op)
      (hs : spec c.state op res s) :
      Move spec c (.effect t op res) ⟨Function.update c.status t (.decided op res), s⟩
  | result (t : T) (op : Op) (res : Res) (h : c.status t = .decided op res) :
      Move spec c (.result t op res) ⟨Function.update c.status t .idle, c.state⟩

/-- A sequence of events. -/
inductive Trace (spec : S → Op → Res → S → Prop) (c : Config T Op Res S) :
    List (Event T Op Res) → Config T Op Res S → Prop where
  | nil : Trace spec c [] c
  | snoc {L : List (Event T Op Res)} {c₁ c₂ : Config T Op Res S} (e : Event T Op Res)
      (h : Trace spec c L c₁) (hm : Move spec c₁ e c₂) : Trace spec c (L ++ [e]) c₂

/-- The history becomes a trace when effects are added. -/
def Linearizable (spec : S → Op → Res → S → Prop) (s : S) (H : List (Event T Op Res)) : Prop :=
  ∃ L c, Trace spec (.start s) L c ∧ L.filter Event.visible = H

section

variable {spec : S → Op → Res → S → Prop} {c c' c'' : Config T Op Res S}
  {L L₁ L₂ : List (Event T Op Res)} {t : T}

namespace Trace

/-- Two traces compose. -/
theorem append (h₁ : Trace spec c L₁ c') (h₂ : Trace spec c' L₂ c'') :
    Trace spec c (L₁ ++ L₂) c'' := by
  induction h₂ with
  | nil =>
    rw [List.append_nil]
    exact h₁
  | snoc e _ hm ih =>
    rw [← List.append_assoc]
    exact .snoc e ih hm

/-- A trace can be cut anywhere. -/
theorem split (h : Trace spec c (L₁ ++ L₂) c'') :
    ∃ c', Trace spec c L₁ c' ∧ Trace spec c' L₂ c'' := by
  generalize hL : L₁ ++ L₂ = L at h
  induction h generalizing L₂ with
  | nil =>
    obtain ⟨rfl, rfl⟩ := List.append_eq_nil_iff.mp hL
    exact ⟨c, .nil, .nil⟩
  | snoc e h hm ih =>
    rcases List.eq_nil_or_concat L₂ with rfl | ⟨L₃, e', rfl⟩
    · rw [List.append_nil] at hL
      subst hL
      exact ⟨_, .snoc e h hm, .nil⟩
    · rw [List.concat_eq_append, ← List.append_assoc] at hL
      obtain ⟨hL, he⟩ := List.append_inj' hL rfl
      obtain ⟨c₁, h₁, h₂⟩ := ih hL
      cases he
      rw [List.concat_eq_append]
      exact ⟨c₁, h₁, .snoc e h₂ hm⟩

/-- The first event of a trace. -/
theorem uncons {e : Event T Op Res} (h : Trace spec c (e :: L) c'') :
    ∃ c', Move spec c e c' ∧ Trace spec c' L c'' := by
  have hcut : Trace spec c ([e] ++ L) c'' := h
  obtain ⟨c', h₁, h₂⟩ := split hcut
  refine ⟨c', ?_, h₂⟩
  generalize hL : [e] = L₀ at h₁
  cases h₁ with
  | nil => cases hL
  | snoc e' h hm =>
    have happ : [] ++ [e] = _ ++ [e'] := hL
    obtain ⟨hnil, he⟩ := List.append_inj' happ rfl
    cases he
    cases h with
    | nil => exact hm
    | snoc e' _ _ => simp at hnil

/-- A thread without events keeps its status. -/
theorem status_eq (h : Trace spec c L c') (ht : ∀ e ∈ L, e.thread ≠ t) :
    c'.status t = c.status t := by
  induction h with
  | nil => rfl
  | snoc e h hm ih =>
    have hkeep := ih fun e' he => ht e' (List.mem_append_left [e] he)
    have hne : t ≠ e.thread := Ne.symm (ht e (List.mem_append_right _ List.mem_cons_self))
    rw [← hkeep]
    cases hm <;> exact Function.update_of_ne hne _ _

/-- The status of a thread without events plays no role. -/
theorem update_status (h : Trace spec c L c') (ht : ∀ e ∈ L, e.thread ≠ t)
    (x : Status Op Res) :
    Trace spec ⟨Function.update c.status t x, c.state⟩ L
      ⟨Function.update c'.status t x, c'.state⟩ := by
  induction h with
  | nil => exact .nil
  | @snoc L c₁ c₂ e h hm ih =>
    refine .snoc e (ih fun e' he => ht e' (List.mem_append_left [e] he)) ?_
    have hne : e.thread ≠ t := ht e (List.mem_append_right _ List.mem_cons_self)
    cases hm with
    | invoke u op hu =>
      have hun : u ≠ t := hne
      rw [Function.update_comm hun]
      exact .invoke u op ((Function.update_of_ne hun x c₁.status).trans hu)
    | effect u op res s hu hs =>
      have hun : u ≠ t := hne
      rw [Function.update_comm hun]
      exact .effect u op res s ((Function.update_of_ne hun x c₁.status).trans hu) hs
    | result u op res hu =>
      have hun : u ≠ t := hne
      rw [Function.update_comm hun]
      exact .result u op res ((Function.update_of_ne hun x c₁.status).trans hu)

/-- What effects keep holds after events that are not seen in the history. -/
theorem of_effects {I : Config T Op Res S → Prop} (h : Trace spec c L c')
    (hL : ∀ e ∈ L, e.visible = false) (h₀ : I c)
    (hI : ∀ c t op res s, I c → c.status t = .pending op → spec c.state op res s →
      I ⟨Function.update c.status t (.decided op res), s⟩) : I c' := by
  induction h with
  | nil => exact h₀
  | snoc e h hm ih =>
    have hlast := hL e (List.mem_append_right _ List.mem_cons_self)
    have hold := ih fun e he => hL e (List.mem_append_left _ he)
    cases hm with
    | invoke t op ht => cases hlast
    | effect t op res s ht hs => exact hI _ t op res s hold ht hs
    | result t op res ht => cases hlast

/-- The first event that is seen in the history. -/
theorem next_visible {e : Event T Op Res} {H : List (Event T Op Res)} (h : Trace spec c L c'')
    (hH : L.filter Event.visible = e :: H) : ∃ L₁ L₂ c₁ c₂, Trace spec c L₁ c₁ ∧
      (∀ e ∈ L₁, e.visible = false) ∧ Move spec c₁ e c₂ ∧ Trace spec c₂ L₂ c'' ∧
      L₂.filter Event.visible = H := by
  obtain ⟨L₁, L₂, rfl, hL₁, -, hL₂⟩ := List.filter_eq_cons_iff.mp hH
  obtain ⟨c₁, h₁, hrest⟩ := h.split
  obtain ⟨c₂, hm, h₂⟩ := hrest.uncons
  refine ⟨L₁, L₂, c₁, c₂, h₁, fun e he => ?_, hm, h₂, hL₂⟩
  exact Bool.not_eq_true _ ▸ hL₁ e he

/-- From one event of the history to the next one: `I` is what effects keep, and `J` is what
the event leads to. -/
theorem advance {e : Event T Op Res} {H : List (Event T Op Res)} {I J : Config T Op Res S → Prop}
    (h : I c ∧ Trace spec c L c'' ∧ L.filter Event.visible = e :: H)
    (hI : ∀ c t op res s, I c → c.status t = .pending op → spec c.state op res s →
      I ⟨Function.update c.status t (.decided op res), s⟩)
    (hJ : ∀ c₁ c₂, I c₁ → Move spec c₁ e c₂ → J c₂) :
    ∃ L₂ c₂, J c₂ ∧ Trace spec c₂ L₂ c'' ∧ L₂.filter Event.visible = H := by
  obtain ⟨h₀, htrace, hH⟩ := h
  obtain ⟨L₁, L₂, c₁, c₂, h₁, hL₁, hm, h₂, hL₂⟩ := htrace.next_visible hH
  exact ⟨L₂, c₂, hJ c₁ c₂ (h₁.of_effects hL₁ h₀ hI) hm, h₂, hL₂⟩

end Trace

omit [DecidableEq T] in
/-- An effect is not seen in the history. -/
theorem visible_insert (op : Op) (res : Res) :
    (L₁ ++ .effect t op res :: L₂).filter Event.visible
      = (L₁ ++ L₂).filter Event.visible := by
  rw [List.filter_append, List.filter_cons_of_neg (by simp [Event.visible]), List.filter_append]

end

end Sdd.Lib.Linearize
