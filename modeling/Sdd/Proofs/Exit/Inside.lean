import Mathlib.Logic.Function.Basic
import Sdd.Collector

/-!
# `Sdd.Proofs.Exit.Inside`: what a list of garbage contains

A collector that is garbage has lists of its own. `Inside lists l x` says that `x` is on the list
`l`, or on a list of a collector that is inside of `l`.
-/

set_option autoImplicit false

namespace Sdd.Proofs.Exit

open Sdd.Collector

/-- The garbage of each collector. -/
def garbageOf (b : World) (d : CollectorId) : List Garbage := (b.collectors d).garbage

/-- The element is on the list, or on a list of a collector that is inside of it. -/
inductive Inside (lists : CollectorId → List Garbage) : List Garbage → Garbage → Prop where
  | here {l : List Garbage} {x : Garbage} (hx : x ∈ l) : Inside lists l x
  | within {l : List Garbage} {x : Garbage} (d : CollectorId) (hd : .collector d ∈ l)
      (hx : Inside lists (lists d) x) : Inside lists l x

variable {lists : CollectorId → List Garbage} {l l' : List Garbage} {x : Garbage}
  {i : InstId} {d : CollectorId}

theorem Inside.mono (h : Inside lists l x) (hl : ∀ y ∈ l, y ∈ l') : Inside lists l' x := by
  cases h with
  | here hx => exact .here (hl x hx)
  | within d hd hx => exact .within d (hl _ hd) hx

/-- What is inside of two lists together is inside of one of them. -/
theorem Inside.append (h : Inside lists (l ++ l') x) : Inside lists l x ∨ Inside lists l' x := by
  cases h with
  | here hx => exact (List.mem_append.mp hx).imp .here .here
  | within d hd hx => exact (List.mem_append.mp hd).imp (.within d · hx) (.within d · hx)

theorem not_inside_nil : ¬Inside lists [] x := by
  intro h
  cases h with
  | here hx => cases hx
  | within d hd hx => cases hd

/-- When the lists of the collector `d` are taken, what was inside of a list is still inside of it,
or inside of what was taken. -/
theorem Inside.taken (h : Inside lists l x) :
    Inside (Function.update lists d []) l x ∨ Inside (Function.update lists d []) (lists d) x := by
  induction h with
  | here hx => exact .inl (.here hx)
  | @within l x e he hx ih =>
    by_cases hed : e = d
    · subst hed
      exact .inr (ih.elim id id)
    · rcases ih with ih | ih
      · refine .inl (.within e he ?_)
        rwa [Function.update_of_ne hed]
      · exact .inr ih

/-- An instance inside of a list whose first element is a collector, when the lists of the
collector are taken. -/
theorem Inside.expand (h : Inside lists (.collector d :: l) (.inst i)) :
    Inside (Function.update lists d []) (lists d ++ l) (.inst i) := by
  rcases h.taken (d := d) with h | h
  · cases h with
    | here hx =>
      refine .here (List.mem_append_right _ ?_)
      rcases List.mem_cons.mp hx with hx | hx
      · cases hx
      · exact hx
    | within e he hx =>
      rcases List.mem_cons.mp he with heq | he
      · cases heq
        rw [Function.update_self] at hx
        exact absurd hx not_inside_nil
      · exact .within e (List.mem_append_right _ he) hx
  · exact h.mono fun y hy => List.mem_append_left l hy

/-- An instance inside of a list whose first element is an instance. -/
theorem Inside.cons_inst {j : InstId} (h : Inside lists (.inst j :: l) (.inst i)) :
    i = j ∨ Inside lists l (.inst i) := by
  cases h with
  | here hx =>
    rcases List.mem_cons.mp hx with hx | hx
    · cases hx
      exact .inl rfl
    · exact .inr (.here hx)
  | within d hd hx =>
    rcases List.mem_cons.mp hd with hd | hd
    · cases hd
    · exact .inr (.within d hd hx)

/-- What is inside of a list stays there, if the lists of the collectors that are on a list stay. -/
theorem Inside.keep {lists' : CollectorId → List Garbage} (h : Inside lists l x)
    (hl : ∀ d, .collector d ∈ l → ∃ c, .collector d ∈ lists c)
    (hsame : ∀ d c, .collector d ∈ lists c → lists' d = lists d) : Inside lists' l x := by
  induction h with
  | here hx => exact .here hx
  | @within l x d hd hx ih =>
    obtain ⟨c, hc⟩ := hl d hd
    refine .within d hd ?_
    rw [hsame d c hc]
    exact ih fun e he => ⟨d, he⟩

end Sdd.Proofs.Exit
