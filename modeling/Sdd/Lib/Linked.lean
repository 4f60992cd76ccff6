import Mathlib.Data.List.Nodup
import Mathlib.Logic.Function.Basic

/-!
# `Sdd.Lib.Linked`: the nodes of a singly linked list

`Linked next p l` says that `l` lists the nodes of the linked list that starts at the
pointer `p`, where `next` gives the successor pointer of each node. The lemmas state what
the usual pointer writes do to `l`: a write to a node outside of `l` changes nothing, and
a write that skips a node removes it.

`LinkedAll next ps l` says the same of several lists, one after the other.
-/

set_option autoImplicit false

namespace Sdd.Lib

variable {A : Type}

/-- `l` lists the nodes from the pointer `p` on, up to the null pointer. -/
def Linked (next : A → Option A) : Option A → List A → Prop
  | p, [] => p = none
  | p, a :: l => p = some a ∧ Linked next (next a) l

namespace Linked

variable {next : A → Option A} {p : Option A} {a b : A} {l r : List A}

/-- The null pointer starts the empty list only. -/
theorem eq_nil (h : Linked next none l) : l = [] := by
  cases l with
  | nil => rfl
  | cons a l => cases h.1

/-- A list that starts at a node has that node first. -/
theorem eq_cons (h : Linked next (some a) l) : ∃ l', l = a :: l' ∧ Linked next (next a) l' := by
  cases l with
  | nil => cases h
  | cons b l =>
    obtain ⟨hb, hl⟩ := h
    cases hb
    exact ⟨l, rfl, hl⟩

/-- The pointer is the first node. -/
theorem head_eq (h : Linked next p l) : p = l.head? := by
  cases l with
  | nil => exact h
  | cons a l => exact h.1

/-- The links determine the list. -/
theorem unique (h : Linked next p l) (h' : Linked next p r) : l = r := by
  induction l generalizing p r with
  | nil =>
    rw [show p = none from h] at h'
    exact h'.eq_nil.symm
  | cons a l ih =>
    rw [h.1] at h'
    obtain ⟨r', rfl, hr⟩ := h'.eq_cons
    rw [ih h.2 hr]

/-- The list from the pointer of a node on is what follows the node. -/
theorem after {f : List A} (h : Linked next p (f ++ a :: l)) : Linked next (next a) l := by
  induction f generalizing p with
  | nil => exact h.2
  | cons b f ih => exact ih h.2

/-- Links that agree on the nodes of the list. -/
theorem congr {next' : A → Option A} (h : Linked next p l) (hn : ∀ b ∈ l, next' b = next b) :
    Linked next' p l := by
  induction l generalizing p with
  | nil => exact h
  | cons b l ih =>
    refine ⟨h.1, ?_⟩
    rw [hn b List.mem_cons_self]
    exact ih h.2 fun c hc => hn c (List.mem_cons_of_mem b hc)

/-- A write that makes the node `b` skip the nodes of `l` up to `r`. -/
theorem splice [DecidableEq A] {f : List A} {n : Option A}
    (h : Linked next p (f ++ b :: (l ++ r))) (hd : (f ++ b :: (l ++ r)).Nodup)
    (hr : Linked next n r) :
    Linked (Function.update next b n) p (f ++ b :: r) := by
  induction f generalizing p with
  | nil =>
    refine ⟨h.1, ?_⟩
    rw [Function.update_self]
    refine hr.congr fun c hc => ?_
    have hcb : c ≠ b := by
      rintro rfl
      exact (List.nodup_cons.mp hd).1 (List.mem_append_right l hc)
    rw [Function.update_of_ne hcb]
  | cons a f ih =>
    obtain ⟨ha, hf⟩ := List.nodup_cons.mp hd
    refine ⟨h.1, ?_⟩
    have hab : a ≠ b := by
      rintro rfl
      exact ha (List.mem_append_right f List.mem_cons_self)
    rw [Function.update_of_ne hab]
    exact ih h.2 hf

end Linked

/-- `l` lists the nodes from the pointers `ps` on, one list after the other. -/
def LinkedAll (next : A → Option A) : List (Option A) → List A → Prop
  | [], l => l = []
  | p :: ps, l => ∃ f r, l = f ++ r ∧ Linked next p f ∧ LinkedAll next ps r

namespace LinkedAll

variable {next next' : A → Option A} {ps : List (Option A)} {a : A} {l : List A}

/-- Links that agree on the nodes of the lists. -/
theorem congr (h : LinkedAll next ps l) (hn : ∀ b ∈ l, next' b = next b) :
    LinkedAll next' ps l := by
  induction ps generalizing l with
  | nil => exact h
  | cons p ps ih =>
    obtain ⟨f, r, rfl, hf, hr⟩ := h
    exact ⟨f, r, rfl, hf.congr fun b hb => hn b (List.mem_append_left r hb),
      ih hr fun b hb => hn b (List.mem_append_right f hb)⟩

/-- The links determine the lists. -/
theorem unique {r : List A} (h : LinkedAll next ps l) (h' : LinkedAll next ps r) : l = r := by
  induction ps generalizing l r with
  | nil => exact h.trans h'.symm
  | cons p ps ih =>
    obtain ⟨f, t, rfl, hf, ht⟩ := h
    obtain ⟨f', t', rfl, hf', ht'⟩ := h'
    rw [hf.unique hf', ih ht ht']

/-- A node on one of the lists. -/
theorem mem_of_linked (h : LinkedAll next ps l) {p : Option A} {r : List A} (hp : p ∈ ps)
    (hr : Linked next p r) (ha : a ∈ r) : a ∈ l := by
  induction ps generalizing l with
  | nil => cases hp
  | cons q ps ih =>
    obtain ⟨f, t, rfl, hf, ht⟩ := h
    rcases List.mem_cons.mp hp with rfl | hp
    · exact List.mem_append_left t (hf.unique hr ▸ ha)
    · exact List.mem_append_right f (ih ht hp)

/-- A list that is empty. -/
theorem cons_none : LinkedAll next (none :: ps) l ↔ LinkedAll next ps l := by
  constructor
  · rintro ⟨f, r, rfl, hf, hr⟩
    rw [hf.eq_nil]
    exact hr
  · exact fun h => ⟨[], l, rfl, rfl, h⟩

/-- Without its first node the first list begins with the next one. -/
theorem eq_cons (h : LinkedAll next (some a :: ps) l) :
    ∃ r, l = a :: r ∧ LinkedAll next (next a :: ps) r := by
  obtain ⟨f, r, rfl, hf, hr⟩ := h
  obtain ⟨f', rfl, hf'⟩ := hf.eq_cons
  exact ⟨f' ++ r, rfl, f', r, rfl, hf', hr⟩

/-- Empty lists at the end. -/
theorem append_none (ps : List (Option A)) (n : Nat) :
    LinkedAll next (ps ++ List.replicate n none) l ↔ LinkedAll next ps l := by
  induction ps generalizing l with
  | nil =>
    induction n with
    | zero => exact .rfl
    | succ n ih => exact cons_none.trans ih
  | cons p ps ih =>
    constructor
    · rintro ⟨f, r, hl, hf, hr⟩
      exact ⟨f, r, hl, hf, ih.mp hr⟩
    · rintro ⟨f, r, hl, hf, hr⟩
      exact ⟨f, r, hl, hf, ih.mpr hr⟩

end LinkedAll

end Sdd.Lib
