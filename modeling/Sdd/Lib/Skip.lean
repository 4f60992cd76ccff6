import Sdd.Lib.Linked

/-!
# `Sdd.Lib.Skip`: linked lists with logical deletion

In a linked list with logical deletion a node is first marked dead, and dead nodes are
skipped and unlinked later, by anybody. What a pointer means is then the first live node
that it leads to. `Skip next dead tgt` says that the ghost function `tgt` is that node for
each node: a live node leads to itself, and a dead one to where its link leads to.

`Threaded next tgt p l` says that `l` lists the live nodes from the pointer `p` on. The
lemmas state what the writes of such algorithms do to it:

* `redirect`: a link, or the root, is changed to a pointer that leads to the same live node;
* `kill`: a live node is marked dead, and leaves the list;
* `append`, `insert`, `push`: a new node is attached behind the last one, behind any one, or in
  front.

The nodes of the linked list, less the dead ones, are threaded (`of_linked`).

Two pointers that lead to the same live node go on doing so (`kill_bind`), which is how a
walk over the list can rely on links that it has read in the past.
-/

set_option autoImplicit false

namespace Sdd.Lib

variable {A : Type}

/-- `tgt` leads each node to the first live node from it on. -/
structure Skip (next : A → Option A) (dead : A → Bool) (tgt : A → Option A) : Prop where
  live : ∀ x, dead x = false → tgt x = some x
  dead : ∀ x, dead x = true → tgt x = (next x).bind tgt

/-- `l` lists the live nodes from the pointer `p` on. -/
def Threaded (next tgt : A → Option A) : Option A → List A → Prop
  | p, [] => p.bind tgt = none
  | p, x :: l => p.bind tgt = some x ∧ Threaded next tgt (next x) l

variable {next tgt : A → Option A} {dead : A → Bool} {p q : Option A} {x z : A} {l : List A}

namespace Threaded

/-- The first node is where the pointer leads to. -/
theorem head_eq (h : Threaded next tgt p l) : l.head? = p.bind tgt := by
  cases l with
  | nil => exact h.symm
  | cons x l => exact h.1.symm

/-- The root can be any pointer that leads to the same live node. -/
theorem root (h : Threaded next tgt p l) (hq : q.bind tgt = p.bind tgt) :
    Threaded next tgt q l := by
  cases l with
  | nil => exact hq.trans h
  | cons x l => exact ⟨hq.trans h.1, h.2⟩

/-- A change of links outside of the list. -/
theorem congr {next' : A → Option A} (h : Threaded next tgt p l)
    (hn : ∀ y ∈ l, next' y = next y) : Threaded next' tgt p l := by
  induction l generalizing p with
  | nil => exact h
  | cons y l ih =>
    refine ⟨h.1, ?_⟩
    rw [hn y List.mem_cons_self]
    exact ih h.2 fun w hw => hn w (List.mem_cons_of_mem y hw)

/-- The part of the list behind a node. -/
theorem after {l₁ l₂ : List A} (h : Threaded next tgt p (l₁ ++ x :: l₂)) :
    Threaded next tgt (next x) l₂ := by
  induction l₁ generalizing p with
  | nil => exact h.2
  | cons y l₁ ih => exact ih h.2

/-- A node does not lead back to itself. -/
theorem next_ne (h : Threaded next tgt p l) (hd : l.Nodup) (hx : x ∈ l) :
    (next x).bind tgt ≠ some x := by
  obtain ⟨l₁, l₂, rfl⟩ := List.append_of_mem hx
  intro hc
  have hhead : l₂.head? = some x := h.after.head_eq.trans hc
  have hnot : x ∉ l₂ := (List.nodup_cons.mp (List.nodup_append.mp hd).2.1).1
  exact hnot (List.mem_of_mem_head? hhead)

/-- A node of the list whose link leads nowhere is the last one. -/
theorem last (h : Threaded next tgt p l) (hx : x ∈ l) (hn : (next x).bind tgt = none) :
    ∃ l', l = l' ++ [x] := by
  obtain ⟨l₁, l₂, rfl⟩ := List.append_of_mem hx
  have hhead : l₂.head? = none := h.after.head_eq.trans hn
  rw [List.head?_eq_none_iff] at hhead
  exact ⟨l₁, by rw [hhead]⟩

/-- The pointer determines the list. -/
theorem unique {r : List A} (h : Threaded next tgt p l) (h' : Threaded next tgt p r) : l = r := by
  induction l generalizing p r with
  | nil =>
    have hhead : r.head? = none := h'.head_eq.trans h
    rw [List.head?_eq_none_iff.mp hhead]
  | cons x l ih =>
    cases r with
    | nil => cases h.1.symm.trans h'
    | cons y r =>
      obtain rfl : x = y := Option.some.inj (h.1.symm.trans h'.1)
      rw [ih h.2 h'.2]

/-- The live nodes of a linked list. -/
theorem of_linked (hs : Skip next dead tgt) (hl : Linked next p l) :
    Threaded next tgt p (l.filter fun x => !dead x) := by
  induction l generalizing p with
  | nil =>
    rw [show p = none from hl]
    rfl
  | cons x l ih =>
    obtain ⟨rfl, hl⟩ := hl
    cases hx : dead x with
    | false =>
      rw [List.filter_cons_of_pos (by rw [hx]; rfl)]
      exact ⟨hs.live x hx, ih hl⟩
    | true =>
      rw [List.filter_cons_of_neg (by rw [hx]; nofun)]
      exact (ih hl).root (hs.dead x hx)

/-- A new node becomes the first one. -/
theorem push (h : Threaded next tgt p l) (hz : tgt z = some z)
    (hn : (next z).bind tgt = p.bind tgt) : Threaded next tgt (some z) (z :: l) :=
  ⟨hz, h.root hn⟩

end Threaded

variable [DecidableEq A]

/-- `y` is put right behind `x`. -/
def insertAfter (x y : A) : List A → List A
  | [] => []
  | a :: l => if a = x then a :: y :: l else a :: insertAfter x y l

section insertAfter

variable {a b y : A} {r : List A}

@[simp] theorem insertAfter_cons_self : insertAfter x y (x :: l) = x :: y :: l := if_pos rfl

theorem insertAfter_cons_ne (hax : a ≠ x) :
    insertAfter x y (a :: l) = a :: insertAfter x y l := if_neg hax

theorem insertAfter_of_notMem (hx : x ∉ l) : insertAfter x y l = l := by
  induction l with
  | nil => rfl
  | cons a l ih =>
    obtain ⟨hax, hl⟩ := List.ne_and_not_mem_of_not_mem_cons hx
    rw [insertAfter_cons_ne (Ne.symm hax), ih hl]

/-- The node goes behind the first `x`. -/
theorem insertAfter_append {l₁ l₂ : List A} (hx : x ∉ l₁) :
    insertAfter x y (l₁ ++ x :: l₂) = l₁ ++ x :: y :: l₂ := by
  induction l₁ with
  | nil => exact insertAfter_cons_self
  | cons a l₁ ih =>
    obtain ⟨hax, hl⟩ := List.ne_and_not_mem_of_not_mem_cons hx
    rw [List.cons_append, insertAfter_cons_ne (Ne.symm hax), ih hl]
    rfl

theorem sublist_insertAfter (x y : A) (l : List A) : l.Sublist (insertAfter x y l) := by
  induction l with
  | nil => exact .slnil
  | cons a l ih =>
    by_cases hax : a = x
    · subst hax
      rw [insertAfter_cons_self]
      exact (List.sublist_cons_self y l).cons_cons a
    · rw [insertAfter_cons_ne hax]
      exact ih.cons_cons a

theorem mem_insertAfter : z ∈ insertAfter x y l ↔ z ∈ l ∨ x ∈ l ∧ z = y := by
  by_cases hx : x ∈ l
  · obtain ⟨l₁, l₂, rfl, hl₁⟩ := List.eq_append_cons_of_mem hx
    rw [insertAfter_append hl₁]
    simp only [List.mem_append, List.mem_cons]
    tauto
  · rw [insertAfter_of_notMem hx]
    exact (or_iff_left fun h => hx h.1).symm

theorem nodup_insertAfter (hl : l.Nodup) (hy : y ∉ l) : (insertAfter x y l).Nodup := by
  by_cases hx : x ∈ l
  · obtain ⟨l₁, l₂, rfl, hl₁⟩ := List.eq_append_cons_of_mem hx
    rw [insertAfter_append hl₁]
    have hperm : (l₁ ++ x :: y :: l₂).Perm (y :: (l₁ ++ x :: l₂)) := by
      refine List.perm_iff_count.mpr fun z => ?_
      simp only [List.count_append, List.count_cons]
      omega
    exact hperm.nodup_iff.mpr (List.nodup_cons.mpr ⟨hy, hl⟩)
  · rw [insertAfter_of_notMem hx]
    exact hl

/-- A test keeps both nodes. -/
theorem filter_insertAfter {f : A → Bool} (hx : f x = true) (hy : f y = true) :
    (insertAfter x y l).filter f = insertAfter x y (l.filter f) := by
  induction l with
  | nil => rfl
  | cons a l ih =>
    by_cases ha : a = x
    · subst ha
      rw [insertAfter_cons_self, List.filter_cons_of_pos hx, List.filter_cons_of_pos hy,
        List.filter_cons_of_pos hx, insertAfter_cons_self]
    · rw [insertAfter_cons_ne ha]
      cases hf : f a with
      | true =>
        rw [List.filter_cons_of_pos hf, List.filter_cons_of_pos hf, ih, insertAfter_cons_ne ha]
      | false =>
        rw [List.filter_cons_of_neg (by rw [hf]; nofun),
          List.filter_cons_of_neg (by rw [hf]; nofun), ih]

/-- A part of a list stays a part of it. -/
theorem insertAfter_sublist (h : r.Sublist l) (hl : l.Nodup) :
    (insertAfter x y r).Sublist (insertAfter x y l) := by
  induction h with
  | slnil => exact .slnil
  | @cons r l a h ih =>
    obtain ⟨ha, hl⟩ := List.nodup_cons.mp hl
    by_cases hax : a = x
    · subst hax
      rw [insertAfter_of_notMem fun hc => ha (h.subset hc)]
      exact (h.cons a).trans (sublist_insertAfter a y _)
    · rw [insertAfter_cons_ne hax]
      exact (ih hl).cons a
  | @cons_cons r l a h ih =>
    obtain ⟨-, hl⟩ := List.nodup_cons.mp hl
    by_cases hax : a = x
    · subst hax
      rw [insertAfter_cons_self, insertAfter_cons_self]
      exact (h.cons_cons y).cons_cons a
    · rw [insertAfter_cons_ne hax, insertAfter_cons_ne hax]
      exact (ih hl).cons_cons a

/-- The order of the nodes in a part of a list is their order in the list. -/
theorem idxOf_lt_of_sublist (h : r.Sublist l) (hl : l.Nodup) (ha : a ∈ r) (hb : b ∈ r)
    (hlt : r.idxOf a < r.idxOf b) : l.idxOf a < l.idxOf b := by
  induction h with
  | slnil => cases ha
  | @cons r l c h ih =>
    obtain ⟨hc, hl⟩ := List.nodup_cons.mp hl
    have hne : ∀ {d}, d ∈ r → c ≠ d := fun hd hcd => hc (hcd ▸ h.subset hd)
    rw [List.idxOf_cons_ne _ (hne ha), List.idxOf_cons_ne _ (hne hb)]
    exact Nat.succ_lt_succ (ih hl ha hb hlt)
  | @cons_cons r l c h ih =>
    obtain ⟨-, hl⟩ := List.nodup_cons.mp hl
    have hcb : c ≠ b := by
      rintro rfl
      rw [List.idxOf_cons_self] at hlt
      exact Nat.not_lt_zero _ hlt
    by_cases hca : c = a
    · subst hca
      rw [List.idxOf_cons_self, List.idxOf_cons_ne _ hcb]
      exact Nat.succ_pos _
    · rw [List.idxOf_cons_ne _ hca, List.idxOf_cons_ne _ hcb] at hlt ⊢
      exact Nat.succ_lt_succ (ih hl (List.mem_of_ne_of_mem (Ne.symm hca) ha)
        (List.mem_of_ne_of_mem (Ne.symm hcb) hb) (Nat.lt_of_succ_lt_succ hlt))

end insertAfter

/-- The first live nodes after `x` is marked dead. -/
def killed (next tgt : A → Option A) (x : A) : A → Option A :=
  fun y => if tgt y = some x then (next x).bind tgt else tgt y

/-- A pointer leads to the same live node as before, or past `x`. -/
theorem kill_bind : p.bind (killed next tgt x)
    = if p.bind tgt = some x then (next x).bind tgt else p.bind tgt := by
  cases p with
  | none => rfl
  | some y => rfl

/-- Pointers that lead to the same live node still do so after a deletion. -/
theorem kill_bind_congr (h : p.bind tgt = q.bind tgt) :
    p.bind (killed next tgt x) = q.bind (killed next tgt x) := by
  rw [kill_bind, kill_bind, h]

namespace Skip

/-- A dead node is linked to another pointer that leads to the same live node. A live node
can be linked to anything. -/
theorem redirect (h : Skip next dead tgt)
    (hp : dead x = true → p.bind tgt = (next x).bind tgt) :
    Skip (Function.update next x p) dead tgt where
  live := h.live
  dead := by
    intro y hy
    by_cases hyx : y = x
    · subst hyx
      rw [Function.update_self, hp hy]
      exact h.dead y hy
    · rw [Function.update_of_ne hyx]
      exact h.dead y hy

/-- A live node is marked dead. -/
theorem kill (h : Skip next dead tgt) (hx : dead x = false)
    (hne : (next x).bind tgt ≠ some x) :
    Skip next (Function.update dead x true) (killed next tgt x) where
  live := by
    intro y hy
    have hyx : y ≠ x := by
      rintro rfl
      rw [Function.update_self] at hy
      cases hy
    rw [Function.update_of_ne hyx] at hy
    unfold killed
    rw [h.live y hy, if_neg fun hc => hyx (Option.some.inj hc)]
  dead := by
    intro y hy
    rw [kill_bind]
    by_cases hyx : y = x
    · subst hyx
      unfold killed
      rw [if_pos (h.live y hx), if_neg hne]
    · rw [Function.update_of_ne hyx] at hy
      unfold killed
      rw [h.dead y hy]

end Skip

namespace Threaded

/-- Any link can be changed to a pointer that leads to the same live node. -/
theorem redirect (h : Threaded next tgt q l) (hp : p.bind tgt = (next x).bind tgt) :
    Threaded (Function.update next x p) tgt q l := by
  induction l generalizing q with
  | nil => exact h
  | cons y l ih =>
    refine ⟨h.1, ?_⟩
    by_cases hyx : y = x
    · subst hyx
      rw [Function.update_self]
      exact (ih h.2).root hp
    · rw [Function.update_of_ne hyx]
      exact ih h.2

/-- Marking another node dead does not change the list. -/
theorem kill_notMem (h : Threaded next tgt p l) (hx : x ∉ l) :
    Threaded next (killed next tgt x) p l := by
  -- The pointer does not lead to `x`, and neither do the links of the nodes.
  have hroot : p.bind tgt ≠ some x := by
    intro hc
    exact hx (List.mem_of_mem_head? (h.head_eq.trans hc))
  have hsame : p.bind (killed next tgt x) = p.bind tgt := by
    rw [kill_bind, if_neg hroot]
  induction l generalizing p with
  | nil => exact hsame.trans h
  | cons y l ih =>
    have hxl : x ∉ l := fun hc => hx (List.mem_cons_of_mem y hc)
    have hnext : (next y).bind tgt ≠ some x := by
      intro hc
      exact hxl (List.mem_of_mem_head? (h.2.head_eq.trans hc))
    refine ⟨hsame.trans h.1, ih h.2 hxl hnext ?_⟩
    rw [kill_bind, if_neg hnext]

/-- A node that is marked dead leaves the list. -/
theorem kill (h : Threaded next tgt p l) (hd : l.Nodup) (hx : x ∈ l) :
    Threaded next (killed next tgt x) p (l.erase x) := by
  induction l generalizing p with
  | nil => cases hx
  | cons y l ih =>
    obtain ⟨hy, hl⟩ := List.nodup_cons.mp hd
    by_cases hyx : y = x
    · subst hyx
      rw [List.erase_cons_head]
      have hne := h.next_ne hd hx
      have hroot : p.bind (killed next tgt y) = (next y).bind (killed next tgt y) := by
        rw [kill_bind, kill_bind, if_pos h.1, if_neg hne]
      exact (h.2.kill_notMem hy).root hroot
    · rw [List.erase_cons_tail (by simpa using hyx)]
      have hxl : x ∈ l := (List.mem_cons.mp hx).resolve_left (Ne.symm hyx)
      refine ⟨?_, ih h.2 hl hxl⟩
      rw [kill_bind, h.1, if_neg fun hc => hyx (Option.some.inj hc)]

/-- A new node is attached to the last one. -/
theorem append (h : Threaded next tgt p l) (hd : l.Nodup) (hx : x ∈ l) (hn : next x = none)
    (hz : tgt z = some z) (hzn : next z = none) (hzx : z ≠ x) :
    Threaded (Function.update next x (some z)) tgt p (l ++ [z]) := by
  have hnone : (next x).bind tgt = none := by
    rw [hn]
    rfl
  obtain ⟨l', rfl⟩ := h.last hx hnone
  clear hx
  induction l' generalizing p with
  | nil =>
    refine ⟨h.1, ?_⟩
    rw [Function.update_self]
    refine ⟨hz, ?_⟩
    rw [Function.update_of_ne hzx, hzn]
    rfl
  | cons y l' ih =>
    have hyx : y ≠ x := by
      rintro rfl
      exact (List.nodup_cons.mp hd).1 (List.mem_append_right l' List.mem_cons_self)
    refine ⟨h.1, ?_⟩
    rw [Function.update_of_ne hyx]
    exact ih h.2 (List.nodup_cons.mp hd).2

/-- A new node is attached behind any node. -/
theorem insert (h : Threaded next tgt p l) (hd : l.Nodup) (hz : tgt z = some z)
    (hn : next z = next x) (hzx : z ≠ x) :
    Threaded (Function.update next x (some z)) tgt p (insertAfter x z l) := by
  induction l generalizing p with
  | nil => exact h
  | cons a l ih =>
    obtain ⟨ha, hl⟩ := List.nodup_cons.mp hd
    by_cases hax : a = x
    · subst hax
      rw [insertAfter_cons_self]
      refine ⟨h.1, ?_⟩
      rw [Function.update_self]
      refine ⟨hz, ?_⟩
      rw [Function.update_of_ne hzx, hn]
      refine h.2.congr fun y hy => ?_
      have hya : y ≠ a := fun hc => ha (hc ▸ hy)
      rw [Function.update_of_ne hya]
    · rw [insertAfter_cons_ne hax]
      refine ⟨h.1, ?_⟩
      rw [Function.update_of_ne hax]
      exact ih h.2 hl

end Threaded

end Sdd.Lib
