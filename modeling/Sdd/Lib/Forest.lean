import Mathlib.Data.List.Nodup
import Mathlib.Data.List.Pairwise

/-!
# `Sdd.Lib.Forest`: elements that are kept on lists

Elements are kept on lists, one list for each place. A place is a root, or it is inside an
element, so that elements nest; or it is the place of the elements that are gone. `Forest`
says that no element is on two lists or twice on one, and that every element that is not
gone is `Rooted`: the elements that it is inside of lead to a root.

Two kinds of steps keep a forest. `Forest.rearrange` moves elements between the lists of some
places, and `Forest.add` puts a new element on a list. An element that is gone must have
nothing inside, and a list inside an element may only be written when the element is on the
list of a root.
-/

set_option autoImplicit false

namespace Sdd.Lib

variable {P X : Type}

/-- What a place is. -/
inductive Place (X : Type) where
  | root
  | inside (y : X)
  | gone

/-- No element is on two lists, or twice on one. -/
structure Scattered (L : P → List X) : Prop where
  nodup : ∀ p, (L p).Nodup
  disjoint : ∀ p q x, x ∈ L p → x ∈ L q → p = q

/-- The element is on some list. -/
def Listed (L : P → List X) (x : X) : Prop := ∃ p, x ∈ L p

/-- The element is on the list of a root, or inside an element that is rooted. -/
inductive Rooted (place : P → Place X) (L : P → List X) : X → Prop where
  | root {x : X} {p : P} (hx : x ∈ L p) (hp : place p = .root) : Rooted place L x
  | inside {x y : X} {p : P} (hx : x ∈ L p) (hp : place p = .inside y) (hy : Rooted place L y) :
      Rooted place L x

/-- The elements are scattered, and each one that is not gone is rooted. -/
structure Forest (place : P → Place X) (L : P → List X) : Prop extends Scattered L where
  rooted : ∀ p x, x ∈ L p → place p ≠ .gone → Rooted place L x

/-- The elements on the lists of the places `ps` are rearranged, and the other lists stay. -/
structure Rearranged (ps : List P) (L L' : P → List X) : Prop where
  nodup : ps.Nodup
  perm : (ps.flatMap L').Perm (ps.flatMap L)
  same : ∀ q, q ∉ ps → L' q = L q

/-- An element is put on the list of a place, and the other lists stay. -/
structure Added (p : P) (x : X) (L L' : P → List X) : Prop where
  perm : (L' p).Perm (x :: L p)
  same : ∀ q, q ≠ p → L' q = L q

variable {L L' : P → List X} {ps : List P} {p q : P} {x y : X} {place : P → Place X}

namespace Rearranged

/-- An element on the list of one of the places is on the list of one of them afterwards. -/
theorem mem (h : Rearranged ps L L') (hp : p ∈ ps) (hx : x ∈ L p) : ∃ q ∈ ps, x ∈ L' q :=
  List.mem_flatMap.mp (h.perm.mem_iff.mpr (List.mem_flatMap.mpr ⟨p, hp, hx⟩))

/-- An element on the list of one of the places was on the list of one of them before. -/
theorem mem_back (h : Rearranged ps L L') (hp : p ∈ ps) (hx : x ∈ L' p) : ∃ q ∈ ps, x ∈ L q :=
  List.mem_flatMap.mp (h.perm.mem_iff.mp (List.mem_flatMap.mpr ⟨p, hp, hx⟩))

/-- The same elements are listed. -/
theorem listed (h : Rearranged ps L L') : Listed L' x ↔ Listed L x := by
  constructor
  · rintro ⟨p, hx⟩
    by_cases hp : p ∈ ps
    · obtain ⟨q, -, hq⟩ := h.mem_back hp hx
      exact ⟨q, hq⟩
    · exact ⟨p, h.same p hp ▸ hx⟩
  · rintro ⟨p, hx⟩
    by_cases hp : p ∈ ps
    · obtain ⟨q, -, hq⟩ := h.mem hp hx
      exact ⟨q, hq⟩
    · exact ⟨p, (h.same p hp).symm ▸ hx⟩

end Rearranged

/-- Rearranged elements are scattered. -/
theorem Scattered.rearrange (hs : Scattered L) (h : Rearranged ps L L') : Scattered L' := by
  have hall : (ps.flatMap L').Nodup := by
    rw [h.perm.nodup_iff, List.nodup_flatMap]
    refine ⟨fun p _ => hs.nodup p, h.nodup.imp fun {p q} hpq => ?_⟩
    exact fun x hp hq => hpq (hs.disjoint p q x hp hq)
  obtain ⟨hnodup, hdisjoint⟩ := List.nodup_flatMap.mp hall
  have : Std.Symm (Function.onFun List.Disjoint L') := ⟨fun _ _ hd _ hx hy => hd hy hx⟩
  -- A place outside of `ps` shares no element with one in `ps`.
  have hmixed : ∀ p q x, p ∈ ps → q ∉ ps → x ∈ L' p → x ∈ L' q → False := by
    intro p q x hp hq hx hy
    rw [h.same q hq] at hy
    obtain ⟨r, hr, hx⟩ := h.mem_back hp hx
    exact hq (hs.disjoint r q x hx hy ▸ hr)
  refine ⟨fun p => ?_, fun p q x hx hy => ?_⟩
  · by_cases hp : p ∈ ps
    · exact hnodup p hp
    · rw [h.same p hp]
      exact hs.nodup p
  · by_cases hp : p ∈ ps <;> by_cases hq : q ∈ ps
    · by_contra hne
      exact hdisjoint.forall hp hq hne hx hy
    · exact (hmixed p q x hp hq hx hy).elim
    · exact (hmixed q p x hq hp hy hx).elim
    · rw [h.same p hp] at hx
      rw [h.same q hq] at hy
      exact hs.disjoint p q x hx hy

namespace Added

/-- The elements on a list after one was added. -/
theorem mem (h : Added p x L L') : y ∈ L' q ↔ y ∈ L q ∨ q = p ∧ y = x := by
  by_cases hq : q = p
  · subst hq
    rw [h.perm.mem_iff, List.mem_cons, or_comm]
    exact or_congr_right (and_iff_right rfl).symm
  · rw [h.same q hq]
    exact (or_iff_left fun hy => hq hy.1).symm

/-- One element more is listed. -/
theorem listed (h : Added p x L L') : Listed L' y ↔ Listed L y ∨ y = x := by
  constructor
  · rintro ⟨q, hy⟩
    rcases h.mem.mp hy with hy | ⟨-, hy⟩
    · exact .inl ⟨q, hy⟩
    · exact .inr hy
  · rintro (⟨q, hy⟩ | rfl)
    · exact ⟨q, h.mem.mpr (.inl hy)⟩
    · exact ⟨p, h.mem.mpr (.inr ⟨rfl, rfl⟩)⟩

end Added

/-- A new element keeps the elements scattered. -/
theorem Scattered.add (hs : Scattered L) (h : Added p x L L') (hx : ¬Listed L x) :
    Scattered L' := by
  refine ⟨fun q => ?_, fun q r y hy hy' => ?_⟩
  · by_cases hq : q = p
    · rw [hq, h.perm.nodup_iff]
      exact List.nodup_cons.mpr ⟨fun hp => hx ⟨p, hp⟩, hs.nodup p⟩
    · rw [h.same q hq]
      exact hs.nodup q
  · rcases h.mem.mp hy with hy | ⟨hq, rfl⟩ <;> rcases h.mem.mp hy' with hy' | ⟨hr, he⟩
    · exact hs.disjoint q r y hy hy'
    · exact absurd ⟨q, he ▸ hy⟩ hx
    · exact absurd ⟨r, hy'⟩ hx
    · exact hq.trans hr.symm

namespace Rooted

/-- A rooted element is on a list, and it is not gone. -/
theorem exists_mem (h : Rooted place L x) : ∃ p, x ∈ L p ∧ place p ≠ .gone := by
  cases h with
  | root hx hp => exact ⟨_, hx, by rw [hp]; exact nofun⟩
  | inside hx hp hy => exact ⟨_, hx, by rw [hp]; exact nofun⟩

/-- What an element is inside of is rooted. -/
theorem of_inside (h : Rooted place L x) (hs : Scattered L) (hx : x ∈ L p)
    (hp : place p = .inside y) : Rooted place L y := by
  cases h with
  | root hx' hp' =>
    rw [hs.disjoint _ _ x hx hx', hp'] at hp
    cases hp
  | inside hx' hp' hy =>
    rw [hs.disjoint _ _ x hx hx', hp'] at hp
    cases hp
    exact hy

end Rooted

namespace Forest

/-- Nothing is inside an element that is gone, or that is on no list. -/
theorem eq_nil (h : Forest place L) (hp : place p = .inside y)
    (hy : ∀ q, y ∈ L q → place q = .gone) : L p = [] := by
  refine List.eq_nil_iff_forall_not_mem.mpr fun x hx => ?_
  have hr := (h.rooted p x hx (by rw [hp]; exact nofun)).of_inside h.toScattered hx hp
  obtain ⟨q, hq, hne⟩ := hr.exists_mem
  exact hne (hy q hq)

/-- Rearranged elements are a forest, if what is gone stays gone, the elements that go have
nothing inside, and each list inside an element that is written becomes empty or has its
element on the list of a root. -/
theorem rearrange (h : Forest place L) (hr : Rearranged ps L L')
    (hgone : ∀ q, place q = .gone → L q ⊆ L' q)
    (hempty : ∀ p q y, place p = .inside y → place q = .gone → y ∈ L' q → y ∉ L q → L' p = [])
    (hinside : ∀ q ∈ ps, ∀ y, place q = .inside y →
      L' q = [] ∨ ∃ r, place r = .root ∧ y ∈ L' r) : Forest place L' := by
  have hs := h.toScattered.rearrange hr
  -- Where an element is afterwards: on a list that stays, or on one that is written.
  have hwritten : ∀ q ∈ ps, ∀ x, x ∈ L' q → place q = .gone ∨ Rooted place L' x := by
    intro q hq x hx
    cases hk : place q with
    | root => exact .inr (.root hx hk)
    | gone => exact .inl rfl
    | inside y =>
      rcases hinside q hq y hk with hnil | ⟨r, hroot, hy⟩
      · rw [hnil] at hx
        cases hx
      · exact .inr (.inside hx hk (.root hy hroot))
  have hkept : ∀ x, Rooted place L x → (∃ q, place q = .gone ∧ x ∈ L' q) ∨ Rooted place L' x := by
    intro x hx
    induction hx with
    | @root x p hx hp =>
      by_cases hps : p ∈ ps
      · obtain ⟨q, hq, hx'⟩ := hr.mem hps hx
        exact (hwritten q hq x hx').imp_left fun hk => ⟨q, hk, hx'⟩
      · exact .inr (.root ((hr.same p hps).symm ▸ hx) hp)
    | @inside x y p hx hp hy ih =>
      by_cases hps : p ∈ ps
      · obtain ⟨q, hq, hx'⟩ := hr.mem hps hx
        exact (hwritten q hq x hx').imp_left fun hk => ⟨q, hk, hx'⟩
      · rw [← hr.same p hps] at hx
        refine .inr (.inside hx hp (ih.resolve_left ?_))
        -- An element with something inside is not gone.
        rintro ⟨q, hk, hy'⟩
        have hnil : L' p = [] := by
          by_cases hyq : y ∈ L q
          · rw [hr.same p hps]
            exact h.eq_nil hp fun r hyr => h.disjoint r q y hyr hyq ▸ hk
          · exact hempty p q y hp hk hy' hyq
        rw [hnil] at hx
        cases hx
  refine ⟨hs, fun p x hx hp => ?_⟩
  obtain ⟨q, hq⟩ := hr.listed.mp ⟨p, hx⟩
  have hne : place q ≠ .gone := fun hk =>
    hp (hs.disjoint p q x hx (hgone q hk hq) ▸ hk)
  refine (hkept x (h.rooted q x hq hne)).resolve_left ?_
  rintro ⟨r, hk, hr'⟩
  exact hp (hs.disjoint p r x hx hr' ▸ hk)

/-- A new element on the list of a root, or inside an element on the list of a root. -/
theorem add (h : Forest place L) (ha : Added p x L L') (hx : ¬Listed L x)
    (hp : place p = .root ∨ ∃ y r, place p = .inside y ∧ place r = .root ∧ y ∈ L r) :
    Forest place L' := by
  have hmono : ∀ y, Rooted place L y → Rooted place L' y := by
    intro y hy
    induction hy with
    | root hx hp => exact .root (ha.mem.mpr (.inl hx)) hp
    | inside hx hp hy ih => exact .inside (ha.mem.mpr (.inl hx)) hp ih
  refine ⟨h.toScattered.add ha hx, fun q y hy hq => ?_⟩
  rcases ha.mem.mp hy with hy' | ⟨rfl, rfl⟩
  · exact hmono y (h.rooted q y hy' hq)
  · rcases hp with hp | ⟨z, r, hp, hr, hz⟩
    · exact .root hy hp
    · exact .inside hy hp (hmono z (.root hz hr))

end Forest

end Sdd.Lib
