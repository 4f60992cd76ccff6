import Sdd.Counted
import Sdd.Lib.Linked
import Mathlib.Data.List.TakeWhile

/-!
# `Sdd.Proofs.Counted`: what `next_ptr` does to a list

A call of `next_ptr` on an entry of a finite list that nobody else uses. The entries behind the
first one have any tags. `next_ptr` recurses at most 64 times and goes on in a loop then;
`call_finishes` is the induction over the depth that is left. However many entries are passed, the
call returns, all tags stay, the list behind the entry loses the deleted entries at its front
and no others, and the counts are still the numbers of references (`Cleaned`).

The result is a pointer to the first entry that is not deleted. Its tag is the one of the link
from which it was read (`firstValid`): the tag of the entry itself, or `Tag::Second` when deleted
entries were in between.
-/

set_option autoImplicit false

namespace Sdd.Proofs

open Sdd.Lib

variable {T : Type} {m m' m₁ : Counted T} {x y : Addr} {l r : List Addr} {callers : List Frame}
  {f : Frame} {p q : Ptr Addr} {handles : Addr → Nat}

namespace Counted

/-- Where the link of an entry leads. -/
def next (m : Counted T) (x : Addr) : Option Addr := (m.link x).addr

/-- `next_ptr` passes the entry. -/
def passes (m : Counted T) (x : Addr) : Bool := (m.link x).tag == .second

/-- What the test says. -/
theorem passes_iff : passes m x = true ↔ (m.link x).tag = .second := beq_iff_eq

/-- The first entry that `next_ptr` does not pass. `tag` is the tag of the link to the list. -/
def firstValid (m : Counted T) (tag : Tag) : List Addr → Ptr Addr
  | [] => .null
  | x :: l => if passes m x then firstValid m .second l else ⟨some x, tag⟩

/-- Each count is the number of references: links, and handles. -/
def Balanced (handles : Addr → Nat) (m : Counted T) : Prop :=
  ∀ x, m.strong x = m.links x + handles x

/-- What a call of `next_ptr` on the entry `x` leaves, if `l` is the list behind it. -/
structure Cleaned (handles : Addr → Nat) (m : Counted T) (x : Addr) (l : List Addr)
    (m' : Counted T) : Prop where
  tags : ∀ y, (m'.link y).tag = (m.link y).tag
  value : m'.value = m.value
  nextAddr : m'.nextAddr = m.nextAddr
  others : ∀ y, y ∉ x :: l → m'.link y = m.link y
  list : Linked (next m') (next m' x) (l.dropWhile (passes m))
  balanced : Balanced handles m'

end Counted

section lists

variable {A : Type} {succ : A → Option A} {s : Option A} {a b : A} {k : List A}

/-- No entry of a finite list comes twice. -/
theorem nodup_of_linked (h : Linked succ s k) : k.Nodup := by
  induction k generalizing s with
  | nil => exact List.nodup_nil
  | cons a k ih =>
    refine List.nodup_cons.mpr ⟨fun ha => ?_, ih h.2⟩
    obtain ⟨f, g, rfl⟩ := List.append_of_mem ha
    -- The list behind the entry would be longer than itself.
    have hlen := congrArg List.length (h.2.unique h.2.after)
    simp at hlen
    omega

/-- An entry of a list has a predecessor. -/
theorem exists_pred (h : Linked succ (succ a) k) (hb : b ∈ k) :
    ∃ c, c ∈ a :: k ∧ succ c = some b := by
  induction k generalizing a with
  | nil => cases hb
  | cons c k ih =>
    rcases List.mem_cons.mp hb with rfl | hb
    · exact ⟨a, List.mem_cons_self, h.1⟩
    · obtain ⟨d, hd, heq⟩ := ih h.2 hb
      exact ⟨d, List.mem_cons_of_mem a hd, heq⟩

/-- The first entries of a list are passed. -/
theorem linked_dropWhile (h : Linked succ s k) (test : A → Bool) :
    Linked succ (k.dropWhile test).head? (k.dropWhile test) := by
  induction k generalizing s with
  | nil => rfl
  | cons a k ih =>
    rw [List.dropWhile_cons]
    split
    · exact ih h.2
    · exact ⟨rfl, h.2⟩

end lists

namespace Counted

/-- The entry to which `next_ptr` leads. -/
theorem firstValid_addr (tag : Tag) : (firstValid m tag l).addr = (l.dropWhile (passes m)).head? := by
  induction l generalizing tag with
  | nil => rfl
  | cons x l ih =>
    rw [firstValid, List.dropWhile_cons]
    split
    · exact ih .second
    · rfl

/-- The result depends on the tags only. -/
theorem firstValid_congr {tag : Tag} (h : ∀ y, (m'.link y).tag = (m.link y).tag) :
    firstValid m' tag l = firstValid m tag l := by
  induction l generalizing tag with
  | nil => rfl
  | cons x l ih =>
    have hx : passes m' x = passes m x := congrArg (· == Tag.second) (h x)
    rw [firstValid, firstValid, hx, ih]

/-- A link is written. -/
def setLink (m : Counted T) (x : Addr) (p : Ptr Addr) (strong : Addr → Nat) : Counted T :=
  { m with link := Function.update m.link x p, strong := strong }

/-- How the number of links to an entry changes when a link is written. -/
theorem links_setLink (hx : x < m.nextAddr) (strong : Addr → Nat) (y : Addr) :
    (setLink m x p strong).links y + (if next m x = some y then 1 else 0) =
      m.links y + (if p.addr = some y then 1 else 0) := by
  have hcount : ∀ n, (List.range n).countP (fun z => (Function.update m.link x p z).addr == some y) +
      (if x < n ∧ next m x = some y then 1 else 0) =
      (List.range n).countP (fun z => (m.link z).addr == some y) +
        (if x < n ∧ p.addr = some y then 1 else 0) := by
    intro n
    induction n with
    | zero => simp
    | succ n ih =>
      rw [List.range_succ, List.countP_append, List.countP_append, List.countP_singleton,
        List.countP_singleton]
      by_cases hn : n = x
      · subst hn
        simp only [Nat.lt_irrefl, false_and, if_false, Nat.add_zero] at ih
        rw [ih, Function.update_self]
        simp only [Nat.lt_succ_self, true_and, beq_iff_eq]
        show _ + _ + (if (m.link n).addr = some y then 1 else 0) = _
        omega
      · rw [Function.update_of_ne hn]
        have hlt : x < n + 1 ↔ x < n :=
          ⟨fun h => Nat.lt_of_le_of_ne (Nat.le_of_lt_succ h) (Ne.symm hn), Nat.lt_succ_of_lt⟩
        simp only [hlt]
        omega
  have hall := hcount m.nextAddr
  simp only [hx, true_and] at hall
  exact hall

variable {done : Counted T × Outcome NextPtr (Ptr Addr) → Prop}

/-- A call that runs alone comes to a state in `done`. -/
abbrev Finishes (done : Counted T × Outcome NextPtr (Ptr Addr) → Prop)
    (s : Counted T × Outcome NextPtr (Ptr Addr)) : Prop :=
  Ends (Outcome.advance Counted.step) (fun _ _ => False) done s

/-- A step before the end. -/
theorem finishes_step {call : NextPtr} (h : Finishes done (m.step call)) :
    Finishes done (m, .running call) :=
  Ends.of_step (· = (m, .running call)) (fun _ _ _ he => he.elim)
    (fun _ hs => ⟨_, hs ▸ rfl, h⟩) rfl

/-- A call returns: to its caller, or to the program. -/
def back (p : Ptr Addr) : List Frame → Outcome NextPtr (Ptr Addr)
  | [] => .done p
  | g :: callers => NextPtr.found callers g p

/-- The link of the entry on which a call is made has been updated. -/
structure Updated (handles : Addr → Nat) (m : Counted T) (x : Addr) (o : Option Addr)
    (m' : Counted T) : Prop where
  tags : ∀ y, (m'.link y).tag = (m.link y).tag
  value : m'.value = m.value
  nextAddr : m'.nextAddr = m.nextAddr
  others : ∀ y, y ≠ x → m'.link y = m.link y
  next : next m' x = o
  balanced : Balanced handles m'

/-- The reference of the link moves from the old entry to the new one, which the call has
referred to before. -/
theorem updated_exchange (hb : Balanced handles m) (hx : x < m.nextAddr) (hp : p.tag = (m.link x).tag)
    (hshared : ∀ y, m₁.strong y = m.strong y + (if p.addr = some y then 1 else 0))
    (hlink : m₁.link = m.link) (hvalue : m₁.value = m.value) (haddr : m₁.nextAddr = m.nextAddr) :
    Updated handles m x p.addr (setLink m₁ x p (m₁.release (next m x))) where
  tags y := by
    show (Function.update m₁.link x p y).tag = _
    rw [hlink]
    by_cases hyx : y = x
    · rw [hyx, Function.update_self, hp]
    · rw [Function.update_of_ne hyx]
  value := hvalue
  nextAddr := haddr
  others y hy := by
    show Function.update m₁.link x p y = _
    rw [hlink, Function.update_of_ne hy]
  next := by
    show (Function.update m₁.link x p x).addr = _
    rw [Function.update_self]
  balanced y := by
    have hlinks := links_setLink (m := m₁) (p := p) (haddr ▸ hx) (m₁.release (next m x)) y
    have hsame : m₁.links y = m.links y := by
      unfold Counted.links
      rw [hlink, haddr]
    have hnext : next m₁ x = next m x := by
      unfold next
      rw [hlink]
    rw [hsame, hnext] at hlinks
    have hbal := hb y
    have hstrong := hshared y
    show m₁.release (next m x) y = _
    -- The link that is written is one of the links to the old entry.
    have hrelease : m₁.release (next m x) y + (if next m x = some y then 1 else 0) =
        m₁.strong y ∨ next m x = some y ∧ m₁.strong y = 0 := by
      cases next m x with
      | none => exact .inl rfl
      | some z =>
        show Function.update m₁.strong z (m₁.strong z - 1) y + _ = _ ∨ _
        by_cases hzy : z = y
        · subst hzy
          rw [Function.update_self, if_pos rfl]
          by_cases hzero : m₁.strong z = 0
          · exact .inr ⟨rfl, hzero⟩
          · exact .inl (Nat.sub_add_cancel (Nat.pos_of_ne_zero hzero))
        · rw [Function.update_of_ne (Ne.symm hzy), if_neg fun hc => hzy (Option.some.inj hc)]
          exact .inl rfl
    rcases hrelease with hrelease | ⟨hold, hzero⟩
    · omega
    · rw [if_pos hold] at hlinks
      omega

/-- The call has found an entry. It updates its link, if that leads elsewhere, and returns. -/
theorem found_finishes (hb : Balanced handles m) (hx : f.head < m.nextAddr)
    (hl : m.link f.head = f.headNext)
    (hp : ∀ y, p.addr = some y → ∃ z, z < m.nextAddr ∧ next m z = some y)
    (hdone : ∀ m', Updated handles m f.head p.addr m' → Finishes done (m', back p callers)) :
    Finishes done (m, NextPtr.found callers f p) := by
  -- The link leads to the entry already, or it is exchanged.
  have hsplit : (p.withTag f.headNext.tag = f.headNext ∧
        NextPtr.found callers f p = back p callers) ∨
      (NextPtr.found callers f p = if p.isNull then
        .running (.exchange callers { f with depth := 0 } p)
        else .running (.getShared callers { f with depth := 0 } p)) := by
    unfold NextPtr.found
    by_cases heq : p.withTag f.headNext.tag = f.headNext
    · refine .inl ⟨heq, ?_⟩
      simp only [ne_eq, heq, not_true_eq_false, if_false]
      cases callers <;> rfl
    · refine .inr ?_
      simp only [ne_eq, heq, not_false_eq_true, if_true]
  rcases hsplit with ⟨heq, hfound⟩ | hfound
  · rw [hfound]
    refine hdone m ⟨fun _ => rfl, rfl, rfl, fun _ _ => rfl, ?_, hb⟩
    rw [next, hl, ← heq, Ptr.withTag_addr]
  · rw [hfound]
    -- The exchange succeeds, whatever the counts are.
    have hexchange : ∀ m₁ : Counted T,
        (∀ y, m₁.strong y = m.strong y + (if p.addr = some y then 1 else 0)) →
        m₁.link = m.link → m₁.value = m.value → m₁.nextAddr = m.nextAddr →
        Finishes done (m₁, .running (.exchange callers { f with depth := 0 } p)) := by
      intro m₁ hshared hlink hvalue haddr
      have hl₁ : m₁.heap.link f.head = f.headNext := by
        show m₁.link f.head = _
        rw [hlink, hl]
      have htag : (p.withTag f.headNext.tag).tag = (m.link f.head).tag := by rw [hl]; rfl
      have hupdated := updated_exchange (p := p.withTag f.headNext.tag) hb hx htag hshared hlink
        hvalue haddr
      have hstep : m₁.step (.exchange callers { f with depth := 0 } p) =
          (setLink m₁ f.head (p.withTag f.headNext.tag) (m₁.release (next m f.head)),
            back p callers) := by
        have hl₂ : m₁.link f.head = f.headNext := hl₁
        unfold Counted.step
        simp only [NextPtr.step, Counted.counts, hl₁, if_true, hl₂]
        rw [next, hl]
        cases callers <;> rfl
      refine finishes_step ?_
      rw [hstep]
      exact hdone _ hupdated
    cases hnull : p.isNull with
    | true =>
      rw [if_pos rfl]
      have hnone : p.addr = none := Option.isNone_iff_eq_none.mp hnull
      refine hexchange m (fun y => ?_) rfl rfl rfl
      rw [hnone, if_neg nofun, Nat.add_zero]
    | false =>
      rw [if_neg nofun]
      obtain ⟨y, hy⟩ := Option.isSome_iff_exists.mp (Option.isNone_eq_false_iff.mp hnull)
      -- A link refers to the entry, so that its count is not zero.
      obtain ⟨z, hz, hzy⟩ := hp y hy
      have hpos : m.strong y ≠ 0 := by
        have hlinks : 0 < m.links y :=
          List.countP_pos_iff.mpr ⟨z, List.mem_range.mpr hz, beq_iff_eq.mpr hzy⟩
        have hbal := hb y
        omega
      have hshared : m.heap.getShared p = some y := by
        unfold Heap.getShared
        rw [hy]
        simp [Option.filter, Counted.heap, hpos]
      have hstep : m.step (.getShared callers { f with depth := 0 } p) =
          ({ m with strong := Function.update m.strong y (m.strong y + 1) },
            .running (.exchange callers { f with depth := 0 } p)) := by
        unfold Counted.step
        simp only [NextPtr.step, Counted.counts, hshared]
        rfl
      refine finishes_step ?_
      rw [hstep]
      refine hexchange _ (fun z => ?_) rfl rfl rfl
      show Function.update m.strong y (m.strong y + 1) z = _
      by_cases hzy : z = y
      · rw [hzy, Function.update_self, if_pos hy]
      · have hne : p.addr ≠ some z := fun hc => hzy (Option.some.inj (hy.symm.trans hc)).symm
        rw [Function.update_of_ne hzy, if_neg hne, Nat.add_zero]

/-- The inner loop passes the entries that are deleted, when it may not recurse any more. -/
theorem inner_finishes (hdepth : f.depth = 0) (hl : Linked (next m) p.addr l)
    (hdone : Finishes done (m, NextPtr.found callers f (firstValid m p.tag l))) :
    Finishes done (m, NextPtr.inner callers f p) := by
  induction l generalizing p with
  | nil =>
    have hnone : p.addr = none := hl
    unfold NextPtr.inner
    rw [hnone]
    exact hdone
  | cons y l ih =>
    have hy : p.addr = some y := hl.1
    unfold NextPtr.inner
    rw [hy]
    refine finishes_step ?_
    rw [firstValid] at hdone
    unfold Counted.step
    simp only [NextPtr.step]
    by_cases hpass : (m.link y).tag = .second
    · rw [if_pos (passes_iff.mpr hpass)] at hdone
      have hrest := ih (p := m.link y) hl.2 (hpass ▸ hdone)
      have hpass' : ¬(m.heap.link y).tag ≠ .second := not_not.mpr hpass
      simp only [if_neg hpass', hdepth, ne_eq, not_true_eq_false, if_false]
      exact hrest
    · rw [if_neg fun hc => hpass (passes_iff.mp hc)] at hdone
      have hpass' : (m.heap.link y).tag ≠ .second := hpass
      simp only [if_pos hpass']
      exact hdone

/-- The words when a call on the entry `x` updates the link of `x`: deleted entries behind it may
have been cleaned up by a recursive call. -/
structure Before (m : Counted T) (x : Addr) (l : List Addr) (m₁ : Counted T) : Prop where
  tags : ∀ y, (m₁.link y).tag = (m.link y).tag
  value : m₁.value = m.value
  nextAddr : m₁.nextAddr = m.nextAddr
  others : ∀ y, y ∉ l → m₁.link y = m.link y
  list : Linked (next m₁) (l.dropWhile (passes m)).head? (l.dropWhile (passes m))

/-- The link of an entry now leads to the first valid entry: the list is clean. -/
theorem Updated.cleaned (h : Updated handles m₁ x (l.dropWhile (passes m)).head? m')
    (hm : Before m x l m₁) (hx : x ∉ l) : Cleaned handles m x l m' where
  tags y := (h.tags y).trans (hm.tags y)
  value := h.value.trans hm.value
  nextAddr := h.nextAddr.trans hm.nextAddr
  others y hy := (h.others y fun hc => hy (hc ▸ List.mem_cons_self)).trans
    (hm.others y fun hc => hy (List.mem_cons_of_mem x hc))
  list := by
    rw [h.next]
    refine hm.list.congr fun y hy => ?_
    have hne : y ≠ x := fun hc => hx (hc ▸ (List.dropWhile_suffix _).subset hy)
    exact congrArg Ptr.addr (h.others y hne)
  balanced := h.balanced

/-- A call of `next_ptr_recursive` on the entry `x` that may recurse `depth` times returns to its
callers, however many entries it passes. -/
theorem call_finishes (depth : Nat) (hb : Balanced handles m) (hx : x < m.nextAddr)
    (hmem : ∀ y ∈ l, y < m.nextAddr) (hl : Linked (next m) (next m x) l)
    (hdone : ∀ m', Cleaned handles m x l m' →
      Finishes done (m', back (firstValid m (m.link x).tag l) callers)) :
    Finishes done (m, .running (.loadHead callers x depth)) := by
  induction depth generalizing callers x l with
  | zero =>
    have hnot : x ∉ l := (List.nodup_cons.mp (nodup_of_linked (s := some x) ⟨rfl, hl⟩)).1
    have hbefore : Before m x l m :=
      ⟨fun _ => rfl, rfl, rfl, fun _ _ => rfl, linked_dropWhile hl _⟩
    refine finishes_step (inner_finishes rfl hl (found_finishes hb hx rfl (fun y hy => ?_) ?_))
    · rw [firstValid_addr] at hy
      have hyl := (List.dropWhile_suffix _).subset (List.mem_of_mem_head? hy)
      obtain ⟨z, hz, hnext⟩ := exists_pred hl hyl
      refine ⟨z, ?_, hnext⟩
      rcases List.mem_cons.mp hz with rfl | hz
      · exact hx
      · exact hmem z hz
    · rw [firstValid_addr]
      exact fun m' hu => hdone m' (hu.cleaned hbefore hnot)
  | succ depth ih =>
    have hnot : x ∉ l := (List.nodup_cons.mp (nodup_of_linked (s := some x) ⟨rfl, hl⟩)).1
    have hbefore : Before m x l m :=
      ⟨fun _ => rfl, rfl, rfl, fun _ _ => rfl, linked_dropWhile hl _⟩
    refine finishes_step ?_
    show Finishes done (m, NextPtr.inner callers ⟨x, m.link x, depth + 1⟩ (m.link x))
    cases l with
    | nil =>
      have hnone : (m.link x).addr = none := hl
      unfold NextPtr.inner
      rw [hnone]
      exact found_finishes (p := .null) hb hx rfl nofun fun m' hu =>
        hdone m' (Updated.cleaned hu hbefore hnot)
    | cons y l =>
      have hy : (m.link x).addr = some y := hl.1
      have hlt := hmem y List.mem_cons_self
      unfold NextPtr.inner
      rw [hy]
      refine finishes_step ?_
      unfold Counted.step
      simp only [NextPtr.step]
      rw [firstValid] at hdone
      by_cases hpass : (m.link y).tag = .second
      · -- A recursive call cleans up behind the deleted entry.
        rw [if_pos (passes_iff.mpr hpass)] at hdone
        have hpass' : ¬(m.heap.link y).tag ≠ .second := not_not.mpr hpass
        simp only [if_neg hpass', ne_eq, Nat.succ_ne_zero, not_false_eq_true, if_true]
        refine ih hlt (fun z hz => hmem z (List.mem_cons_of_mem y hz)) hl.2 fun m₁ hc => ?_
        have hdrop : (y :: l).dropWhile (passes m) = l.dropWhile (passes m) := by
          rw [List.dropWhile_cons, if_pos (passes_iff.mpr hpass)]
        have hnext : next m₁ y = (l.dropWhile (passes m)).head? := hc.list.head_eq
        have hbefore₁ : Before m x (y :: l) m₁ := by
          refine ⟨hc.tags, hc.value, hc.nextAddr, hc.others, ?_⟩
          rw [hdrop, ← hnext]
          exact hc.list
        rw [hpass]
        refine found_finishes hc.balanced (hc.nextAddr ▸ hx) (hc.others x hnot) (fun z hz => ?_)
          fun m' hu => ?_
        · rw [firstValid_addr] at hz
          exact ⟨y, hc.nextAddr ▸ hlt, hnext.trans hz⟩
        · refine hdone m' (Updated.cleaned ?_ hbefore₁ hnot)
          rw [hdrop, ← firstValid_addr .second]
          exact hu
      · rw [if_neg fun hc => hpass (passes_iff.mp hc)] at hdone
        have hpass' : (m.heap.link y).tag ≠ .second := hpass
        simp only [if_pos hpass']
        refine found_finishes hb hx rfl (fun z hz => ⟨x, hx, ?_⟩) fun m' hu => ?_
        · cases hz
          exact hy
        · refine hdone m' (Updated.cleaned ?_ hbefore hnot)
          rw [List.dropWhile_cons, if_neg fun hc => hpass (passes_iff.mp hc)]
          exact hu

/-- A list of entries that are allocated, from the entry `x` on, with counts that are right. -/
structure ListAt (handles : Addr → Nat) (m : Counted T) (x : Addr) (l : List Addr) : Prop where
  balanced : Balanced handles m
  allocated : ∀ y ∈ x :: l, y < m.nextAddr
  list : Linked (next m) (next m x) l

/-- What a call of `next_ptr` returns and leaves. -/
theorem gives_firstValid (h : ListAt handles m x l) {Q : Counted T → Ptr Addr → Prop}
    (hQ : ∀ m', Cleaned handles m x l m' → Q m' (firstValid m (m.link x).tag l)) :
    m.NextPtrGives x Q :=
  call_finishes 64 h.balanced (h.allocated x List.mem_cons_self)
    (fun y hy => h.allocated y (List.mem_cons_of_mem x hy)) h.list
    fun m' hc => .done ⟨m', _, rfl, hQ m' hc⟩

/-- The list after a call is as good as before. -/
theorem Cleaned.listAt (hc : Cleaned handles m x l m') (h : ListAt handles m x l) :
    ListAt handles m' x (l.dropWhile (passes m)) where
  balanced := hc.balanced
  allocated y hy := by
    rw [hc.nextAddr]
    refine h.allocated y ?_
    rcases List.mem_cons.mp hy with rfl | hy
    · exact List.mem_cons_self
    · exact List.mem_cons_of_mem x ((List.dropWhile_suffix _).subset hy)
  list := hc.list

/-- The entries that are not deleted. -/
def undeleted (m : Counted T) (l : List Addr) : List Addr := l.filter fun y => !m.heap.isDeleted y

/-- The entries that `next_ptr` passes are deleted. -/
theorem undeleted_dropWhile (m : Counted T) (l : List Addr) :
    undeleted m (l.dropWhile (passes m)) = undeleted m l := by
  induction l with
  | nil => rfl
  | cons y l ih =>
    rw [List.dropWhile_cons]
    split
    · rename_i hpass
      have hdel : m.heap.isDeleted y = true := by
        have htag : (m.heap.link y).tag = .second := passes_iff.mp hpass
        simp [Heap.isDeleted, htag]
      rw [ih, undeleted, undeleted, List.filter_cons_of_neg (by simp [hdel])]
    · rfl

/-- The same entries are undeleted after a clean-up. -/
theorem Cleaned.undeleted (hc : Cleaned handles m x l m') (k : List Addr) :
    undeleted m' k = undeleted m k := by
  refine List.filter_congr fun y _ => ?_
  have htag : (m'.heap.link y).tag = (m.heap.link y).tag := hc.tags y
  simp [Heap.isDeleted, htag]

/-- A call of `next_ptr` on the entry `x` of a finite list returns, whatever the tags are. It
returns the first entry behind `x` that it does not pass, and then the link of `x` leads to it.
No tag has changed, and neither has the sequence of the undeleted entries. The counts are still
the numbers of references. -/
theorem nextPtr_cleans_list (h : ListAt handles m x l) :
    m.NextPtrGives x fun m' p =>
      p.addr = (l.find? fun y => !passes m y) ∧ next m' x = p.addr ∧
      (∀ y, (m'.link y).tag = (m.link y).tag) ∧
      (∃ l', Linked (next m') (next m' x) l' ∧ l' = l.dropWhile (passes m) ∧
        undeleted m' l' = undeleted m l) ∧
      (∀ y, m'.strong y = m'.links y + handles y) ∧ m'.value = m.value := by
  refine gives_firstValid h fun m' hc => ?_
  have haddr := firstValid_addr (m := m) (l := l) (m.link x).tag
  refine ⟨?_, hc.list.head_eq.trans haddr.symm, hc.tags, ⟨_, hc.list, rfl, ?_⟩, hc.balanced,
    hc.value⟩
  · rw [haddr, List.find?_not_eq_head?_dropWhile]
  · rw [hc.undeleted, undeleted_dropWhile]

/-- The program has a handle to the first entry only. The second one is deleted, and the third
one is marked. -/
def deletedBetween : Counted Nat where
  link x := if x = 0 then ⟨some 1, .none⟩ else if x = 1 then ⟨some 2, .second⟩
    else if x = 2 then ⟨none, .first⟩ else .null
  value x := if x < 3 then some x else none
  strong x := if x < 3 then 1 else 0
  nextAddr := 3

/-- The same list after the deleted entry was unlinked. -/
def unlinkedBetween : Counted Nat where
  link x := if x = 0 then ⟨some 2, .none⟩ else if x = 1 then ⟨none, .second⟩
    else if x = 2 then ⟨none, .first⟩ else .null
  value x := if x < 3 then some x else none
  strong x := if x = 0 ∨ x = 2 then 1 else 0
  nextAddr := 3

/-- The only handle refers to the first entry. -/
def handleToFirst (x : Addr) : Nat := if x = 0 then 1 else 0

/-- The list behind the first entry has two entries, the first of them deleted. -/
theorem deletedBetween_listAt : ListAt handleToFirst deletedBetween 0 [1, 2] where
  balanced y := by
    rcases Nat.lt_or_ge y 3 with hy | hy
    · revert hy
      revert y
      decide
    · have h0 : y ≠ 0 := fun hc => absurd (hc ▸ hy) (by decide)
      have h1 : ¬1 = y := fun hc => absurd (hc ▸ hy) (by decide)
      have h2 : ¬2 = y := fun hc => absurd (hc ▸ hy) (by decide)
      simp [deletedBetween, Counted.links, handleToFirst, List.range_succ, h0, h1, h2,
        Nat.not_lt.mpr hy]
  allocated := by decide
  list := ⟨rfl, rfl, rfl⟩

/-- The same list without the deleted entry. -/
theorem unlinkedBetween_listAt : ListAt handleToFirst unlinkedBetween 0 [2] where
  balanced y := by
    rcases Nat.lt_or_ge y 3 with hy | hy
    · revert hy
      revert y
      decide
    · have h0 : y ≠ 0 := fun hc => absurd (hc ▸ hy) (by decide)
      have h2 : ¬2 = y := fun hc => absurd (hc ▸ hy) (by decide)
      have h2' : ¬y = 2 := fun hc => h2 hc.symm
      simp [unlinkedBetween, Counted.links, handleToFirst, List.range_succ, h0, h2, h2']
  allocated := by decide
  list := ⟨rfl, rfl⟩

/-- `next_ptr` takes the deleted entry out of the list. -/
theorem nextPtr_cleans_deletedBetween :
    deletedBetween.NextPtrGives 0 fun m' p =>
      p.addr = ([1, 2].find? fun y => !passes deletedBetween y) ∧ next m' 0 = p.addr ∧
      (∀ y, (m'.link y).tag = (deletedBetween.link y).tag) ∧
      (∃ l', Linked (next m') (next m' 0) l' ∧ l' = [1, 2].dropWhile (passes deletedBetween) ∧
        undeleted m' l' = undeleted deletedBetween [1, 2]) ∧
      (∀ y, m'.strong y = m'.links y + handleToFirst y) ∧ m'.value = deletedBetween.value :=
  nextPtr_cleans_list deletedBetween_listAt

/-- The entries that `next_ptr` does not pass. -/
def valid (m : Counted T) (l : List Addr) : List Addr := l.filter fun y => !passes m y

/-- The entry directly behind the first one is passed. -/
def passesNext (m : Counted T) (l : List Addr) : Bool := l.head?.any (passes m)

/-- The first valid entry is the head of the valid ones. -/
theorem valid_head? : (l.dropWhile (passes m)).head? = (valid m l).head? := by
  rw [valid, List.head?_filter, List.find?_not_eq_head?_dropWhile]

/-- The entries that are skipped are not valid. -/
theorem valid_dropWhile : valid m (l.dropWhile (passes m)) = valid m l := by
  induction l with
  | nil => rfl
  | cons x l ih =>
    cases hpass : passes m x with
    | false => rw [List.dropWhile_cons_of_neg (by simp [hpass])]
    | true =>
      rw [List.dropWhile_cons_of_pos hpass, ih, valid, valid,
        List.filter_cons_of_neg (by simp [hpass])]

/-- After the clean-up nothing is skipped. -/
theorem passesNext_dropWhile : passesNext m (l.dropWhile (passes m)) = false := by
  have hnot := List.head?_dropWhile_not (passes m) l
  unfold passesNext
  cases hhead : (l.dropWhile (passes m)).head? with
  | none => rfl
  | some y =>
    rw [hhead] at hnot
    exact hnot

/-- The tag of the result is the tag of the link from which it was read. -/
theorem firstValid_eq (tag : Tag) :
    firstValid m tag l = match (valid m l).head? with
      | none => .null
      | some y => ⟨some y, if passesNext m l then .second else tag⟩ := by
  induction l generalizing tag with
  | nil => rfl
  | cons x l ih =>
    cases hpass : passes m x with
    | false => simp [firstValid, valid, passesNext, hpass]
    | true =>
      have hvalid : valid m (x :: l) = valid m l := List.filter_cons_of_neg (by simp [hpass])
      have hnext : passesNext m (x :: l) = true := hpass
      rw [firstValid, if_pos hpass, ih, hvalid, hnext]
      cases (valid m l).head? with
      | none => rfl
      | some y => simp

/-- Two results that come from the same undeleted entries. -/
theorem firstValid_eq_iff {tag : Tag} {l₁ l₂ : List Addr} (hsame : valid m₁ l₁ = valid m l₂) :
    firstValid m₁ tag l₁ = firstValid m tag l₂ ↔
      valid m₁ l₁ = [] ∨ tag = .second ∨ passesNext m₁ l₁ = passesNext m l₂ := by
  rw [firstValid_eq, firstValid_eq, ← hsame]
  cases hv : valid m₁ l₁ with
  | nil => simp
  | cons y k =>
    simp only [List.head?_cons, Ptr.mk.injEq, true_and, reduceCtorEq, false_or]
    cases passesNext m₁ l₁ <;> cases passesNext m l₂ <;> simp [eq_comm]

/-- Two lists behind entries with the same tag, with the same undeleted entries. `next_ptr` returns
pointers to the same entry. They are equal when there is no entry, when the first entries are
deleted, and when a deleted entry comes first in both lists or in neither; else their tags differ.
A second call returns a pointer to the same entry as the first one. -/
theorem nextPtr_same_entry {handles₁ handles₂ : Addr → Nat} {m₂ : Counted T} {l₁ l₂ : List Addr}
    (h₁ : ListAt handles₁ m₁ x l₁) (h₂ : ListAt handles₂ m₂ x l₂)
    (htag : (m₁.link x).tag = (m₂.link x).tag) (hsame : valid m₁ l₁ = valid m₂ l₂) :
    (∃ p₁ p₂, m₁.NextPtrGives x (fun _ p => p = p₁) ∧ m₂.NextPtrGives x (fun _ p => p = p₂) ∧
      p₁.addr = p₂.addr ∧
      (p₁ = p₂ ↔ valid m₁ l₁ = [] ∨ (m₁.link x).tag = .second ∨
        passesNext m₁ l₁ = passesNext m₂ l₂)) ∧
    m₁.NextPtrGives x fun m' p => m'.NextPtrGives x fun _ p' =>
      p'.addr = p.addr ∧
      (p' = p ↔ valid m₁ l₁ = [] ∨ (m₁.link x).tag = .second ∨ passesNext m₁ l₁ = false) := by
  refine ⟨⟨_, _, gives_firstValid h₁ fun _ _ => rfl, gives_firstValid h₂ fun _ _ => rfl, ?_, ?_⟩,
    gives_firstValid h₁ fun m' hc => gives_firstValid (hc.listAt h₁) fun _ _ => ?_⟩
  · rw [firstValid_addr, firstValid_addr, valid_head?, valid_head?, hsame]
  · rw [← htag]
    exact firstValid_eq_iff hsame
  · -- No entry is passed by the second call.
    have hpasses : passes m' = passes m₁ := funext fun y => congrArg (· == Tag.second) (hc.tags y)
    have hvalid : valid m' (l₁.dropWhile (passes m₁)) = valid m₁ l₁ := by
      rw [valid, hpasses]
      exact valid_dropWhile
    have hnext : passesNext m' (l₁.dropWhile (passes m₁)) = false := by
      rw [passesNext, hpasses]
      exact passesNext_dropWhile
    rw [hc.tags x]
    refine ⟨?_, ?_⟩
    · rw [firstValid_addr, firstValid_addr, valid_head?, valid_head?, hvalid]
    · rw [firstValid_eq_iff hvalid, hvalid, hnext, eq_comm (a := false)]

/-- The two lists give the same entry, with different tags. -/
theorem nextPtr_same_entry_between :
    (∃ p₁ p₂, deletedBetween.NextPtrGives 0 (fun _ p => p = p₁) ∧
      unlinkedBetween.NextPtrGives 0 (fun _ p => p = p₂) ∧ p₁.addr = p₂.addr ∧
      (p₁ = p₂ ↔ valid deletedBetween [1, 2] = [] ∨ (deletedBetween.link 0).tag = .second ∨
        passesNext deletedBetween [1, 2] = passesNext unlinkedBetween [2])) ∧
    deletedBetween.NextPtrGives 0 fun m' p => m'.NextPtrGives 0 fun _ p' =>
      p'.addr = p.addr ∧ (p' = p ↔ valid deletedBetween [1, 2] = [] ∨
        (deletedBetween.link 0).tag = .second ∨ passesNext deletedBetween [1, 2] = false) :=
  nextPtr_same_entry deletedBetween_listAt unlinkedBetween_listAt rfl (by decide)

/-- The same entry, but other tags: with the deleted entry in between, the pointer is its link. -/
theorem nextPtr_tags_differ :
    (deletedBetween.link 0).tag = (unlinkedBetween.link 0).tag ∧
    undeleted deletedBetween [1, 2] = undeleted unlinkedBetween [2] ∧
    Linked (next deletedBetween) (next deletedBetween 0) [1, 2] ∧
    Linked (next unlinkedBetween) (next unlinkedBetween 0) [2] ∧
    deletedBetween.NextPtrGives 0 (fun _ p => p = ⟨some 2, .second⟩) ∧
    unlinkedBetween.NextPtrGives 0 (fun _ p => p = ⟨some 2, .none⟩) ∧
    deletedBetween.NextPtrGives 0 fun m' p => m'.NextPtrGives 0 fun _ p' => p' ≠ p := by
  refine ⟨rfl, by decide, deletedBetween_listAt.list, unlinkedBetween_listAt.list,
    gives_firstValid deletedBetween_listAt fun _ _ => by decide,
    gives_firstValid unlinkedBetween_listAt fun _ _ => by decide,
    gives_firstValid deletedBetween_listAt fun m' hc =>
      gives_firstValid (hc.listAt deletedBetween_listAt) fun _ _ => ?_⟩
  have htags : ∀ y, (m'.link y).tag = (deletedBetween.link y).tag := hc.tags
  rw [firstValid_congr htags, htags 0]
  decide

end Counted

end Sdd.Proofs
