import Mathlib.Data.List.Induction
import Sdd.Proofs.Writes

/-!
# `Sdd.Proofs.SharedList.Shape`: the order of shared entries

The entries that threads share are in one order, such that each link leads forward: an entry
that is pushed comes right behind the one that it is pushed on, and a head comes in front of
all others. `Shape` relates the heap to this order. It says that the undeleted entries of the
list of each entry `r` (`listOf r`: what was pushed behind `r`, directly or not) are among the
undeleted entries that the links lead to from `r` on, in the same order. There is one lemma
for each kind of write.
-/

set_option autoImplicit false

namespace Sdd.Proofs.SharedList

open Sdd.Lib

variable {T : Type}

/-- The list that starts at `r`: each entry comes right behind the one that it was pushed on. -/
def listOf (r : Addr) (ps : List (Addr × Addr)) : List Addr :=
  ps.foldl (fun l p => insertAfter p.1 p.2 l) [r]

/-- The undeleted entries of a list. -/
def undeleted (h : Heap T) (l : List Addr) : List Addr := l.filter fun x => !h.isDeleted x

/-- How the entries are linked, and what has become of the pushes `ps`. -/
structure Shape (h : Heap T) (dropped : Addr → Bool) (ps : List (Addr × Addr))
    (order : List Addr) (tgt : Addr → Option Addr) : Prop where
  heap : HeapOk h (listView order h.isDeleted tgt)
  nodup : order.Nodup
  unattached : ∀ x, x ∉ order → h.isDeleted x = false
  leads : ∀ x y, next h x = some y → y ∈ order
  owned : ∀ x y, dropped x = false → next h x = some y → h.released y = false
  released : ∀ x, dropped x = true → h.released x = true
  mem : ∀ p ∈ ps, p.1 ∈ order ∧ p.2 ∈ order
  head : ∀ x ∈ order, ∃ r ∈ order, r ∉ ps.map Prod.snd ∧ x ∈ listOf r ps
  listed : ∀ r ∈ order, (listOf r ps).Nodup ∧ ∀ x ∈ listOf r ps, x ∈ order
  lists : ∀ r ∈ order, ∃ l, Threaded (next h) tgt (some r) l ∧ l.Nodup ∧
    (undeleted h (listOf r ps)).Sublist l

variable {h h' : Heap T} {dropped : Addr → Bool} {ps : List (Addr × Addr)} {order : List Addr}
  {tgt : Addr → Option Addr} {x e r : Addr}

/-! ## Lists of pushes -/

/-- A list after one more push. -/
theorem listOf_concat (r x y : Addr) (ps : List (Addr × Addr)) :
    listOf r (ps ++ [(x, y)]) = insertAfter x y (listOf r ps) := by
  unfold listOf
  rw [List.foldl_concat]

/-- A list starts with its head. -/
theorem mem_listOf_self (r : Addr) (ps : List (Addr × Addr)) : r ∈ listOf r ps := by
  induction ps using List.reverseRecOn with
  | nil => exact List.mem_singleton_self r
  | append_singleton ps p ih =>
    rw [listOf_concat]
    exact mem_insertAfter.mpr (.inl ih)

/-- Nothing was pushed behind an entry that no push mentions. -/
theorem listOf_eq_singleton (hr : ∀ p ∈ ps, p.1 ≠ r) : listOf r ps = [r] := by
  induction ps using List.reverseRecOn with
  | nil => rfl
  | append_singleton ps p ih =>
    rw [listOf_concat, ih fun q hq => hr q (List.mem_append_left _ hq)]
    refine insertAfter_of_notMem fun hc => ?_
    exact hr p (List.mem_append_right _ (List.mem_singleton_self p)) (List.mem_singleton.mp hc)

/-! ## The order of the entries -/

/-- Links lead forward. -/
theorem exists_linked (hok : HeapOk h (listView order h.isDeleted tgt)) (hx : x ∈ order) :
    ∃ l, Linked (next h) (some x) l ∧ l.Nodup ∧
      ∀ y ∈ l, y = x ∨ (listView order h.isDeleted tgt).before x y := by
  induction x using hok.wf.induction with
  | _ x ih =>
    cases hn : next h x with
    | none =>
      refine ⟨[x], ⟨rfl, hn⟩, List.nodup_singleton x, fun y hy => .inl (List.mem_singleton.mp hy)⟩
    | some z =>
      obtain ⟨hz, hxz⟩ := hok.links x z hx hn
      obtain ⟨l, hl, hd, hall⟩ := ih z hxz hz
      have hbefore : ∀ y ∈ l, (listView order h.isDeleted tgt).before x y := by
        intro y hy
        rcases hall y hy with rfl | hzy
        · exact hxz
        · exact hok.trans _ _ _ hxz hzy
      refine ⟨x :: l, ⟨rfl, hn ▸ hl⟩, List.nodup_cons.mpr ⟨fun hc => ?_, hd⟩, fun y hy => ?_⟩
      · exact hok.irrefl (hbefore x hc)
      · exact (List.mem_cons.mp hy).imp_right (hbefore y)

variable {dead : Addr → Bool} {y z : Addr}

/-- The order of the entries does not change when one is put behind another. -/
theorem before_insert (hd : order.Nodup) (he : e ∉ order)
    (hyz : (listView order dead tgt).before y z) :
    (listView (insertAfter x e order) dead tgt).before y z := by
  obtain ⟨hy, hz, hlt⟩ := hyz
  have hsub := sublist_insertAfter x e order
  exact ⟨hsub.subset hy, hsub.subset hz,
    idxOf_lt_of_sublist hsub (nodup_insertAfter hd he) hy hz hlt⟩

/-- The new entry comes behind the one, and before all that are behind that. -/
theorem before_inserted (hd : order.Nodup) (he : e ∉ order) (hx : x ∈ order) :
    (listView (insertAfter x e order) dead tgt).before x e ∧
      ∀ z, (listView order dead tgt).before x z →
        (listView (insertAfter x e order) dead tgt).before e z := by
  obtain ⟨l₁, l₂, rfl, hl₁⟩ := List.eq_append_cons_of_mem hx
  have hnodup := nodup_insertAfter (x := x) hd he
  rw [insertAfter_append hl₁] at hnodup ⊢
  have hex : x ≠ e := by
    rintro rfl
    exact he hx
  have hsub : (x :: e :: l₂).Sublist (l₁ ++ x :: e :: l₂) := List.sublist_append_right _ _
  have he' : e ∈ x :: e :: l₂ := List.mem_cons_of_mem x List.mem_cons_self
  refine ⟨⟨hsub.subset List.mem_cons_self, hsub.subset he',
    idxOf_lt_of_sublist hsub hnodup List.mem_cons_self he' ?_⟩, ?_⟩
  · rw [List.idxOf_cons_self, List.idxOf_cons_ne _ hex]
    exact Nat.succ_pos _
  · rintro z ⟨-, hz, hlt⟩
    have hzx : x ≠ z := by
      rintro rfl
      exact Nat.lt_irrefl _ hlt
    have hez : e ≠ z := by
      rintro rfl
      exact he hz
    have hz₁ : z ∉ l₁ := by
      intro hc
      rw [List.idxOf_append_of_mem hc, List.idxOf_append_of_notMem hl₁] at hlt
      have hlen := List.idxOf_lt_length_iff.mpr hc
      omega
    have hz₂ : z ∈ l₂ := by
      rcases List.mem_append.mp hz with hz | hz
      · exact absurd hz hz₁
      · exact List.mem_of_ne_of_mem (Ne.symm hzx) hz
    have hz' : z ∈ x :: e :: l₂ := List.mem_cons_of_mem x (List.mem_cons_of_mem e hz₂)
    refine ⟨hsub.subset he', hsub.subset hz', idxOf_lt_of_sublist hsub hnodup he' hz' ?_⟩
    rw [List.idxOf_cons_ne _ hex, List.idxOf_cons_ne _ hzx, List.idxOf_cons_self,
      List.idxOf_cons_ne _ hez]
    exact Nat.succ_lt_succ (Nat.succ_pos _)

/-! ## Writes -/

/-- The entries that the links lead to are in the order. -/
theorem Shape.subset (hs : Shape h dropped ps order tgt) (hr : r ∈ order) {l : List Addr}
    (hl : Threaded (next h) tgt (some r) l) : ∀ y ∈ l, y ∈ order := by
  obtain ⟨path, hpath, -, hall⟩ := exists_linked hs.heap hr
  rw [hl.unique (.of_linked hs.heap.skip hpath)]
  intro y hy
  rcases hall y (List.mem_filter.mp hy).1 with rfl | hry
  · exact hr
  · exact hry.2.1

/-- The lists after a write that keeps what is deleted and where each entry leads to. -/
theorem Shape.of_redirect (hs : Shape h dropped ps order tgt) {p : Ptr Addr}
    (hdel : (h.setLink x p).isDeleted = h.isDeleted)
    (hp : p.addr.bind tgt = (next h x).bind tgt) (hr : r ∈ order) :
    ∃ l, Threaded (next (h.setLink x p)) tgt (some r) l ∧ l.Nodup ∧
      (undeleted (h.setLink x p) (listOf r ps)).Sublist l := by
  obtain ⟨l, hl, hd, hsub⟩ := hs.lists r hr
  unfold undeleted at hsub ⊢
  rw [hdel, next_setLink]
  exact ⟨l, hl.redirect hp, hd, hsub⟩

/-- A link is cleaned up. -/
theorem Shape.clean (hs : Shape h dropped ps order tgt)
    (hc : Cleans (listView order h.isDeleted tgt) h h') : Shape h' dropped ps order tgt where
  heap := by
    rw [hc.isDeleted_eq]
    exact hs.heap.cleans hc
  nodup := hs.nodup
  unattached := by
    rw [hc.isDeleted_eq]
    exact hs.unattached
  leads x y hy := by
    rcases hc with rfl | ⟨z, p, rfl, -, hp, -⟩
    · exact hs.leads x y hy
    · rw [next_setLink] at hy
      by_cases hxz : x = z
      · rw [hxz, Function.update_self] at hy
        exact (hp y hy).1
      · rw [Function.update_of_ne hxz] at hy
        exact hs.leads x y hy
  owned x y hx hy := by
    rcases hc with rfl | ⟨z, p, rfl, -, hp, -⟩
    · exact hs.owned x y hx hy
    · rw [next_setLink] at hy
      by_cases hxz : x = z
      · rw [hxz, Function.update_self] at hy
        exact (hp y hy).2.2
      · rw [Function.update_of_ne hxz] at hy
        exact hs.owned x y hx hy
  released := by
    rw [hc.fields.2.1]
    exact hs.released
  mem := hs.mem
  head := hs.head
  listed := hs.listed
  lists r hr := by
    rcases hc with rfl | ⟨z, p, rfl, -, -, htgt⟩
    · exact hs.lists r hr
    · exact hs.of_redirect (isDeleted_setLink p) htgt hr

/-- The mark of an undeleted entry is set or removed. -/
theorem Shape.retag (hs : Shape h dropped ps order tgt) (hx : x ∈ order)
    (hlive : h.isDeleted x = false) {tag : Tag} (htag : tag = .none ∨ tag = .first) :
    Shape (h.setLink x ((h.link x).withTag tag)) dropped ps order tgt := by
  have hdel : (h.setLink x ((h.link x).withTag tag)).isDeleted = h.isDeleted :=
    isDeleted_setLive hlive htag
  have hnext : next (h.setLink x ((h.link x).withTag tag)) = next h := by
    rw [next_setLink]
    exact Function.update_eq_self x (next h)
  constructor
  case heap =>
    rw [hdel]
    exact hs.heap.setLive (hs.heap.bound x hx) hlive htag (fun hatt y => hs.heap.links x y hatt)
      fun hrel y => hs.heap.owned x y hrel
  case nodup => exact hs.nodup
  case unattached =>
    rw [hdel]
    exact hs.unattached
  case leads =>
    rw [hnext]
    exact hs.leads
  case owned =>
    rw [hnext]
    exact hs.owned
  case released => exact hs.released
  case mem => exact hs.mem
  case head => exact hs.head
  case listed => exact hs.listed
  case lists => exact fun r hr => hs.of_redirect hdel rfl hr

/-- The link of an entry that nobody else has is set. -/
theorem Shape.setPrivate (hs : Shape h dropped ps order tgt) (he : e ∉ order)
    (hlt : e < h.nextAddr) {o : Option Addr}
    (ho : ∀ y, o = some y → y ∈ order ∧ h.released y = false) :
    Shape (h.setLink e ⟨o, .none⟩) dropped ps order tgt := by
  have hlive := hs.unattached e he
  have hdel : (h.setLink e ⟨o, .none⟩).isDeleted = h.isDeleted := isDeleted_private hlive
  have hnext : ∀ y z, next (h.setLink e ⟨o, .none⟩) y = some z →
      y = e ∧ o = some z ∨ next h y = some z := by
    intro y z hz
    rw [next_setLink] at hz
    by_cases hye : y = e
    · rw [hye, Function.update_self] at hz
      exact .inl ⟨hye, hz⟩
    · rw [Function.update_of_ne hye] at hz
      exact .inr hz
  constructor
  case heap =>
    rw [hdel]
    exact hs.heap.setLive hlt hlive (.inl rfl) (fun hatt => absurd hatt he)
      fun _ y hy => (ho y hy).2
  case nodup => exact hs.nodup
  case unattached =>
    rw [hdel]
    exact hs.unattached
  case leads =>
    intro y z hz
    rcases hnext y z hz with ⟨-, hz⟩ | hz
    · exact (ho z hz).1
    · exact hs.leads y z hz
  case owned =>
    intro y z hy hz
    rcases hnext y z hz with ⟨-, hz⟩ | hz
    · exact (ho z hz).2
    · exact hs.owned y z hy hz
  case released => exact hs.released
  case mem => exact hs.mem
  case head => exact hs.head
  case listed => exact hs.listed
  case lists =>
    intro r hr
    obtain ⟨l, hl, hd, hsub⟩ := hs.lists r hr
    unfold undeleted at hsub ⊢
    rw [hdel, next_setLink]
    refine ⟨l, hl.congr fun y hy => ?_, hd, hsub⟩
    have hye : y ≠ e := fun hc => he (hc ▸ hs.subset hr hl y hy)
    rw [Function.update_of_ne hye]

/-- An entry is created. -/
theorem Shape.create (hs : Shape h dropped ps order tgt) (val : T) :
    Shape (h.alloc val) dropped ps order tgt :=
  ⟨hs.heap.alloc val, hs.nodup, hs.unattached, hs.leads, hs.owned, hs.released, hs.mem, hs.head,
    hs.listed, hs.lists⟩

/-- A released entry is dropped. -/
theorem Shape.drop (hs : Shape h dropped ps order tgt) (hx : h.released x = true) :
    Shape h (Function.update dropped x true) ps order tgt where
  heap := hs.heap
  nodup := hs.nodup
  unattached := hs.unattached
  leads := hs.leads
  owned y z hy hz := by
    by_cases hyx : y = x
    · rw [hyx, Function.update_self] at hy
      cases hy
    · rw [Function.update_of_ne hyx] at hy
      exact hs.owned y z hy hz
  released y hy := by
    by_cases hyx : y = x
    · exact hyx ▸ hx
    · rw [Function.update_of_ne hyx] at hy
      exact hs.released y hy
  mem := hs.mem
  head := hs.head
  listed := hs.listed
  lists := hs.lists

/-- An entry is released when no link of an entry that was not dropped refers to it. -/
theorem Shape.release (hs : Shape h dropped ps order tgt) (hlt : x < h.nextAddr)
    (hx : ∀ y, dropped y = false → next h y ≠ some x) :
    Shape (h.release x) dropped ps order tgt where
  heap := by
    refine hs.heap.release hlt (List.all_eq_true.mpr fun y _ => ?_)
    cases hd : dropped y with
    | true => rw [hs.released y hd, Bool.true_or]
    | false =>
      have hne : (h.link y).addr ≠ some x := hx y hd
      rw [bne_iff_ne.mpr hne, Bool.or_true]
  nodup := hs.nodup
  unattached := hs.unattached
  leads := hs.leads
  owned y z hy hz := by
    have hzx : z ≠ x := by
      rintro rfl
      exact hx y hy hz
    show Function.update h.released x true z = false
    rw [Function.update_of_ne hzx]
    exact hs.owned y z hy hz
  released y hy := by
    show Function.update h.released x true y = true
    by_cases hyx : y = x
    · rw [hyx, Function.update_self]
    · rw [Function.update_of_ne hyx]
      exact hs.released y hy
  mem := hs.mem
  head := hs.head
  listed := hs.listed
  lists := hs.lists

/-- An entry is deleted. -/
theorem Shape.kill (hs : Shape h dropped ps order tgt) (hx : x ∈ order)
    (hlive : h.isDeleted x = false) :
    Shape (h.deleteSelf x).1 dropped ps order (killed (next h) tgt x) where
  heap := by
    rw [isDeleted_deleteSelf hlive]
    exact hs.heap.kill hlive hx
  nodup := hs.nodup
  unattached y hy := by
    have hyx : y ≠ x := fun hc => hy (hc ▸ hx)
    rw [isDeleted_deleteSelf hlive, Function.update_of_ne hyx]
    exact hs.unattached y hy
  leads := by
    rw [next_deleteSelf hlive]
    exact hs.leads
  owned := by
    rw [next_deleteSelf hlive, deleteSelf_eq hlive]
    exact hs.owned
  released := by
    rw [deleteSelf_eq hlive]
    exact hs.released
  mem := hs.mem
  head := hs.head
  listed := hs.listed
  lists r hr := by
    obtain ⟨l, hl, hd, hsub⟩ := hs.lists r hr
    have heq : undeleted (h.deleteSelf x).1 (listOf r ps) = (undeleted h (listOf r ps)).erase x := by
      unfold undeleted
      rw [((hs.listed r hr).1.filter _).erase_eq_filter, isDeleted_deleteSelf hlive,
        List.filter_filter]
      refine List.filter_congr fun y _ => ?_
      by_cases hyx : y = x
      · subst hyx
        simp
      · simp [hyx]
    rw [heq, next_deleteSelf hlive]
    refine ⟨l.erase x, ?_, hd.erase x, hsub.erase x⟩
    by_cases hxl : x ∈ l
    · exact hl.kill hd hxl
    · rw [List.erase_of_not_mem hxl]
      exact hl.kill_notMem hxl

/-- An entry that nothing was pushed on becomes a head. -/
theorem Shape.share (hs : Shape h dropped ps order tgt) (he : e ∉ order) (hlt : e < h.nextAddr) :
    Shape h dropped ps (e :: order) tgt := by
  have hheap : HeapOk h (listView (e :: order) h.isDeleted tgt) := by
    refine hs.heap.grow rfl rfl (fun y z hy hz => ?_) (fun y hy => ?_)
      (fun _ _ _ => before_trans) (before_wf _ _ _)
    · rcases List.mem_cons.mp hy with rfl | hy
      · have hz' := hs.leads y z hz
        exact ⟨List.mem_cons_of_mem _ hz', before_new he hz'⟩
      · obtain ⟨hz, hyz⟩ := hs.heap.links y z hy hz
        exact ⟨List.mem_cons_of_mem _ hz, before_attach he hyz⟩
    · rcases List.mem_cons.mp hy with rfl | hy
      · exact hlt
      · exact hs.heap.bound y hy
  have hne : ∀ p ∈ ps, p.1 ≠ e ∧ p.2 ≠ e := fun p hp =>
    ⟨fun hc => he (hc ▸ (hs.mem p hp).1), fun hc => he (hc ▸ (hs.mem p hp).2)⟩
  have hlist : listOf e ps = [e] := listOf_eq_singleton fun p hp => (hne p hp).1
  constructor
  case heap => exact hheap
  case nodup => exact List.nodup_cons.mpr ⟨he, hs.nodup⟩
  case unattached => exact fun y hy => hs.unattached y fun hmem => hy (List.mem_cons_of_mem e hmem)
  case leads => exact fun y z hz => List.mem_cons_of_mem e (hs.leads y z hz)
  case owned => exact hs.owned
  case released => exact hs.released
  case mem =>
    exact fun p hp => ⟨List.mem_cons_of_mem e (hs.mem p hp).1, List.mem_cons_of_mem e (hs.mem p hp).2⟩
  case head =>
    intro x hx
    rcases List.mem_cons.mp hx with rfl | hx
    · refine ⟨x, List.mem_cons_self, fun hc => ?_, mem_listOf_self x ps⟩
      obtain ⟨p, hp, hpx⟩ := List.mem_map.mp hc
      exact (hne p hp).2 hpx
    · obtain ⟨r, hr, hnot, hxr⟩ := hs.head x hx
      exact ⟨r, List.mem_cons_of_mem e hr, hnot, hxr⟩
  case listed =>
    intro r hr
    rcases List.mem_cons.mp hr with rfl | hr
    · rw [hlist]
      exact ⟨List.nodup_singleton r, fun x hx => List.mem_singleton.mp hx ▸ List.mem_cons_self⟩
    · exact ⟨(hs.listed r hr).1, fun x hx => List.mem_cons_of_mem e ((hs.listed r hr).2 x hx)⟩
  case lists =>
    intro r hr
    rcases List.mem_cons.mp hr with rfl | hr
    · obtain ⟨path, hpath, hd, -⟩ := exists_linked hheap List.mem_cons_self
      refine ⟨undeleted h path, .of_linked hs.heap.skip hpath, hd.filter _, ?_⟩
      rw [hlist]
      obtain ⟨path, rfl, -⟩ := hpath.eq_cons
      exact (List.singleton_sublist.mpr List.mem_cons_self).filter _
    · exact hs.lists r hr

/-- The order of the entries after an entry is attached behind `x`. -/
theorem heapOk_insert (hs : Shape h dropped ps order tgt) (hx : x ∈ order) (he : e ∉ order)
    (hlt : e < h.nextAddr) (hlink : next h e = next h x) :
    HeapOk h (listView (insertAfter x e order) h.isDeleted tgt) := by
  have hbefore : ∀ z, (listView order h.isDeleted tgt).before x z →
      (listView (insertAfter x e order) h.isDeleted tgt).before e z :=
    (before_inserted hs.nodup he hx).2
  refine hs.heap.grow rfl rfl (fun y z hy hz => ?_) (fun y hy => ?_)
    (fun _ _ _ => before_trans) (before_wf _ _ _)
  · refine ⟨mem_insertAfter.mpr (.inl (hs.leads y z hz)), ?_⟩
    rcases mem_insertAfter.mp hy with hy | ⟨-, rfl⟩
    · exact before_insert hs.nodup he (hs.heap.links y z hy hz).2
    · exact hbefore z (hs.heap.links x z hx (hlink ▸ hz)).2
  · rcases mem_insertAfter.mp hy with hy | ⟨-, rfl⟩
    · exact hs.heap.bound y hy
    · exact hlt

/-- An entry is attached behind an undeleted one. -/
theorem Shape.attach (hs : Shape h dropped ps order tgt) (hx : x ∈ order) (he : e ∉ order)
    (hlive : h.isDeleted x = false) (hlt : e < h.nextAddr) (hrel : h.released e = false)
    (hlink : next h e = next h x) {tag : Tag} (htag : tag = .none ∨ tag = .first) :
    Shape (h.setLink x ⟨some e, tag⟩) dropped (ps ++ [(x, e)]) (insertAfter x e order) tgt := by
  have hdel : (h.setLink x ⟨some e, tag⟩).isDeleted = h.isDeleted := isDeleted_setLive hlive htag
  have hne : ∀ p ∈ ps, p.1 ≠ e ∧ p.2 ≠ e := fun p hp =>
    ⟨fun hc => he (hc ▸ (hs.mem p hp).1), fun hc => he (hc ▸ (hs.mem p hp).2)⟩
  have hex : e ≠ x := fun hc => he (hc ▸ hx)
  have hold : ∀ y, y ∈ order → y ∈ insertAfter x e order := fun y hy =>
    mem_insertAfter.mpr (.inl hy)
  have hnew : e ∈ insertAfter x e order := mem_insertAfter.mpr (.inr ⟨hx, rfl⟩)
  have helive : h.isDeleted e = false := hs.unattached e he
  have hlist : listOf e (ps ++ [(x, e)]) = [e] := by
    refine listOf_eq_singleton fun p hp => ?_
    rcases List.mem_append.mp hp with hp | hp
    · exact (hne p hp).1
    · rw [List.mem_singleton.mp hp]
      exact Ne.symm hex
  have hheap : HeapOk (h.setLink x ⟨some e, tag⟩)
      (listView (insertAfter x e order) (h.setLink x ⟨some e, tag⟩).isDeleted tgt) := by
    rw [hdel]
    refine (heapOk_insert hs hx he hlt hlink).setLive (hs.heap.bound x hx) hlive htag ?_ ?_
    · rintro - y hy
      cases hy
      exact ⟨hnew, (before_inserted hs.nodup he hx).1⟩
    · rintro - y hy
      cases hy
      exact hrel
  constructor
  case heap => exact hheap
  case nodup => exact nodup_insertAfter hs.nodup he
  case unattached =>
    rw [hdel]
    exact fun y hy => hs.unattached y fun hmem => hy (hold y hmem)
  case leads =>
    intro y z hz
    rw [next_setLink] at hz
    by_cases hyx : y = x
    · rw [hyx, Function.update_self] at hz
      cases hz
      exact hnew
    · rw [Function.update_of_ne hyx] at hz
      exact hold z (hs.leads y z hz)
  case owned =>
    intro y z hy hz
    rw [next_setLink] at hz
    by_cases hyx : y = x
    · rw [hyx, Function.update_self] at hz
      cases hz
      exact hrel
    · rw [Function.update_of_ne hyx] at hz
      exact hs.owned y z hy hz
  case released => exact hs.released
  case mem =>
    intro p hp
    rcases List.mem_append.mp hp with hp | hp
    · exact ⟨hold _ (hs.mem p hp).1, hold _ (hs.mem p hp).2⟩
    · rw [List.mem_singleton.mp hp]
      exact ⟨hold x hx, hnew⟩
  case head =>
    -- The new entry has the head of the one that it is pushed on.
    have hhead : ∀ y ∈ order, ∃ r ∈ order, r ∉ (ps ++ [(x, e)]).map Prod.snd ∧ y ∈ listOf r ps := by
      intro y hy
      obtain ⟨r, hr, hnot, hyr⟩ := hs.head y hy
      refine ⟨r, hr, fun hc => ?_, hyr⟩
      rw [List.map_append, List.mem_append] at hc
      rcases hc with hc | hc
      · exact hnot hc
      · obtain rfl : r = e := List.mem_singleton.mp hc
        exact he hr
    intro y hy
    rcases mem_insertAfter.mp hy with hy | ⟨-, rfl⟩
    · obtain ⟨r, hr, hnot, hyr⟩ := hhead y hy
      refine ⟨r, hold r hr, hnot, ?_⟩
      rw [listOf_concat]
      exact mem_insertAfter.mpr (.inl hyr)
    · obtain ⟨r, hr, hnot, hxr⟩ := hhead x hx
      refine ⟨r, hold r hr, hnot, ?_⟩
      rw [listOf_concat]
      exact mem_insertAfter.mpr (.inr ⟨hxr, rfl⟩)
  case listed =>
    intro r hr
    rcases mem_insertAfter.mp hr with hr | ⟨-, rfl⟩
    · obtain ⟨hd, hall⟩ := hs.listed r hr
      rw [listOf_concat]
      refine ⟨nodup_insertAfter hd fun hc => he (hall e hc), fun y hy => ?_⟩
      rcases mem_insertAfter.mp hy with hy | ⟨-, rfl⟩
      · exact hold y (hall y hy)
      · exact hnew
    · rw [hlist]
      exact ⟨List.nodup_singleton r, fun y hy => List.mem_singleton.mp hy ▸ hnew⟩
  case lists =>
    intro r hr
    rcases mem_insertAfter.mp hr with hr | ⟨-, rfl⟩
    · obtain ⟨l, hl, hd, hsub⟩ := hs.lists r hr
      have hel : e ∉ l := fun hc => he (hs.subset hr hl e hc)
      unfold undeleted at hsub ⊢
      rw [hdel, next_setLink, listOf_concat,
        filter_insertAfter (by rw [hlive]; rfl) (by rw [helive]; rfl)]
      exact ⟨insertAfter x e l, hl.insert hd (hs.heap.skip.live e helive) hlink hex,
        nodup_insertAfter hd hel, insertAfter_sublist hsub hd⟩
    · obtain ⟨path, hpath, hd, -⟩ := exists_linked hheap hnew
      refine ⟨undeleted _ path, .of_linked hheap.skip hpath, hd.filter _, ?_⟩
      rw [hlist]
      obtain ⟨path, rfl, -⟩ := hpath.eq_cons
      exact (List.singleton_sublist.mpr List.mem_cons_self).filter _

/-- What the others rely on when an entry is attached behind `x`. -/
theorem ext_insert (hs : Shape h dropped ps order tgt) (hx : x ∈ order) (he : e ∉ order)
    (hlive : h.isDeleted x = false) {tag : Tag} (htag : tag = .none ∨ tag = .first) :
    Ext h (h.setLink x ⟨some e, tag⟩) order (insertAfter x e order) tgt tgt (some e) where
  later := by
    rw [isDeleted_setLive hlive htag]
    exact
      { att := fun y hy => mem_insertAfter.mpr (.inl hy)
        before := fun y z hyz => before_insert hs.nodup he hyz
        dead := fun _ hy => hy
        tgt := fun _ _ hpq => hpq }
  nextAddr := Nat.le_refl _
  attached y hy := by
    rcases mem_insertAfter.mp hy with hy | ⟨-, rfl⟩
    · exact .inl hy
    · exact .inr rfl
  link y _ hy _ := by
    have hyx : y ≠ x := fun hc => hy (hc ▸ hx)
    exact Function.update_of_ne hyx _ _
  value _ _ _ := rfl
  released _ hy := hy

end Sdd.Proofs.SharedList
