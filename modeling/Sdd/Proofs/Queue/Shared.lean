import Sdd.Proofs.Queue.Threads

/-!
# `Sdd.Proofs.Queue.Shared`: the writes to a queue

One lemma for each kind of write that a step makes to `oldest`, `newest` and the entries: the
clean-up of a link, the creation of an entry, its attachment to the newest entry or to
`oldest`, a new value of `oldest` or `newest`, a deletion, and the release of an entry. Each
one says that `Shared` is kept and that the other threads can go on (`Ext`). The clean-ups
do not change the contents of the queue.
-/

set_option autoImplicit false

namespace Sdd.Proofs.Queue

open Sdd.Lib Sdd.Queue

variable {T : Type} {n : Nat} {w : World T n} {tgt : Addr → Option Addr}

namespace Shared

/-- The first entry that is not deleted is the one that `oldest` leads to. -/
theorem head_eq (hs : Shared w tgt) : w.contents.head? = w.oldest.bind tgt :=
  hs.list.head_eq

/-- An entry found in `oldest` that is not deleted is the first one. -/
theorem head_of_old (hs : Shared w tgt) {x : Addr} (hx : OldOrDead w x)
    (hlive : w.heap.isDeleted x = false) : w.contents.head? = some x := by
  have hold : w.oldest = some x := by
    rcases hx with hdead | hold
    · rw [hlive] at hdead
      cases hdead
    · exact hold
  rw [hs.head_eq, hold]
  exact hs.heap.skip.live x hlive

/-- The queue is empty when `oldest` leads nowhere. -/
theorem contents_nil (hs : Shared w tgt) (hold : w.oldest.bind tgt = none) : w.contents = [] := by
  rw [← List.head?_eq_none_iff, hs.head_eq]
  exact hold

/-- An attached entry that is not deleted is in the queue. -/
theorem mem_contents {x : Addr} :
    x ∈ w.contents ↔ x ∈ w.attached ∧ w.heap.isDeleted x = false := by
  simp [World.contents]

theorem nodup_contents (hs : Shared w tgt) : w.contents.Nodup := hs.nodup.filter _

/-- An entry that is not deleted was not released. -/
theorem dead_of_released (hs : Shared w tgt) {x : Addr} (hx : x ∈ w.attached)
    (hrel : w.heap.released x = true) : w.heap.isDeleted x = true := by
  by_contra hlive
  rw [Bool.not_eq_true] at hlive
  have hmem : x ∈ w.contents := mem_contents.mpr ⟨hx, hlive⟩
  have hrel' := hs.heap.threaded_unreleased hs.list (fun y hy => hs.roots y (.inl hy)) x hmem
  rw [hrel] at hrel'
  cases hrel'

end Shared

section write

variable {h' : Heap T}

/-- A write that leaves the entries alive, deleted and attached as they are. -/
theorem view_eq (hdel : h'.isDeleted = w.heap.isDeleted) :
    view { w with heap := h' } tgt = view w tgt := by
  unfold view
  rw [hdel]

/-- A write that leaves the entries alive or deleted as they are does not change the
contents. -/
theorem contents_eq (hdel : h'.isDeleted = w.heap.isDeleted) :
    World.contents { w with heap := h' } = w.contents := by
  unfold World.contents
  rw [hdel]

/-- A link is cleaned up. -/
theorem Shared.clean (hs : Shared w tgt) (hc : Cleans (view w tgt) w.heap h') :
    Shared { w with heap := h' } tgt where
  heap := by
    rw [view_eq hc.isDeleted_eq]
    exact hs.heap.cleans hc
  list := by
    rw [contents_eq hc.isDeleted_eq]
    rcases hc with rfl | ⟨x, p, rfl, -, -, htgt⟩
    · exact hs.list
    · show Threaded (next (w.heap.setLink x ⟨p, (w.heap.link x).tag⟩)) tgt w.oldest w.contents
      rw [next_setLink]
      exact hs.list.redirect htgt
  nodup := hs.nodup
  roots := by
    show ∀ x, w.oldest = some x ∨ w.newest = some x → x ∈ w.attached ∧ h'.released x = false
    rw [hc.fields.2.1]
    exact hs.roots
  unattached := by
    rcases hc with rfl | ⟨x, p, rfl, hx, -⟩
    · exact hs.unattached
    · intro y hy
      have hyx : y ≠ x := by
        rintro rfl
        exact hy hx
      show Function.update w.heap.link x _ y = .null
      rw [Function.update_of_ne hyx]
      exact hs.unattached y hy

theorem ext_clean (hc : Cleans (view w tgt) w.heap h') :
    Ext w { w with heap := h' } tgt tgt none where
  later := by
    rw [view_eq hc.isDeleted_eq]
    exact .refl _
  old x hx := by
    unfold OldOrDead
    rw [hc.isDeleted_eq]
    exact hx
  value x _ := by rw [hc.fields.1]
  nextAddr := by
    show w.heap.nextAddr ≤ h'.nextAddr
    exact Nat.le_of_eq hc.fields.2.2.symm
  attached _ hx := .inl hx

/-- An entry is created. -/
theorem Shared.create (hs : Shared w tgt) (val : T) :
    Shared { w with heap := w.heap.alloc val } tgt where
  heap := hs.heap.alloc val
  list := hs.list
  nodup := hs.nodup
  roots := hs.roots
  unattached := hs.unattached

theorem ext_create (val : T) : Ext w { w with heap := w.heap.alloc val } tgt tgt none where
  later := .refl _
  old _ hx := hx
  value x hx := by
    show Function.update w.heap.value w.heap.nextAddr _ x = _
    rw [Function.update_of_ne (Nat.ne_of_lt hx)]
  nextAddr := Nat.le_succ _
  attached _ hx := .inl hx

/-- A released entry. -/
theorem Shared.release (hs : Shared w tgt) {x : Addr} (hx : w.unowned x = true) :
    Shared { w with heap := w.heap.release x } tgt where
  heap := by
    unfold World.unowned at hx
    simp only [Bool.and_eq_true, decide_eq_true_eq] at hx
    exact hs.heap.release hx.1.1.1.1 hx.1.2
  list := hs.list
  nodup := hs.nodup
  roots y hy := by
    refine ⟨(hs.roots y hy).1, ?_⟩
    have hyx : y ≠ x := by
      rintro rfl
      unfold World.unowned at hx
      simp only [Bool.and_eq_true, bne_iff_ne, ne_eq] at hx
      rcases hy with hy | hy
      · exact hx.1.1.1.2 hy
      · exact hx.1.1.2 hy
    show Function.update w.heap.released x true y = false
    rw [Function.update_of_ne hyx]
    exact (hs.roots y hy).2
  unattached := hs.unattached

theorem ext_release (x : Addr) : Ext w { w with heap := w.heap.release x } tgt tgt none where
  later := .refl _
  old _ hy := hy
  value _ _ := rfl
  nextAddr := Nat.le_refl _
  attached _ hy := .inl hy

/-- `newest` is reset, or set to an attached entry. -/
theorem Shared.setNewest (hs : Shared w tgt) {o : Option Addr}
    (ho : ∀ x, o = some x → x ∈ w.attached ∧ w.heap.released x = false) :
    Shared { w with newest := o } tgt where
  heap := hs.heap
  list := hs.list
  nodup := hs.nodup
  roots x hx := by
    rcases hx with hx | hx
    · exact hs.roots x (.inl hx)
    · exact ho x hx
  unattached := hs.unattached

theorem ext_setNewest (o : Option Addr) : Ext w { w with newest := o } tgt tgt none where
  later := .refl _
  old _ hx := hx
  value _ _ := rfl
  nextAddr := Nat.le_refl _
  attached _ hx := .inl hx

/-- `oldest` is moved to an entry that leads to the same undeleted entry. -/
theorem Shared.setOldest (hs : Shared w tgt) {o : Option Addr}
    (ho : ∀ x, o = some x → x ∈ w.attached ∧ w.heap.released x = false)
    (htgt : o.bind tgt = w.oldest.bind tgt) : Shared { w with oldest := o } tgt where
  heap := hs.heap
  list := hs.list.root htgt
  nodup := hs.nodup
  roots x hx := by
    rcases hx with hx | hx
    · exact ho x hx
    · exact hs.roots x (.inr hx)
  unattached := hs.unattached

theorem ext_setOldest {x : Addr} {o : Option Addr} (hold : w.oldest = some x)
    (hdead : w.heap.isDeleted x = true) : Ext w { w with oldest := o } tgt tgt none where
  later := .refl _
  old y hy := by
    rcases hy with hy | hy
    · exact .inl hy
    · refine .inl ?_
      have hxy : x = y := Option.some.inj (hold.symm.trans hy)
      exact hxy ▸ hdead
  value _ _ := rfl
  nextAddr := Nat.le_refl _
  attached _ hy := .inl hy

end write

section delete

variable {x : Addr} (hs : Shared w tgt) (hx : x ∈ w.attached)
  (hlive : w.heap.isDeleted x = false)
include hs hx hlive

omit hs hx in
/-- The view after a deletion. -/
theorem view_kill :
    view { w with heap := (w.heap.deleteSelf x).1 } (killed (next w.heap) tgt x)
      = (view w tgt).kill w.heap x := by
  unfold view View.kill
  rw [isDeleted_deleteSelf hlive]
  rfl

/-- The entry leaves the contents. -/
theorem contents_kill :
    World.contents { w with heap := (w.heap.deleteSelf x).1 } = w.contents.erase x := by
  rw [hs.nodup_contents.erase_eq_filter]
  unfold World.contents
  rw [isDeleted_deleteSelf hlive, List.filter_filter]
  refine List.filter_congr fun y _ => ?_
  by_cases hyx : y = x
  · subst hyx
    simp
  · simp [hyx]

/-- An entry is deleted. -/
theorem Shared.kill :
    Shared { w with heap := (w.heap.deleteSelf x).1 } (killed (next w.heap) tgt x) where
  heap := by
    rw [view_kill hlive]
    exact hs.heap.kill hlive hx
  list := by
    rw [contents_kill hs hx hlive]
    show Threaded (next (w.heap.deleteSelf x).1) _ w.oldest _
    rw [next_deleteSelf hlive]
    exact hs.list.kill hs.nodup_contents (Shared.mem_contents.mpr ⟨hx, hlive⟩)
  nodup := hs.nodup
  roots := by
    show ∀ y, w.oldest = some y ∨ w.newest = some y →
      y ∈ w.attached ∧ (w.heap.deleteSelf x).1.released y = false
    rw [deleteSelf_eq hlive]
    exact hs.roots
  unattached y hy := by
    have hyx : y ≠ x := by
      rintro rfl
      exact hy hx
    show (w.heap.deleteSelf x).1.link y = .null
    rw [deleteSelf_eq hlive]
    show Function.update w.heap.link x _ y = .null
    rw [Function.update_of_ne hyx]
    exact hs.unattached y hy

omit hs hx in
/-- What others rely on when an entry is deleted. -/
theorem ext_kill :
    Ext w { w with heap := (w.heap.deleteSelf x).1 } tgt (killed (next w.heap) tgt x) none where
  later := by
    rw [view_kill hlive]
    exact View.later_kill _ _ _
  old y hy := by
    rcases hy with hy | hy
    · refine .inl ?_
      show (w.heap.deleteSelf x).1.isDeleted y = true
      rw [isDeleted_deleteSelf hlive]
      by_cases hyx : y = x
      · rw [hyx, Function.update_self]
      · rw [Function.update_of_ne hyx]
        exact hy
    · exact .inr hy
  value y _ := by
    show (w.heap.deleteSelf x).1.value y = _
    rw [deleteSelf_eq hlive]
    rfl
  nextAddr := by
    show w.heap.nextAddr ≤ (w.heap.deleteSelf x).1.nextAddr
    rw [deleteSelf_eq hlive]
    exact Nat.le_refl _
  attached _ hy := .inl hy

end delete

/-- The order of the entries does not change when one is attached. -/
theorem before_attach {e x y : Addr} (hxy : (view w tgt).before x y) :
    (view { w with attached := w.attached ++ [e] } tgt).before x y :=
  before_append hxy

/-- The new entry comes last. -/
theorem before_new {e x : Addr} (he : e ∉ w.attached) (hx : x ∈ w.attached) :
    (view { w with attached := w.attached ++ [e] } tgt).before x e :=
  before_last he hx

/-- What others rely on when an entry is attached. -/
theorem later_attach {e : Addr} {o : Option Addr} {h' : Heap T}
    (hdel : h'.isDeleted = w.heap.isDeleted) :
    (view w tgt).Later
      (view { w with oldest := o, heap := h', attached := w.attached ++ [e] } tgt) where
  att x hx := List.mem_append_left _ hx
  before _ _ hxy := before_attach hxy
  dead x hx := by
    show h'.isDeleted x = true
    rw [hdel]
    exact hx
  tgt _ _ hpq := hpq

/-- The attached entries after one is attached. -/
theorem mem_attach {e x : Addr} (hx : x ∈ w.attached ++ [e]) : x ∈ w.attached ∨ some e = some x := by
  rcases List.mem_append.mp hx with hx | hx
  · exact .inl hx
  · exact .inr (by rw [List.mem_singleton.mp hx])

/-- An entry with an untagged null link is not deleted. -/
theorem isDeleted_of_null {l : Addr} (hnull : w.heap.link l = .null) :
    w.heap.isDeleted l = false := by
  unfold Heap.isDeleted
  rw [hnull]
  rfl

/-- Attaching an entry to an untagged null link deletes nothing. -/
theorem isDeleted_link {l e : Addr} (hnull : w.heap.link l = .null) :
    (w.heap.setLink l ⟨some e, .none⟩).isDeleted = w.heap.isDeleted := by
  have hkeep : (w.heap.setLink l ⟨some e, (w.heap.link l).tag⟩).isDeleted = w.heap.isDeleted :=
    isDeleted_setLink _
  rw [hnull] at hkeep
  exact hkeep

/-- An entry with an untagged null link is the last one of the contents. -/
theorem contents_last {l : Addr} (hs : Shared w tgt) (hl : l ∈ w.attached)
    (hnull : w.heap.link l = .null) : ∃ front, w.contents = front ++ [l] := by
  refine hs.list.last (Shared.mem_contents.mpr ⟨hl, isDeleted_of_null hnull⟩) ?_
  rw [next, hnull]
  rfl

section attach

variable {e : Addr} (hs : Shared w tgt) (he : e ∉ w.attached)
include hs he

/-- An entry that is not attached is not deleted. -/
theorem not_isDeleted_of_unattached : w.heap.isDeleted e = false :=
  isDeleted_of_null (hs.unattached e he)

/-- No entry is attached twice. -/
theorem nodup_attach : (w.attached ++ [e]).Nodup := by
  rw [List.nodup_append]
  refine ⟨hs.nodup, List.nodup_singleton e, ?_⟩
  intro x hx y hy
  rw [List.mem_singleton.mp hy]
  intro hc
  exact he (hc ▸ hx)

/-- The view in which the entry is attached. -/
theorem heap_attach (hlt : e < w.heap.nextAddr) :
    HeapOk w.heap (view { w with attached := w.attached ++ [e] } tgt) := by
  refine hs.heap.grow rfl rfl ?_ ?_ (fun _ _ _ => before_trans) (before_wf _ _ _)
  · intro y z hy hz
    rcases List.mem_append.mp hy with hy | hy
    · obtain ⟨hz, hyz⟩ := hs.heap.links y z hy hz
      exact ⟨List.mem_append_left _ hz, before_attach hyz⟩
    · have hye : y = e := List.mem_singleton.mp hy
      rw [hye, next, hs.unattached e he] at hz
      cases hz
  · intro y hy
    rcases List.mem_append.mp hy with hy | hy
    · exact hs.heap.bound y hy
    · rw [List.mem_singleton.mp hy]
      exact hlt

/-- The new entry comes last in the contents. -/
theorem contents_attach :
    World.contents { w with attached := w.attached ++ [e] } = w.contents ++ [e] := by
  have hlive := not_isDeleted_of_unattached hs he
  unfold World.contents
  simp [List.filter_append, hlive]

/-- The entry is attached to `oldest`, which is null. -/
theorem Shared.attachOldest (hlt : e < w.heap.nextAddr) (hrel : w.heap.released e = false)
    (hold : w.oldest = none) :
    Shared { w with oldest := some e, attached := w.attached ++ [e] } tgt where
  heap := heap_attach hs he hlt
  list := by
    have hnil : w.contents = [] := hs.contents_nil (by rw [hold]; rfl)
    have hcontents : World.contents { w with oldest := some e, attached := w.attached ++ [e] }
        = [e] := by
      have := contents_attach hs he
      rw [hnil] at this
      exact this
    rw [hcontents]
    refine ⟨hs.heap.skip.live e (not_isDeleted_of_unattached hs he), ?_⟩
    show (next w.heap e).bind tgt = none
    rw [next, hs.unattached e he]
    rfl
  nodup := nodup_attach hs he
  roots x hx := by
    rcases hx with hx | hx
    · have hex : e = x := Option.some.inj hx
      rw [← hex]
      exact ⟨List.mem_append_right _ List.mem_cons_self, hrel⟩
    · exact ⟨List.mem_append_left _ (hs.roots x (.inr hx)).1, (hs.roots x (.inr hx)).2⟩
  unattached x hx := hs.unattached x fun hmem => hx (List.mem_append_left _ hmem)

omit hs he in
theorem ext_attachOldest (hold : w.oldest = none) :
    Ext w { w with oldest := some e, attached := w.attached ++ [e] } tgt tgt (some e) where
  later := later_attach rfl
  old x hx := by
    rcases hx with hx | hx
    · exact .inl hx
    · rw [hold] at hx
      cases hx
  value _ _ := rfl
  nextAddr := Nat.le_refl _
  attached _ hx := mem_attach hx

section newest

variable {l : Addr} (hl : l ∈ w.attached) (hnull : w.heap.link l = .null)
include hl hnull

/-- The entry is attached to the entry `l`. -/
theorem Shared.attachNewest (hlt : e < w.heap.nextAddr) (hrel : w.heap.released e = false) :
    Shared
      { w with heap := w.heap.setLink l ⟨some e, .none⟩, attached := w.attached ++ [e] } tgt := by
  have hlive : w.heap.isDeleted l = false := isDeleted_of_null hnull
  have hle : l ≠ e := fun hc => he (hc ▸ hl)
  -- The write keeps the tag of `l`.
  have hwrite : w.heap.setLink l ⟨some e, .none⟩
      = w.heap.setLink l ⟨some e, (w.heap.link l).tag⟩ := by
    rw [hnull]
    rfl
  have hdel : (w.heap.setLink l ⟨some e, (w.heap.link l).tag⟩).isDeleted = w.heap.isDeleted :=
    isDeleted_setLink _
  rw [hwrite]
  constructor
  case heap =>
    have hview : view { w with
        heap := w.heap.setLink l ⟨some e, (w.heap.link l).tag⟩,
        attached := w.attached ++ [e] } tgt
        = view { w with attached := w.attached ++ [e] } tgt := by
      unfold view
      rw [hdel]
    rw [hview]
    refine (heap_attach hs he hlt).setLink (hs.heap.bound l hl) ?_ ?_ ?_
    · intro hdead
      rw [hlive] at hdead
      cases hdead
    · intro _ y hy
      cases hy
      exact ⟨List.mem_append_right _ List.mem_cons_self, before_new he hl⟩
    · intro _ y hy
      cases hy
      exact hrel
  case list =>
    have hcontents : World.contents { w with
        heap := w.heap.setLink l ⟨some e, (w.heap.link l).tag⟩,
        attached := w.attached ++ [e] } = w.contents ++ [e] := by
      rw [← contents_attach hs he]
      unfold World.contents
      rw [hdel]
    rw [hcontents]
    show Threaded (next (w.heap.setLink l ⟨some e, (w.heap.link l).tag⟩)) tgt w.oldest _
    rw [next_setLink]
    have hmem : l ∈ w.contents := Shared.mem_contents.mpr ⟨hl, hlive⟩
    refine hs.list.append hs.nodup_contents hmem ?_ ?_ ?_ (Ne.symm hle)
    · rw [next, hnull]
      rfl
    · exact hs.heap.skip.live e (not_isDeleted_of_unattached hs he)
    · rw [next, hs.unattached e he]
      rfl
  case nodup => exact nodup_attach hs he
  case roots =>
    intro x hx
    exact ⟨List.mem_append_left _ (hs.roots x hx).1, (hs.roots x hx).2⟩
  case unattached =>
    intro x hx
    have hxl : x ≠ l := by
      rintro rfl
      exact hx (List.mem_append_left _ hl)
    show Function.update w.heap.link l _ x = .null
    rw [Function.update_of_ne hxl]
    exact hs.unattached x fun hmem => hx (List.mem_append_left _ hmem)

omit hl in
/-- The new entry comes last in the contents. -/
theorem contents_attachNewest :
    World.contents { w with
      heap := w.heap.setLink l ⟨some e, .none⟩, attached := w.attached ++ [e] }
      = w.contents ++ [e] := by
  rw [← contents_attach hs he]
  unfold World.contents
  rw [isDeleted_link hnull]

omit hs he hl in
theorem ext_attachNewest :
    Ext w { w with heap := w.heap.setLink l ⟨some e, .none⟩, attached := w.attached ++ [e] }
      tgt tgt (some e) := by
  constructor
  case later => exact later_attach (isDeleted_link hnull)
  case old =>
    intro x hx
    unfold OldOrDead
    rw [isDeleted_link hnull]
    exact hx
  case value => exact fun _ _ => rfl
  case nextAddr => exact Nat.le_refl _
  case attached => exact fun x hx => mem_attach hx

end newest

end attach

end Sdd.Proofs.Queue
