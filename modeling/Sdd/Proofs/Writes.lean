import Sdd.Proofs.LinkedList

/-!
# `Sdd.Proofs.Writes`: what a write leaves to others

A call in progress relies on the entries that it has seen, and on the entry that it has
created. `Ext` says what a write of another thread leaves of that: `att` are the attached
entries in their order, `tgt` leads each entry to the first undeleted one, and `own` is the
entry that the writing thread has created. There is one lemma for each kind of write: the
clean-up of a link, the creation of an entry, the store to the link of an entry that is not
attached, its attachment, a deletion, and the release of an entry.
-/

set_option autoImplicit false

namespace Sdd.Proofs

open Sdd.Lib

variable {T : Type}

/-- What remains for the calls of the others after a write, in which the entry `own` can
be attached, or its link be set. -/
structure Ext (h h' : Heap T) (att att' : List Addr) (tgt tgt' : Addr → Option Addr)
    (own : Option Addr) : Prop where
  later : (listView att h.isDeleted tgt).Later (listView att' h'.isDeleted tgt')
  nextAddr : h.nextAddr ≤ h'.nextAddr
  attached : ∀ x, x ∈ att' → x ∈ att ∨ own = some x
  link : ∀ e, e < h.nextAddr → e ∉ att → own ≠ some e → h'.link e = h.link e
  value : ∀ e, e < h.nextAddr → e ∉ att → h'.value e = h.value e
  released : ∀ x, h.released x = true → h'.released x = true

variable {h h' h'' : Heap T} {att att' att'' : List Addr} {tgt tgt' tgt'' : Addr → Option Addr}
  {own : Option Addr} {x e : Addr} {o : Option Addr}

namespace Ext

/-- Nothing changes. -/
theorem refl (h : Heap T) (att : List Addr) (tgt : Addr → Option Addr) (own : Option Addr) :
    Ext h h att att tgt tgt own where
  later := .refl _
  nextAddr := Nat.le_refl _
  attached _ hx := .inl hx
  link _ _ _ _ := rfl
  value _ _ _ := rfl
  released _ hx := hx

/-- A write to no entry of its own leaves more. -/
theorem of_none (he : Ext h h' att att' tgt tgt' none) : Ext h h' att att' tgt tgt' own where
  later := he.later
  nextAddr := he.nextAddr
  attached x hx := by
    rcases he.attached x hx with hx | hx
    · exact .inl hx
    · cases hx
  link e hlt hnot _ := he.link e hlt hnot (by simp)
  value := he.value
  released := he.released

/-- Two writes that attach nothing, one after the other. -/
theorem trans (he : Ext h h' att att' tgt tgt' none)
    (he' : Ext h' h'' att' att'' tgt' tgt'' none) : Ext h h'' att att'' tgt tgt'' none := by
  have hsub : ∀ x, x ∈ att' → x ∈ att := fun x hx => (he.attached x hx).resolve_right (by simp)
  constructor
  case later => exact he.later.trans he'.later
  case nextAddr => exact Nat.le_trans he.nextAddr he'.nextAddr
  case attached =>
    intro x hx
    exact he.attached x ((he'.attached x hx).resolve_right (by simp))
  case link =>
    intro e hlt hnot hown
    rw [he'.link e (Nat.lt_of_lt_of_le hlt he.nextAddr) (fun hc => hnot (hsub e hc)) hown]
    exact he.link e hlt hnot hown
  case value =>
    intro e hlt hnot
    rw [he'.value e (Nat.lt_of_lt_of_le hlt he.nextAddr) fun hc => hnot (hsub e hc)]
    exact he.value e hlt hnot
  case released => exact fun x hx => he'.released x (he.released x hx)

end Ext

/-- A store to the link of an attached entry that keeps it alive or deleted. -/
theorem ext_setLink {p : Ptr Addr} (hx : x ∈ att)
    (hdel : (h.setLink x p).isDeleted = h.isDeleted) :
    Ext h (h.setLink x p) att att tgt tgt none where
  later := by
    rw [hdel]
    exact .refl _
  nextAddr := Nat.le_refl _
  attached _ hy := .inl hy
  link y _ hy _ := by
    have hyx : y ≠ x := fun hc => hy (hc ▸ hx)
    exact Function.update_of_ne hyx _ _
  value _ _ _ := rfl
  released _ hy := hy

/-- A link is cleaned up. -/
theorem ext_clean (hc : Cleans (listView att h.isDeleted tgt) h h') :
    Ext h h' att att tgt tgt none := by
  rcases hc with rfl | ⟨x, p, rfl, hx, -⟩
  · exact .refl _ _ _ _
  · exact ext_setLink hx (isDeleted_setLink p)

/-- An entry is created. -/
theorem ext_create (val : T) : Ext h (h.alloc val) att att tgt tgt none where
  later := .refl _
  nextAddr := Nat.le_succ _
  attached _ hx := .inl hx
  link _ _ _ _ := rfl
  value e he _ := by
    show Function.update h.value h.nextAddr _ e = h.value e
    rw [Function.update_of_ne (Nat.ne_of_lt he)]
  released _ hx := hx

/-- An entry is released. -/
theorem ext_release (x : Addr) : Ext h (h.release x) att att tgt tgt none where
  later := .refl _
  nextAddr := Nat.le_refl _
  attached _ hy := .inl hy
  link _ _ _ _ := rfl
  value _ _ _ := rfl
  released y hy := by
    show Function.update h.released x true y = true
    by_cases hyx : y = x
    · rw [hyx, Function.update_self]
    · rw [Function.update_of_ne hyx]
      exact hy

/-- A store to the link of an entry that is not attached keeps all entries as they are. -/
theorem isDeleted_private (hlive : h.isDeleted e = false) :
    (h.setLink e ⟨o, .none⟩).isDeleted = h.isDeleted :=
  isDeleted_setLive hlive (.inl rfl)

/-- The link of an entry that is not attached is set. -/
theorem ext_setPrivate (hlive : h.isDeleted e = false) :
    Ext h (h.setLink e ⟨o, .none⟩) att att tgt tgt (some e) where
  later := by
    rw [isDeleted_private hlive]
    exact .refl _
  nextAddr := Nat.le_refl _
  attached _ hx := .inl hx
  link y _ _ hy := by
    have hye : y ≠ e := fun hc => hy (congrArg some hc.symm)
    exact Function.update_of_ne hye _ _
  value _ _ _ := rfl
  released _ hy := hy

/-- The order of the entries does not change when one is attached. -/
theorem before_attach {dead : Addr → Bool} {x y : Addr} (he : e ∉ att)
    (hxy : (listView att dead tgt).before x y) : (listView (e :: att) dead tgt).before x y := by
  obtain ⟨hx, hy, hlt⟩ := hxy
  refine ⟨List.mem_cons_of_mem e hx, List.mem_cons_of_mem e hy, ?_⟩
  have hex : e ≠ x := fun hc => he (hc ▸ hx)
  have hey : e ≠ y := fun hc => he (hc ▸ hy)
  rw [List.idxOf_cons_ne _ hex, List.idxOf_cons_ne _ hey]
  exact Nat.succ_lt_succ hlt

/-- The new entry comes before the others. -/
theorem before_new {dead : Addr → Bool} {y : Addr} (he : e ∉ att) (hy : y ∈ att) :
    (listView (e :: att) dead tgt).before e y := by
  refine ⟨List.mem_cons_self, List.mem_cons_of_mem e hy, ?_⟩
  have hey : e ≠ y := fun hc => he (hc ▸ hy)
  rw [List.idxOf_cons_self, List.idxOf_cons_ne _ hey]
  exact Nat.succ_pos _

/-- An entry is attached in front of the others. -/
theorem ext_attach (he : e ∉ att) : Ext h h att (e :: att) tgt tgt (some e) where
  later :=
    { att := fun _ hx => List.mem_cons_of_mem e hx
      before := fun _ _ hxy => before_attach he hxy
      dead := fun _ hx => hx
      tgt := fun _ _ hpq => hpq }
  nextAddr := Nat.le_refl _
  attached y hy := by
    rcases List.mem_cons.mp hy with rfl | hy
    · exact .inr rfl
    · exact .inl hy
  link _ _ _ _ := rfl
  value _ _ _ := rfl
  released _ hy := hy

/-- An entry is deleted. -/
theorem ext_kill (hx : x ∈ att) (hlive : h.isDeleted x = false) :
    Ext h (h.deleteSelf x).1 att att tgt (killed (next h) tgt x) none where
  later := by
    rw [isDeleted_deleteSelf hlive]
    exact View.later_kill _ _ _
  nextAddr := by
    rw [deleteSelf_eq hlive]
    exact Nat.le_refl _
  attached _ hy := .inl hy
  link e _ he _ := by
    have hex : e ≠ x := fun hc => he (hc ▸ hx)
    rw [deleteSelf_eq hlive]
    exact Function.update_of_ne hex _ _
  value _ _ _ := by
    rw [deleteSelf_eq hlive]
    rfl
  released y hy := by
    rw [deleteSelf_eq hlive]
    exact hy

/-- The entries keep their instances, and those that are created hold one. -/
structure Grows (h h' : Heap T) : Prop where
  nextAddr : h.nextAddr ≤ h'.nextAddr
  value : ∀ x, x < h.nextAddr → h'.value x = h.value x
  created : ∀ x, h.nextAddr ≤ x → x < h'.nextAddr → (h'.value x).isSome

/-- A write to links only. -/
theorem Grows.of_eq (hval : h'.value = h.value) (hnext : h'.nextAddr = h.nextAddr) :
    Grows h h' where
  nextAddr := Nat.le_of_eq hnext.symm
  value x _ := congrFun hval x
  created _ hle hlt := absurd (hnext ▸ hlt) (Nat.not_lt.mpr hle)

theorem Grows.refl (h : Heap T) : Grows h h := .of_eq rfl rfl

theorem Grows.trans (hg : Grows h h') (hg' : Grows h' h'') : Grows h h'' where
  nextAddr := Nat.le_trans hg.nextAddr hg'.nextAddr
  value x hx := (hg'.value x (Nat.lt_of_lt_of_le hx hg.nextAddr)).trans (hg.value x hx)
  created x hle hlt := by
    by_cases hx : x < h'.nextAddr
    · rw [hg'.value x hx]
      exact hg.created x hle hx
    · exact hg'.created x (Nat.not_lt.mp hx) hlt

theorem grows_clean {v : View} (hc : Cleans v h h') : Grows h h' :=
  .of_eq hc.fields.1 hc.fields.2.2

theorem grows_alloc (val : T) : Grows h (h.alloc val) where
  nextAddr := Nat.le_succ _
  value x hx := by
    show Function.update h.value h.nextAddr _ x = h.value x
    rw [Function.update_of_ne (Nat.ne_of_lt hx)]
  created x hle hlt := by
    have hx : x = h.nextAddr := Nat.le_antisymm (Nat.le_of_lt_succ hlt) hle
    show (Function.update h.value h.nextAddr (some val) x).isSome
    rw [hx, Function.update_self]
    rfl

theorem grows_deleteSelf (x : Addr) : Grows h (h.deleteSelf x).1 := by
  cases hlive : h.isDeleted x with
  | true =>
    rw [deleteSelf_dead hlive]
    exact .refl h
  | false =>
    rw [deleteSelf_eq hlive]
    exact .of_eq rfl rfl

/-- Each entry that has been created holds an instance. -/
def Valued (h : Heap T) : Prop := ∀ x, x < h.nextAddr → (h.value x).isSome

theorem Valued.grows (hv : Valued h) (hg : Grows h h') : Valued h' := by
  intro x hx
  by_cases hlt : x < h.nextAddr
  · rw [hg.value x hlt]
    exact hv x hlt
  · exact hg.created x (Nat.not_lt.mp hlt) hx

/-- The instances of entries that have been created. -/
theorem Valued.instances (hv : Valued h) {l : List Addr} (hl : ∀ x ∈ l, x < h.nextAddr) :
    ∃ vals : List T, l.map h.value = vals.map some := by
  induction l with
  | nil => exact ⟨[], rfl⟩
  | cons x l ih =>
    obtain ⟨vals, hvals⟩ := ih fun y hy => hl y (List.mem_cons_of_mem x hy)
    obtain ⟨val, hval⟩ := Option.isSome_iff_exists.mp (hv x (hl x List.mem_cons_self))
    exact ⟨val :: vals, by rw [List.map_cons, List.map_cons, hval, hvals]⟩

end Sdd.Proofs
