import Sdd.Lib.Run
import Sdd.PushIf

/-!
# `Sdd.Proofs.PushIf.Loop`: the entry of a failed push is private

`Lawful C I` is what the loop of `push_if_internal` needs of a container with the invariant `I`: an
access of a thread keeps its push, creates or attaches the entry, or ends the push (`Pushes`), and
every entry that a word of the container, a link or a thread refers to is attached (`words`,
`links`, `locals`), apart from the entries of the pushes.

`Ok s` is the invariant of the loop. The count of a new entry is one, and one more while there is a
clone for the compare-and-exchange. A thread `Holds` the entry that it has created for as long as
the entry is not attached, and nobody else does (`unique`). `gives_back` is the result for any
container.
-/

set_option autoImplicit false

namespace Sdd.Proofs.PushIf

open Sdd.Lib Sdd.PushIf

variable {W A T : Type} {n : Nat} {C : Container W A T n} {I : W → Prop}

/-- What an access does to the push of the thread. -/
inductive Pushes (C : Container W A T n) (w w' : W) (t : Fin n) : Prop where
  /-- There is no push whose entry is not attached. -/
  | idle (h : C.push w t = none) (h' : C.push w' t = none) (hatt : C.attached w' = C.attached w)
      (hnext : (C.heap w').nextAddr = (C.heap w).nextAddr)
  /-- The compare-and-exchange does not come before the next turn of the loop. -/
  | stays (val : T) (entry : Option Addr) (h : C.push w t = some (val, entry))
      (h' : C.push w' t = some (val, entry)) (hrejects : C.rejects w w' = false)
      (hatt : C.attached w' = C.attached w) (hnext : (C.heap w').nextAddr = (C.heap w).nextAddr)
      (hex : C.exchanging w' t = true → C.begins w' t = true ∨
        C.begins w t = true ∧ C.exchanging w t = false)
  | creates (val : T) (h : C.push w t = some (val, none))
      (h' : C.push w' t = some (val, some (C.heap w).nextAddr)) (hrejects : C.rejects w w' = false)
      (hatt : C.attached w' = C.attached w) (hbegins : C.begins w' t = true)
      (hnext : (C.heap w').nextAddr = (C.heap w).nextAddr + 1)
  | rejected (val : T) (entry : Option Addr) (h : C.push w t = some (val, entry))
      (h' : C.push w' t = none) (hrejects : C.rejects w w' = true)
      (hatt : C.attached w' = C.attached w) (hnext : (C.heap w').nextAddr = (C.heap w).nextAddr)
  | attached (val : T) (e : Addr) (h : C.push w t = some (val, some e))
      (hex : C.exchanging w t = true) (h' : C.push w' t = none) (hrejects : C.rejects w w' = false)
      (hatt : ∀ x, x ∈ C.attached w' ↔ x ∈ C.attached w ∨ x = e)
      (hnext : (C.heap w').nextAddr = (C.heap w).nextAddr)

/-- The place of a thread in its push. -/
def place (C : Container W A T n) (w : W) (t : Fin n) : Option (T × Option Addr) × Bool × Bool :=
  (C.push w t, C.begins w t, C.exchanging w t)

/-- An access of the thread `t`. -/
structure Proceeds (C : Container W A T n) (w w' : W) (t : Fin n) : Prop where
  pushes : Pushes C w w' t
  /-- A turn of the loop leads to the compare-and-exchange. -/
  turn : C.begins w t = true → C.exchanging w t = false →
    (C.push w' t).isSome = true ∧ C.exchanging w' t = true
  others : ∀ u, u ≠ t → place C w' u = place C w u
  refs : ∀ x, x ∈ (C.refs w t).taken ∨ x ∈ (C.refs w t).released → x ∈ C.attached w
  value : ∀ x, x < (C.heap w).nextAddr → (C.heap w').value x = (C.heap w).value x

/-- An action that is no access leaves the entries as they are. -/
structure Keeps (C : Container W A T n) (w w' : W) : Prop where
  attached : C.attached w' = C.attached w
  nextAddr : (C.heap w').nextAddr = (C.heap w).nextAddr
  value : (C.heap w').value = (C.heap w).value

/-- What the loop needs of the container. -/
structure Lawful (C : Container W A T n) (I : W → Prop) : Prop where
  init : I C.init
  idle : ∀ t, C.push C.init t = none
  proceed : ∀ w t w', I w → C.proceed w t = some w' → I w' ∧ Proceeds C w w' t
  act : ∀ w a w', I w → C.act w a = some w' → I w' ∧ Keeps C w w' ∧
    (∀ t, C.actor a ≠ some t → place C w' t = place C w t) ∧
    ∀ t, C.actor a = some t → C.push w t = none ∧ ∀ val entry, C.push w' t = some (val, entry) →
      C.supplies a = some val ∧ entry = none
  setCond : ∀ w t cond w', I w → C.setCond w t cond = some w' →
    I w' ∧ Keeps C w w' ∧ ∀ u, place C w' u = place C w u
  own : ∀ w t val e, I w → C.push w t = some (val, some e) →
    e < (C.heap w).nextAddr ∧ e ∉ C.attached w ∧ (C.heap w).value e = some val
  unique : ∀ w t u val val' e, I w → C.push w t = some (val, some e) →
    C.push w u = some (val', some e) → t = u
  bound : ∀ w x, I w → x ∈ C.attached w → x < (C.heap w).nextAddr
  words : ∀ w x, I w → some x ∈ C.words w → x ∈ C.attached w
  links : ∀ w x y, I w → ((C.heap w).link y).addr = some x → x ∈ C.attached w
  locals : ∀ w t x, I w → x ∈ C.locals w t → x ∈ C.attached w

/-- The thread has created the entry. -/
inductive Holds (C : Container W A T n) (s : State W T n) (t : Fin n) (e : Addr) : Prop where
  | push (val : T) (h : C.push s.world t = some (val, some e))
  | left (h : (s.stage t).entry = some e)
  | returned (r : Error T n) (hr : r ∈ s.errors) (ht : r.thread = t) (he : r.entry = some e)

/-- The thread refers to the entry. -/
def Sees (C : Container W A T n) (s : State W T n) (t : Fin n) (e : Addr) : Prop :=
  e ∈ C.locals s.world t ∨ (∃ val, C.push s.world t = some (val, some e)) ∨
    (s.stage t).entry = some e

/-- The container refers to the entry. -/
def Reachable (C : Container W A T n) (s : State W T n) (e : Addr) : Prop :=
  e ∈ C.attached s.world ∨ some e ∈ C.words s.world ∨
    ∃ y, ((C.heap s.world).link y).addr = some e

/-- The count of the new entry of a thread at its stage. -/
def StageOk (C : Container W A T n) (s : State W T n) (t : Fin n) : Stage T → Prop
  | .loop => ∀ val e, C.push s.world t = some (val, some e) →
      s.refCnt e = 1 ∧ (C.begins s.world t = true ∨ C.exchanging s.world t = true)
  | .cloned => ∃ val e, C.push s.world t = some (val, some e) ∧ s.refCnt e = 3 ∧
      C.exchanging s.world t = true
  | .failed => ∃ val e, C.push s.world t = some (val, some e) ∧ s.refCnt e = 3 ∧
      (C.exchanging s.world t = true → C.begins s.world t = true)
  | .left val e result => C.push s.world t = none ∧ s.supplied t = some val ∧
      (C.heap s.world).value e = some val ∧ s.refCnt e = if result then 3 else 1
  | .undefined => False

/-- What holds in every state. -/
structure Ok (C : Container W A T n) (I : W → Prop) (s : State W T n) : Prop where
  inv : I s.world
  stage : ∀ t, StageOk C s t (s.stage t)
  supplied : ∀ t val entry, C.push s.world t = some (val, entry) → s.supplied t = some val
  fresh : ∀ t e, Holds C s t e → e < (C.heap s.world).nextAddr ∧ e ∉ C.attached s.world
  unique : ∀ t u e, Holds C s t e → Holds C s u e → t = u
  errors : ∀ r ∈ s.errors, (∃ val, r.val = some val ∧ r.result = some val) ∧
    ∀ t e, r.entry = some e → (∀ val, C.push s.world t ≠ some (val, some e)) ∧
      (s.stage t).entry ≠ some e

variable {s s' s₁ : State W T n} {t u : Fin n} {w' : W} {e : Addr}

/-- What a thread knows at its stage depends on its place, on its entry and on its argument. -/
theorem StageOk.congr {st : Stage T} (h : StageOk C s t st)
    (hplace : place C s'.world t = place C s.world t)
    (hsupplied : (∃ val e b, st = .left val e b) → s'.supplied t = s.supplied t)
    (hcnt : ∀ e, (∃ val, C.push s.world t = some (val, some e)) ∨ st.entry = some e →
      s'.refCnt e = s.refCnt e)
    (hval : ∀ e, st.entry = some e → (C.heap s'.world).value e = (C.heap s.world).value e) :
    StageOk C s' t st := by
  obtain ⟨hpush, hplace⟩ := Prod.mk.inj hplace
  obtain ⟨hbegins, hex⟩ := Prod.mk.inj hplace
  -- By cases of the stage: each reads the counter and the value of its own entry only.
  cases st with
  | undefined => exact h
  | loop =>
    intro val e he
    rw [hpush] at he
    rw [hcnt e (.inl ⟨val, he⟩), hbegins, hex]
    exact h val e he
  | cloned =>
    obtain ⟨val, e, he, hone, hexch⟩ := h
    exact ⟨val, e, hpush.trans he, (hcnt e (.inl ⟨val, he⟩)).trans hone, hex.trans hexch⟩
  | failed =>
    obtain ⟨val, e, he, hone, hexch⟩ := h
    refine ⟨val, e, hpush.trans he, (hcnt e (.inl ⟨val, he⟩)).trans hone, ?_⟩
    rw [hbegins, hex]
    exact hexch
  | left val e result =>
    obtain ⟨hnone, hsup, hvalue, hone⟩ := h
    exact ⟨hpush.trans hnone, (hsupplied ⟨val, e, result, rfl⟩).trans hsup,
      (hval e rfl).trans hvalue, (hcnt e (.inr rfl)).trans hone⟩

/-- The entry of a thread at its stage. -/
theorem holds_of_stage {st : Stage T} (hst : s.stage t = st)
    (he : (∃ val, C.push s.world t = some (val, some e)) ∨ st.entry = some e) : Holds C s t e := by
  rcases he with ⟨val, he⟩ | he
  · exact .push val he
  · exact .left (hst ▸ he)

/-- What remains in a run: the attached entries, and which thread holds an entry. -/
structure Later (C : Container W A T n) (s s' : State W T n) : Prop where
  attached : ∀ x, x ∈ C.attached s.world → x ∈ C.attached s'.world
  holds : ∀ t e, Holds C s t e → e ∉ C.attached s'.world → Holds C s' t e

/-- Nothing has happened. -/
theorem Later.refl (s : State W T n) : Later C s s := ⟨fun _ h => h, fun _ _ h _ => h⟩

/-- One thing after the other. -/
theorem Later.trans {s₂ : State W T n} (h : Later C s s') (h' : Later C s' s₂) : Later C s s₂ where
  attached x hx := h'.attached x (h.attached x hx)
  holds t e hh hnot := h'.holds t e (h.holds t e hh fun hc => hnot (h'.attached e hc)) hnot

section setRef

variable {st : Stage T} {c : Nat}

/-- The thread is at the given stage. -/
theorem setRef_stage : (Container.setRef s t st e c).stage t = st := Function.update_self ..

/-- A changed count does not change who holds the entry. -/
theorem holds_setRef (hentry : st.entry = (s.stage t).entry) {x : Addr} :
    Holds C (Container.setRef s t st e c) u x ↔ Holds C s u x := by
  have hstage : ((Container.setRef s t st e c).stage u).entry = (s.stage u).entry := by
    by_cases hu : u = t
    · rw [hu, setRef_stage, hentry]
    · exact congrArg Stage.entry (Function.update_of_ne hu ..)
  constructor
  · rintro (⟨val, h⟩ | h | ⟨r, hr, ht, he⟩)
    · exact .push val h
    · exact .left (hstage.symm.trans h)
    · exact .returned r hr ht he
  · rintro (⟨val, h⟩ | h | ⟨r, hr, ht, he⟩)
    · exact .push val h
    · exact .left (hstage.trans h)
    · exact .returned r hr ht he

/-- A clone of the new entry is made or dropped. -/
theorem Ok.setRef (h : Ok C I s) (hheld : Holds C s t e) (hentry : st.entry = (s.stage t).entry)
    (hst : StageOk C (Container.setRef s t st e c) t st) :
    Ok C I (Container.setRef s t st e c) ∧ Later C s (Container.setRef s t st e c) := by
  refine ⟨⟨h.inv, fun u => ?_, h.supplied, fun u x hx => h.fresh u x ((holds_setRef hentry).mp hx),
    fun u u' x hx hx' =>
      h.unique u u' x ((holds_setRef hentry).mp hx) ((holds_setRef hentry).mp hx'),
    fun r hr => ⟨(h.errors r hr).1, fun u x hx => ⟨((h.errors r hr).2 u x hx).1, ?_⟩⟩⟩,
    fun _ hx => hx, fun _ _ hx _ => (holds_setRef hentry).mpr hx⟩
  · by_cases hu : u = t
    · rw [hu, setRef_stage]
      exact hst
    · have hstage : (Container.setRef s t st e c).stage u = s.stage u :=
        Function.update_of_ne hu ..
      rw [hstage]
      refine (h.stage u).congr rfl (fun _ => rfl) (fun x hx => ?_) fun _ _ => rfl
      -- Another thread has another entry.
      refine Function.update_of_ne (fun hxe => hu ?_) ..
      exact h.unique u t e (hxe ▸ holds_of_stage rfl hx) hheld
  · have hnot := ((h.errors r hr).2 u x hx).2
    by_cases hu : u = t
    · rw [hu, setRef_stage, hentry, ← hu]
      exact hnot
    · rw [show (Container.setRef s t st e c).stage u = s.stage u from Function.update_of_ne hu ..]
      exact hnot

end setRef

/-- `get_mut` has succeeded, and the instance is taken out of the entry. -/
theorem Ok.returns (h : Ok C I s) {val : T} (hst : s.stage t = .left val e false) {c : Nat} :
    Ok C I { Container.setRef s t .loop e c with
      errors := s.errors ++ [⟨t, s.supplied t, some e, (C.heap s.world).value e⟩] } := by
  have hheld : Holds C s t e := .left (by rw [hst]; rfl)
  have hleft := h.stage t
  rw [hst] at hleft
  obtain ⟨hnone, hsup, hvalue, -⟩ := hleft
  -- Only thread t has moved, and it has given up its entry.
  have hother : ∀ {u}, u ≠ t → Function.update s.stage t .loop u = s.stage u :=
    fun hu => Function.update_of_ne hu ..
  have hstage : ∀ {u x}, (Function.update s.stage t .loop u).entry = some x →
      (s.stage u).entry = some x := by
    intro u x hx
    by_cases hu : u = t
    · rw [hu, Function.update_self] at hx
      cases hx
    · rw [hother hu] at hx
      exact hx
  have hholds : ∀ {u x}, Holds C { Container.setRef s t .loop e c with
      errors := s.errors ++ [⟨t, s.supplied t, some e, (C.heap s.world).value e⟩] } u x →
      Holds C s u x := by
    -- An entry that the new record names was held by t before.
    rintro u x (⟨val, hx⟩ | hx | ⟨r, hr, ht, he⟩)
    · exact .push val hx
    · exact .left (hstage hx)
    · rcases List.mem_append.mp hr with hr | hr
      · exact .returned r hr ht he
      · rw [List.mem_singleton.mp hr] at ht he
        cases ht
        cases he
        exact hheld
  constructor
  case inv => exact h.inv
  case stage =>
    intro u
    show StageOk C _ u (Function.update s.stage t .loop u)
    by_cases hu : u = t
    · rw [hu, Function.update_self]
      intro val x hx
      change C.push s.world t = _ at hx
      rw [hnone] at hx
      cases hx
    · rw [hother hu]
      refine (h.stage u).congr rfl (fun _ => rfl) (fun x hx => ?_) fun _ _ => rfl
      -- The counter that get_mut read is that of the entry of t, which no other thread holds.
      refine Function.update_of_ne (fun hxe => hu ?_) ..
      exact h.unique u t e (hxe ▸ holds_of_stage rfl hx) hheld
  case supplied => exact h.supplied
  case fresh => exact fun u x hx => h.fresh u x (hholds hx)
  case unique => exact fun u u' x hx hx' => h.unique u u' x (hholds hx) (hholds hx')
  case errors =>
    intro r hr
    rcases List.mem_append.mp hr with hr | hr
    · exact ⟨(h.errors r hr).1, fun u x hx =>
        ⟨((h.errors r hr).2 u x hx).1, fun hc => ((h.errors r hr).2 u x hx).2 (hstage hc)⟩⟩
    · rw [List.mem_singleton.mp hr]
      -- The record names the value that was supplied: it was written when the entry was made and
      -- not since.
      refine ⟨⟨val, hsup, hvalue⟩, fun u x hx => ?_⟩
      cases hx
      refine ⟨fun val' hc => ?_, fun hc => ?_⟩
      -- Another thread with this entry would be a second owner.
      · change C.push s.world u = _ at hc
        rw [h.unique u t e (.push val' hc) hheld, hnone] at hc
        cases hc
      · change (Function.update s.stage t .loop u).entry = _ at hc
        have hu := h.unique u t e (.left (hstage hc)) hheld
        rw [hu, Function.update_self] at hc
        cases hc

/-- The thread has returned the instance of the entry. -/
theorem later_returns {val : T} (hst : s.stage t = .left val e false) {c : Nat} :
    Later C s { Container.setRef s t .loop e c with
      errors := s.errors ++ [⟨t, s.supplied t, some e, (C.heap s.world).value e⟩] } := by
  refine ⟨fun _ hx => hx, fun u x hx _ => ?_⟩
  rcases hx with ⟨val', hx⟩ | hx | ⟨r, hr, ht, he⟩
  · exact .push val' hx
  · by_cases hu : u = t
    · subst hu
      rw [hst] at hx
      exact .returned _ (List.mem_append_right _ List.mem_cons_self) rfl hx
    · refine .left ?_
      show (Function.update s.stage t .loop u).entry = some x
      rw [Function.update_of_ne hu]
      exact hx
  · exact .returned r (List.mem_append_left _ hr) ht he

/-- An access changes the counts of attached entries only. -/
theorem counts_eq (hp : Proceeds C s.world w' t) {x : Addr}
    (hlt : x < (C.heap s.world).nextAddr) (hx : x ∉ C.attached s.world) :
    C.counts s t w' x = s.refCnt x := by
  have happly : (C.refs s.world t).apply s.refCnt x = s.refCnt x := by
    have htaken : (C.refs s.world t).taken.count x = 0 :=
      List.count_eq_zero.mpr fun hc => hx (hp.refs x (.inl hc))
    have hreleased : (C.refs s.world t).released.count x = 0 :=
      List.count_eq_zero.mpr fun hc => hx (hp.refs x (.inr hc))
    rw [Refs.apply, htaken, hreleased]
    rfl
  unfold Container.counts
  split
  · exact (Function.update_of_ne (Nat.ne_of_lt hlt) ..).trans happly
  · exact happly

/-- The entry of a push, or of a thread that has left its loop. -/
def Keeping (C : Container W A T n) (s : State W T n) (t : Fin n) (x : Addr) : Prop :=
  (∃ val, C.push s.world t = some (val, some x)) ∨ (s.stage t).entry = some x

/-- An entry that a thread keeps for itself it holds. -/
theorem Keeping.holds {x : Addr} (h : Keeping C s t x) : Holds C s t x := holds_of_stage rfl h

/-- A thread holds the entry of its stage, and those of the errors that it has got. -/
theorem holds_iff {x : Addr} : Holds C s t x ↔
    Keeping C s t x ∨ ∃ r ∈ s.errors, r.thread = t ∧ r.entry = some x := by
  constructor
  · rintro (⟨val, h⟩ | h | ⟨r, hr, ht, he⟩)
    · exact .inl (.inl ⟨val, h⟩)
    · exact .inl (.inr h)
    · exact .inr ⟨r, hr, ht, he⟩
  · rintro (h | ⟨r, hr, ht, he⟩)
    · exact h.holds
    · exact .returned r hr ht he

/-- An access of the thread `t`, by what it does to its entry. -/
structure Advances (C : Container W A T n) (s s' : State W T n) (t : Fin n) (w' : W) : Prop where
  world : s'.world = w'
  refCnt : s'.refCnt = C.counts s t w'
  supplied : s'.supplied = s.supplied
  stage : ∀ u, u ≠ t → s'.stage u = s.stage u
  stageOk : StageOk C s' t (s'.stage t)
  val : ∀ val entry, C.push w' t = some (val, entry) → s.supplied t = some val
  keeping : ∀ x, Keeping C s' t x → Keeping C s t x ∨
    x = (C.heap s.world).nextAddr ∧ x < (C.heap w').nextAddr
  kept : ∀ x, Keeping C s t x → x ∉ C.attached w' → Keeping C s' t x
  attached : ∀ x, x ∈ C.attached w' → x ∈ C.attached s.world ∨
    Keeping C s t x ∧ ¬Keeping C s' t x
  attached_later : ∀ x, x ∈ C.attached s.world → x ∈ C.attached w'
  nextAddr : (C.heap s.world).nextAddr ≤ (C.heap w').nextAddr
  errors_later : ∀ r ∈ s.errors, r ∈ s'.errors
  errors : ∀ r ∈ s'.errors, r ∈ s.errors ∨
    r.entry = none ∧ ∃ val, r.val = some val ∧ r.result = some val

/-- What an access of a lawful container does keeps the invariant. -/
theorem Ok.advances (hlaw : Lawful C I) (h : Ok C I s) (hw : C.proceed s.world t = some w')
    (ha : Advances C s s' t w') : Ok C I s' := by
  obtain ⟨hinv, hp⟩ := hlaw.proceed _ _ _ h.inv hw
  have hworld := ha.world
  subst hworld
  have hplace : ∀ {u}, u ≠ t → place C s'.world u = place C s.world u := fun hu => hp.others _ hu
  have hkeep : ∀ {u x}, u ≠ t → Keeping C s' u x → Keeping C s u x := by
    intro u x hu hk
    unfold Keeping at hk
    rw [ha.stage u hu, (Prod.mk.inj (hplace hu)).1] at hk
    exact hk
  have hreturned : ∀ {u x}, (∃ r ∈ s'.errors, r.thread = u ∧ r.entry = some x) →
      ∃ r ∈ s.errors, r.thread = u ∧ r.entry = some x := by
    rintro u x ⟨r, hr, ht, he⟩
    rcases ha.errors r hr with hr | ⟨hnone, -⟩
    · exact ⟨r, hr, ht, he⟩
    · rw [hnone] at he
      cases he
  -- An entry that a thread holds was its own, or is new.
  have hholds : ∀ {u x}, Holds C s' u x → Holds C s u x ∨
      u = t ∧ x = (C.heap s.world).nextAddr ∧ x < (C.heap s'.world).nextAddr := by
    intro u x hx
    rcases holds_iff.mp hx with hk | hr
    · by_cases hu : u = t
      · subst hu
        exact (ha.keeping x hk).imp Keeping.holds fun hnew => ⟨rfl, hnew⟩
      · exact .inl (hkeep hu hk).holds
    · exact .inl (holds_iff.mpr (.inr (hreturned hr)))
  have hfresh : ∀ {u x}, Holds C s u x → x ≠ (C.heap s.world).nextAddr :=
    fun hx => Nat.ne_of_lt (h.fresh _ _ hx).1
  constructor
  case inv => exact hinv
  case stage =>
    intro u
    by_cases hu : u = t
    · rw [hu]
      exact ha.stageOk
    · rw [ha.stage u hu]
      refine (h.stage u).congr (hplace hu) (fun _ => congrFun ha.supplied u) (fun x hx => ?_)
        fun x hx => ?_
      · obtain ⟨hlt, hnot⟩ := h.fresh u x (holds_of_stage rfl hx)
        rw [ha.refCnt, counts_eq hp hlt hnot]
      · exact hp.value x (h.fresh u x (.left hx)).1
  case supplied =>
    intro u val entry hu
    rw [ha.supplied]
    by_cases hut : u = t
    · subst hut
      exact ha.val val entry hu
    · rw [(Prod.mk.inj (hplace hut)).1] at hu
      exact h.supplied u val entry hu
  case fresh =>
    intro u x hx
    rcases hholds hx with hold | ⟨-, hnew, hlt⟩
    · refine ⟨Nat.lt_of_lt_of_le (h.fresh u x hold).1 ha.nextAddr, fun hatt => ?_⟩
      rcases ha.attached x hatt with hatt | ⟨hkept, hnot⟩
      · exact (h.fresh u x hold).2 hatt
      · have hu := h.unique u t x hold hkept.holds
        subst hu
        rcases holds_iff.mp hx with hk | hr
        · exact hnot hk
        · obtain ⟨r, hr, -, he⟩ := hreturned hr
          have hnever := (h.errors r hr).2 u x he
          rcases hkept with ⟨val, hc⟩ | hc
          · exact hnever.1 val hc
          · exact hnever.2 hc
    · refine ⟨hlt, fun hatt => ?_⟩
      rcases ha.attached x hatt with hatt | ⟨hkept, -⟩
      · exact absurd hnew (Nat.ne_of_lt (hlaw.bound _ x h.inv hatt))
      · exact hfresh hkept.holds hnew
  case unique =>
    intro u u' x hx hx'
    rcases hholds hx with hold | ⟨hu, hnew, -⟩
    · rcases hholds hx' with hold' | ⟨-, hnew, -⟩
      · exact h.unique u u' x hold hold'
      · exact absurd hnew (hfresh hold)
    · rcases hholds hx' with hold' | ⟨hu', -⟩
      · exact absurd hnew (hfresh hold')
      · rw [hu, hu']
  case errors =>
    intro r hr
    rcases ha.errors r hr with hr | ⟨hnone, hval⟩
    · refine ⟨(h.errors r hr).1, fun u x hx => ?_⟩
      have hnot : ¬Keeping C s' u x := by
        intro hk
        have hret : Holds C s r.thread x := .returned r hr rfl hx
        have hold : Keeping C s u x := by
          by_cases hu : u = t
          · subst hu
            exact (ha.keeping x hk).resolve_right fun hnew => hfresh hret hnew.1
          · exact hkeep hu hk
        have hnever := (h.errors r hr).2 u x hx
        rcases hold with ⟨val, hc⟩ | hc
        · exact hnever.1 val hc
        · exact hnever.2 hc
      exact ⟨fun val hc => hnot (.inl ⟨val, hc⟩), fun hc => hnot (.inr hc)⟩
    · refine ⟨hval, fun u x hx => ?_⟩
      rw [hnone] at hx
      cases hx

section advanced

variable {val : T} {entry : Option Addr}

/-- The access of a thread without a push. -/
theorem advanced_idle (h : C.push s.world t = none) :
    C.advanced s t w' = { s with world := w', refCnt := C.counts s t w' } := by
  unfold Container.advanced
  rw [h]

/-- The condition does not hold, and there is an entry to give back. -/
theorem advanced_rejected (h : C.push s.world t = some (val, some e))
    (hr : C.rejects s.world w' = true) :
    C.advanced s t w' = { s with
      world := w'
      refCnt := C.counts s t w'
      stage := Function.update s.stage t (.left val e true) } := by
  unfold Container.advanced
  rw [h]
  simp only [hr, if_true]

/-- The condition does not hold, and no entry was created. -/
theorem advanced_refused (h : C.push s.world t = some (val, none))
    (hr : C.rejects s.world w' = true) :
    C.advanced s t w' = { s with
      world := w'
      refCnt := C.counts s t w'
      errors := s.errors ++ [⟨t, s.supplied t, none, some val⟩] } := by
  unfold Container.advanced
  rw [h]
  simp only [hr, if_true]

/-- The push goes on. -/
theorem advanced_goes (h : C.push s.world t = some (val, entry))
    (hr : C.rejects s.world w' = false) (hst : s.stage t ≠ .cloned) :
    C.advanced s t w' = { s with world := w', refCnt := C.counts s t w' } := by
  unfold Container.advanced
  rw [h]
  simp only [hr, Bool.false_eq_true, if_false]

/-- The compare-and-exchange. -/
theorem advanced_cloned (h : C.push s.world t = some (val, entry))
    (hr : C.rejects s.world w' = false) (hst : s.stage t = .cloned) :
    C.advanced s t w' = { s with
      world := w'
      refCnt := C.counts s t w'
      stage := Function.update s.stage t (if (C.push w' t).isSome then .failed else .loop) } := by
  unfold Container.advanced
  rw [h]
  simp only [hr, Bool.false_eq_true, if_false, hst]

end advanced

/-- The place of a thread before an access of the container. -/
inductive Ready (C : Container W A T n) (s : State W T n) (t : Fin n) : Prop where
  | loop (hst : s.stage t = .loop)
      (h : ∀ val e, C.push s.world t = some (val, some e) →
        s.refCnt e = 1 ∧ C.begins s.world t = true ∧ C.exchanging s.world t = false)
  | cloned (hst : s.stage t = .cloned) (val : T) (e : Addr)
      (hpush : C.push s.world t = some (val, some e)) (hcnt : s.refCnt e = 3)
      (hex : C.exchanging s.world t = true)
  | failed (hst : s.stage t = .failed) (val : T) (e : Addr)
      (hpush : C.push s.world t = some (val, some e)) (hcnt : s.refCnt e = 3)
      (hbegins : C.begins s.world t = false) (hex : C.exchanging s.world t = false)

/-- A thread in its loop has left no entry behind. -/
theorem Ready.entry (h : Ready C s t) : (s.stage t).entry = none := by
  rcases h with ⟨hst, -⟩ | ⟨hst, -⟩ | ⟨hst, -⟩ <;> rw [hst] <;> rfl

/-- An entry that is kept in the loop is the one of the push. -/
theorem Ready.push (h : Ready C s t) {x : Addr} (hx : Keeping C s t x) :
    ∃ val, C.push s.world t = some (val, some x) := by
  rcases hx with hx | hx
  · exact hx
  · rw [h.entry] at hx
    cases hx

/-- A thread that has no new entry is in the loop. -/
theorem Ready.loop_of (h : Ready C s t) (hpush : ∀ val e, C.push s.world t ≠ some (val, some e)) :
    s.stage t = .loop := by
  rcases h with ⟨hst, -⟩ | ⟨-, val, e, he, -⟩ | ⟨-, val, e, he, -⟩
  · exact hst
  · exact absurd he (hpush val e)
  · exact absurd he (hpush val e)

section advance

variable {val : T} {entry : Option Addr} (hp : Proceeds C s.world w' t) (h : Ok C I s)
  (hready : Ready C s t)

include h hp in
/-- The count of the new entry does not change. -/
theorem counts_own {x : Addr} (hx : Keeping C s t x) : C.counts s t w' x = s.refCnt x :=
  counts_eq hp (h.fresh t x hx.holds).1 (h.fresh t x hx.holds).2

include hready in

/-- An access of a thread without a push. -/
theorem advances_idle (hpush : C.push s.world t = none) (hpush' : C.push w' t = none)
    (hatt : C.attached w' = C.attached s.world)
    (hnext : (C.heap w').nextAddr = (C.heap s.world).nextAddr) :
    Advances C s (C.advanced s t w') t w' := by
  -- A thread without an entry is in its loop.
  have hst := hready.loop_of fun val e hc => by rw [hpush] at hc; cases hc
  have hnone : ∀ {x}, ¬Keeping C s t x := fun hx => by
    obtain ⟨val, hc⟩ := hready.push hx
    rw [hpush] at hc
    cases hc
  rw [advanced_idle hpush]
  refine ⟨rfl, rfl, rfl, fun _ _ => rfl, ?_, fun val entry hc => ?_, fun x hx => ?_,
    fun x hx => absurd hx hnone, fun x hx => .inl (hatt ▸ hx), fun x hx => hatt ▸ hx,
    Nat.le_of_eq hnext.symm, fun r hr => hr, fun r hr => .inl hr⟩
  · show StageOk C _ t (s.stage t)
    rw [hst]
    intro val e hc
    change C.push w' t = _ at hc
    rw [hpush'] at hc
    cases hc
  · rw [hpush'] at hc
    cases hc
  · rcases hx with ⟨val, hc⟩ | hc
    · change C.push w' t = _ at hc
      rw [hpush'] at hc
      cases hc
    · exact .inl (.inr hc)

include hp h hready in

/-- An access of a push that goes on with its entry. -/
theorem advances_stays (hpush : C.push s.world t = some (val, entry))
    (hpush' : C.push w' t = some (val, entry)) (hrejects : C.rejects s.world w' = false)
    (hatt : C.attached w' = C.attached s.world)
    (hnext : (C.heap w').nextAddr = (C.heap s.world).nextAddr)
    (hex : C.exchanging w' t = true → C.begins w' t = true ∨
      C.begins s.world t = true ∧ C.exchanging s.world t = false) :
    Advances C s (C.advanced s t w') t w' := by
  have hsame : C.push w' t = C.push s.world t := hpush'.trans hpush.symm
  have hkeeping : ∀ s' : State W T n, s'.world = w' → (s'.stage t).entry = none →
      ∀ x, Keeping C s' t x → Keeping C s t x := by
    -- The place of the push is the same, so what t keeps is the same.
    rintro s' rfl hentry x (⟨val', hc⟩ | hc)
    · exact .inl ⟨val', hsame.symm.trans hc⟩
    · rw [hentry] at hc
      cases hc
  have hkept : ∀ s' : State W T n, s'.world = w' → ∀ x, Keeping C s t x → Keeping C s' t x := by
    rintro s' rfl x hx
    obtain ⟨val', hc⟩ := hready.push hx
    exact .inl ⟨val', hsame.trans hc⟩
  have hval : ∀ val' entry', C.push w' t = some (val', entry') → s.supplied t = some val' :=
    fun val' entry' hc => h.supplied t val' entry' (hsame.symm.trans hc)
  -- Before the comparison, right after the clones, or after the exchange has failed.
  rcases hready with ⟨hst, hloop⟩ | ⟨hst, val', e, he, hcnt, hexch⟩ | ⟨hst, val', e, he, hcnt, hb, -⟩
  · rw [advanced_goes hpush hrejects (by rw [hst]; nofun)]
    refine ⟨rfl, rfl, rfl, fun _ _ => rfl, ?_, hval,
      fun x hx => .inl (hkeeping { s with world := w', refCnt := C.counts s t w' } rfl
        (by rw [hst]; rfl) x hx), fun x hx _ => hkept _ rfl x hx, fun x hx => .inl (hatt ▸ hx),
      fun x hx => hatt ▸ hx, Nat.le_of_eq hnext.symm, fun r hr => hr, fun r hr => .inl hr⟩
    show StageOk C _ t (s.stage t)
    rw [hst]
    intro val' e hc
    have he := hsame.symm.trans hc
    obtain ⟨hone, hbegins, hnotex⟩ := hloop val' e he
    exact ⟨(counts_own hp h (.inl ⟨val', he⟩)).trans hone, .inr (hp.turn hbegins hnotex).2⟩
  · -- The compare-and-exchange has failed.
    have hfailed : (if (C.push w' t).isSome then (.failed : Stage T) else .loop) = .failed := by
      rw [hpush']
      rfl
    rw [advanced_cloned hpush hrejects hst, hfailed]
    have hself : Function.update s.stage t (.failed : Stage T) t = .failed :=
      Function.update_self ..
    refine ⟨rfl, rfl, rfl, fun u hu => Function.update_of_ne hu .., ?_, hval,
      fun x hx => .inl (hkeeping _ rfl ?_ x hx), fun x hx _ => hkept _ rfl x hx,
      fun x hx => .inl (hatt ▸ hx), fun x hx => hatt ▸ hx, Nat.le_of_eq hnext.symm,
      fun r hr => hr, fun r hr => .inl hr⟩
    · show StageOk C _ t (Function.update s.stage t .failed t)
      rw [hself]
      refine ⟨val', e, hsame.trans he, (counts_own hp h (.inl ⟨val', he⟩)).trans hcnt,
        fun hc => (hex hc).resolve_right fun hb => ?_⟩
      rw [hexch] at hb
      cases hb.2
    · show (Function.update s.stage t .failed t).entry = none
      rw [hself]
      rfl
  · rw [advanced_goes hpush hrejects (by rw [hst]; nofun)]
    refine ⟨rfl, rfl, rfl, fun _ _ => rfl, ?_, hval,
      fun x hx => .inl (hkeeping { s with world := w', refCnt := C.counts s t w' } rfl
        (by rw [hst]; rfl) x hx), fun x hx _ => hkept _ rfl x hx, fun x hx => .inl (hatt ▸ hx),
      fun x hx => hatt ▸ hx, Nat.le_of_eq hnext.symm, fun r hr => hr, fun r hr => .inl hr⟩
    show StageOk C _ t (s.stage t)
    rw [hst]
    refine ⟨val', e, hsame.trans he, (counts_own hp h (.inl ⟨val', he⟩)).trans hcnt,
      fun hc => (hex hc).resolve_right fun hb' => ?_⟩
    rw [hb] at hb'
    cases hb'.1

include h hready in

/-- An access of a push that creates its entry. -/
theorem advances_creates (hpush : C.push s.world t = some (val, none))
    (hpush' : C.push w' t = some (val, some (C.heap s.world).nextAddr))
    (hrejects : C.rejects s.world w' = false) (hatt : C.attached w' = C.attached s.world)
    (hbegins : C.begins w' t = true)
    (hnext : (C.heap w').nextAddr = (C.heap s.world).nextAddr + 1) :
    Advances C s (C.advanced s t w') t w' := by
  have hst := hready.loop_of fun val e hc => by rw [hpush] at hc; cases hc
  -- The allocator hands out an address that no thread has seen.
  have hlt : (C.heap s.world).nextAddr < (C.heap w').nextAddr := by
    rw [hnext]
    exact Nat.lt_succ_self _
  have hnone : ∀ {x}, ¬Keeping C s t x := fun hx => by
    obtain ⟨val', hc⟩ := hready.push hx
    rw [hpush] at hc
    cases hc
  rw [advanced_goes hpush hrejects (by rw [hst]; nofun)]
  refine ⟨rfl, rfl, rfl, fun _ _ => rfl, ?_, fun val' entry' hc => ?_, fun x hx => ?_,
    fun x hx => absurd hx hnone, fun x hx => .inl (hatt ▸ hx), fun x hx => hatt ▸ hx,
    Nat.le_of_lt hlt, fun r hr => hr, fun r hr => .inl hr⟩
  · show StageOk C _ t (s.stage t)
    rw [hst]
    intro val' e hc
    change C.push w' t = _ at hc
    rw [hpush'] at hc
    cases hc
    refine ⟨?_, .inl hbegins⟩
    show C.counts s t w' _ = 1
    -- The counter of a new entry is one.
    unfold Container.counts
    rw [if_pos hlt, Function.update_self]
  · rw [hpush'] at hc
    cases hc
    exact h.supplied t val none hpush
  · rcases hx with ⟨val', hc⟩ | hc
    · change C.push w' t = _ at hc
      rw [hpush'] at hc
      cases hc
      exact .inr ⟨rfl, hlt⟩
    · exact .inl (.inr hc)

include h hready in
/-- The first evaluation of the condition. -/
theorem advances_refused (hpush : C.push s.world t = some (val, none)) (hpush' : C.push w' t = none)
    (hrejects : C.rejects s.world w' = true) (hatt : C.attached w' = C.attached s.world)
    (hnext : (C.heap w').nextAddr = (C.heap s.world).nextAddr) :
    Advances C s (C.advanced s t w') t w' := by
  have hst := hready.loop_of fun val e hc => by rw [hpush] at hc; cases hc
  have hnone : ∀ {x}, ¬Keeping C s t x := fun hx => by
    obtain ⟨val', hc⟩ := hready.push hx
    rw [hpush] at hc
    -- Nothing has been allocated, so the value itself goes back to the caller.
    cases hc
  rw [advanced_refused hpush hrejects]
  refine ⟨rfl, rfl, rfl, fun _ _ => rfl, ?_, fun val' entry' hc => ?_, fun x hx => ?_,
    fun x hx => absurd hx hnone, fun x hx => .inl (hatt ▸ hx), fun x hx => hatt ▸ hx,
    Nat.le_of_eq hnext.symm, fun r hr => List.mem_append_left _ hr, fun r hr => ?_⟩
  · show StageOk C _ t (s.stage t)
    rw [hst]
    intro val' e hc
    change C.push w' t = _ at hc
    rw [hpush'] at hc
    cases hc
  · rw [hpush'] at hc
    cases hc
  · rcases hx with ⟨val', hc⟩ | hc
    · change C.push w' t = _ at hc
      rw [hpush'] at hc
      cases hc
    · exact .inl (.inr hc)
  · rcases List.mem_append.mp hr with hr | hr
    · exact .inl hr
    -- The one new record is that of the value supplied.
    · rw [List.mem_singleton.mp hr]
      exact .inr ⟨rfl, val, h.supplied t val none hpush, rfl⟩

include hp h hready in
/-- The loop is left after a compare-and-exchange that has failed. -/
theorem advances_rejected (hvalue : (C.heap s.world).value e = some val)
    (hpush : C.push s.world t = some (val, some e)) (hpush' : C.push w' t = none)
    (hrejects : C.rejects s.world w' = true) (hatt : C.attached w' = C.attached s.world)
    (hnext : (C.heap w').nextAddr = (C.heap s.world).nextAddr) :
    Advances C s (C.advanced s t w') t w' := by
  have hkept : Keeping C s t e := .inl ⟨val, hpush⟩
  -- A turn of the loop rejects between the clones and their drop, where the counter is three.
  have hcnt : s.refCnt e = 3 := by
    rcases hready with ⟨-, hloop⟩ | ⟨-, val', e', he, hcnt, -⟩ | ⟨-, val', e', he, hcnt, -⟩
    · obtain ⟨-, hbegins, hnotex⟩ := hloop val e hpush
      have hsome := (hp.turn hbegins hnotex).1
      rw [hpush'] at hsome
      cases hsome
    · rw [hpush] at he
      cases he
      exact hcnt
    · rw [hpush] at he
      cases he
      exact hcnt
  rw [advanced_rejected hpush hrejects]
  have hself : Function.update s.stage t (.left val e true) t = .left val e true :=
    Function.update_self ..
  refine ⟨rfl, rfl, rfl, fun u hu => Function.update_of_ne hu .., ?_, fun val' entry' hc => ?_,
    fun x hx => ?_, fun x hx _ => .inr ?_, fun x hx => .inl (hatt ▸ hx), fun x hx => hatt ▸ hx,
    Nat.le_of_eq hnext.symm, fun r hr => hr, fun r hr => .inl hr⟩
  · show StageOk C _ t (Function.update s.stage t _ t)
    rw [hself]
    exact ⟨hpush', h.supplied t val _ hpush,
      (hp.value e (h.fresh t e hkept.holds).1).trans hvalue, (counts_own hp h hkept).trans hcnt⟩
  · rw [hpush'] at hc
    cases hc
  · rcases hx with ⟨val', hc⟩ | hc
    · change C.push w' t = _ at hc
      rw [hpush'] at hc
      cases hc
    · change (Function.update s.stage t _ t).entry = _ at hc
      rw [hself] at hc
      cases hc
      exact .inl hkept
  -- The entry stays with the thread, now in result.
  · obtain ⟨val', hc⟩ := hready.push hx
    rw [hpush] at hc
    cases hc
    show (Function.update s.stage t _ t).entry = _
    rw [hself]
    rfl

include hready in
/-- The compare-and-exchange has succeeded. -/
theorem advances_attached (hpush : C.push s.world t = some (val, some e))
    (hex : C.exchanging s.world t = true) (hpush' : C.push w' t = none)
    (hrejects : C.rejects s.world w' = false)
    (hatt : ∀ x, x ∈ C.attached w' ↔ x ∈ C.attached s.world ∨ x = e)
    (hnext : (C.heap w').nextAddr = (C.heap s.world).nextAddr) :
    Advances C s (C.advanced s t w') t w' := by
  -- Only an exchange attaches, and it is made with the clones in place.
  have hst : s.stage t = .cloned := by
    rcases hready with ⟨-, hloop⟩ | ⟨hst, -⟩ | ⟨-, _, _, -, -, -, hnotex⟩
    · obtain ⟨-, -, hnotex⟩ := hloop val e hpush
      rw [hex] at hnotex
      cases hnotex
    · exact hst
    · rw [hex] at hnotex
      cases hnotex
  have hloop : (if (C.push w' t).isSome then (.failed : Stage T) else .loop) = .loop := by
    rw [hpush']
    rfl
  rw [advanced_cloned hpush hrejects hst, hloop]
  have hself : Function.update s.stage t (.loop : Stage T) t = .loop := Function.update_self ..
  have hnot : ∀ x, ¬Keeping C { s with
      world := w'
      refCnt := C.counts s t w'
      stage := Function.update s.stage t .loop } t x := by
    rintro x (⟨val', hc⟩ | hc)
    · change C.push w' t = _ at hc
      rw [hpush'] at hc
      cases hc
    · change (Function.update s.stage t _ t).entry = _ at hc
      rw [hself] at hc
      cases hc
  refine ⟨rfl, rfl, rfl, fun u hu => Function.update_of_ne hu .., ?_, fun val' entry' hc => ?_,
    fun x hx => absurd hx (hnot x), fun x hx hx' => ?_, fun x hx => ?_,
    fun x hx => (hatt x).mpr (.inl hx), Nat.le_of_eq hnext.symm, fun r hr => hr,
    fun r hr => .inl hr⟩
  · show StageOk C _ t (Function.update s.stage t _ t)
    rw [hself]
    exact fun val' x hc => absurd (.inl ⟨val', hc⟩) (hnot x)
  · rw [hpush'] at hc
    cases hc
  · obtain ⟨val', hc⟩ := hready.push hx
    rw [hpush] at hc
    cases hc
    -- The entry is attached now, and no push carries it any more.
    exact absurd ((hatt e).mpr (.inr rfl)) hx'
  · refine ((hatt x).mp hx).imp id fun hxe => ⟨?_, hnot x⟩
    rw [hxe]
    exact .inl ⟨val, hpush⟩

end advance

/-- An access of the container. -/
theorem advances_advanced (hlaw : Lawful C I) (h : Ok C I s) (hready : Ready C s t)
    (hw : C.proceed s.world t = some w') : Advances C s (C.advanced s t w') t w' := by
  have hp := (hlaw.proceed _ _ _ h.inv hw).2
  cases hp.pushes with
  | idle hpush hpush' hatt hnext => exact advances_idle hready hpush hpush' hatt hnext
  | stays val entry hpush hpush' hrejects hatt hnext hex =>
    exact advances_stays hp h hready hpush hpush' hrejects hatt hnext hex
  | creates val hpush hpush' hrejects hatt hbegins hnext =>
    exact advances_creates h hready hpush hpush' hrejects hatt hbegins hnext
  | rejected val entry hpush hpush' hrejects hatt hnext =>
    cases entry with
    | none => exact advances_refused h hready hpush hpush' hrejects hatt hnext
    | some e =>
      have hvalue := (hlaw.own _ t val e h.inv hpush).2.2
      exact advances_rejected hp h hready hvalue hpush hpush' hrejects hatt hnext
  | attached val e hpush hex hpush' hrejects hatt hnext =>
    exact advances_attached hready hpush hex hpush' hrejects hatt hnext

/-- An access of the container keeps the invariant. -/
theorem Ok.advance (hlaw : Lawful C I) (h : Ok C I s) (hready : Ready C s t)
    (hs : C.advance s t = some s') : Ok C I s' ∧ Later C s s' := by
  obtain ⟨w', hw, rfl⟩ := Option.map_eq_some_iff.mp hs
  have hp := (hlaw.proceed _ _ _ h.inv hw).2
  have ha := advances_advanced hlaw h hready hw
  refine ⟨h.advances hlaw hw ha, fun x hx => ?_, fun u x hx hnot => ?_⟩
  · rw [ha.world]
    exact ha.attached_later x hx
  · rcases holds_iff.mp hx with hk | ⟨r, hr, ht, he⟩
    · by_cases hu : u = t
      · subst hu
        exact (ha.kept x hk (ha.world ▸ hnot)).holds
      · refine Keeping.holds ?_
        unfold Keeping
        rw [ha.stage u hu, ha.world, (Prod.mk.inj (hp.others u hu)).1]
        exact hk
    · exact .returned r (ha.errors_later r hr) ht he

/-- The next access of a thread. -/
theorem Ok.proceed (hlaw : Lawful C I) (h : Ok C I s) (hs : C.proceedAt s t = some s') :
    Ok C I s' ∧ Later C s s' := by
  have hstage := h.stage t
  unfold Container.proceedAt at hs
  split at hs
  · -- A turn of the loop.
    rename_i val e hst hpush
    rw [hst] at hstage
    -- The counter is one when a turn begins, and three between the clones and their drop.
    obtain ⟨hone, hplace⟩ := hstage val e hpush
    split at hs
    · rename_i hex
      cases hs
      refine h.setRef (.push val hpush) (by rw [hst]; rfl) ⟨val, e, hpush, ?_, hex⟩
      show Function.update s.refCnt e (s.refCnt e + 2) e = 3
      rw [Function.update_self, hone]
    · rename_i hex
      have hnotex : C.exchanging s.world t = false := (Bool.not_eq_true _).mp hex
      refine h.advance hlaw (.loop hst fun val' e' he => ?_) hs
      rw [hpush] at he
      cases he
      exact ⟨hone, hplace.resolve_right hex, hnotex⟩
  -- The exchange has failed: the clones are dropped where the next turn begins.
  · rename_i val e hst hpush
    rw [hst] at hstage
    obtain ⟨val', e', he, hcnt, hex⟩ := hstage
    rw [hpush] at he
    cases he
    split at hs
    · rename_i hbegins
      cases hs
      refine h.setRef (.push val hpush) (by rw [hst]; rfl) fun val' e' he => ?_
      change C.push s.world t = _ at he
      rw [hpush] at he
      cases he
      refine ⟨?_, .inl hbegins⟩
      show Function.update s.refCnt e (s.refCnt e - 2) e = 1
      rw [Function.update_self, hcnt]
    · rename_i hbegins
      have hnot : C.begins s.world t = false := (Bool.not_eq_true _).mp hbegins
      exact h.advance hlaw (.failed hst val e hpush hcnt hnot
        ((Bool.not_eq_true _).mp fun hc => hbegins (hex hc))) hs
  · rename_i hst hpush
    exact h.advance hlaw (.loop hst fun val e he => (hpush val e he).elim) hs
  · rename_i hst
    rw [hst] at hstage
    obtain ⟨val, e, he, hcnt, hex⟩ := hstage
    exact h.advance hlaw (.cloned hst val e he hcnt hex) hs
  · rename_i hst hpush
    rw [hst] at hstage
    obtain ⟨val, e, he, -⟩ := hstage
    exact (hpush val e he).elim
  · -- `result` is dropped.
    rename_i val e hst
    rw [hst] at hstage
    obtain ⟨hnone, hsup, hvalue, hcnt⟩ := hstage
    cases hs
    refine h.setRef (.left (by rw [hst]; rfl)) (by rw [hst]; rfl) ⟨hnone, hsup, hvalue, ?_⟩
    show Function.update s.refCnt e (s.refCnt e - 2) e = 1
    rw [Function.update_self, hcnt]
    rfl
  · -- `get_mut` finds one owner.
    rename_i val e hst
    rw [hst] at hstage
    have hone : s.refCnt e = 1 := hstage.2.2.2
    rw [if_pos hone] at hs
    cases hs
    exact ⟨h.returns hst, later_returns hst⟩
  · cases hs

/-- Every action keeps the invariant. -/
theorem Ok.step (hlaw : Lawful C I) (h : Ok C I s) {a : Action A T n} (hs : C.step s a = some s') :
    Ok C I s' ∧ Later C s s' := by
  -- The places of the threads and the entries stay as they are.
  have hkeeps : ∀ {w' : W} {supplied : Fin n → Option T}, I w' → Keeps C s.world w' →
      (∀ u, place C w' u = place C s.world u ∧ supplied u = s.supplied u ∨
        s.stage u = .loop ∧ C.push s.world u = none ∧ ∀ val entry,
          C.push w' u = some (val, entry) → supplied u = some val ∧ entry = none) →
      Ok C I { s with world := w', supplied := supplied } ∧
        Later C s { s with world := w', supplied := supplied } := by
    intro w' supplied hinv hk hplace
    have hlater : Later C s { s with world := w', supplied := supplied } := by
      refine ⟨fun x hx => hk.attached ▸ hx, fun u x hx _ => ?_⟩
      rcases hx with ⟨val, hx⟩ | hx | ⟨r, hr, ht, he⟩
      · rcases hplace u with ⟨hsame, -⟩ | ⟨-, hnone, -⟩
        · exact .push val ((Prod.mk.inj hsame).1.trans hx)
        · rw [hnone] at hx
          cases hx
      · exact .left hx
      · exact .returned r hr ht he
    refine ⟨?_, hlater⟩
    have hkeeping : ∀ {u x}, Keeping C { s with world := w', supplied := supplied } u x →
        Keeping C s u x := by
      rintro u x (⟨val, hx⟩ | hx)
      · rcases hplace u with ⟨hsame, -⟩ | ⟨-, -, hnew⟩
        · exact .inl ⟨val, (Prod.mk.inj hsame).1.symm.trans hx⟩
        · cases (hnew val _ hx).2
      · exact .inr hx
    have hholds : ∀ {u x}, Holds C { s with world := w', supplied := supplied } u x →
        Holds C s u x := fun hx => holds_iff.mpr ((holds_iff.mp hx).imp hkeeping id)
    constructor
    case inv => exact hinv
    case stage =>
      intro u
      rcases hplace u with ⟨hsame, hsup⟩ | ⟨hst, hnone, hnew⟩
      · exact (h.stage u).congr hsame (fun _ => hsup) (fun _ _ => rfl)
          fun x _ => congrFun hk.value x
      · show StageOk C _ u (s.stage u)
        rw [hst]
        intro val e he
        cases (hnew val _ he).2
    case supplied =>
      intro u val entry hu
      rcases hplace u with ⟨hsame, hsup⟩ | ⟨-, -, hnew⟩
      · exact hsup.trans (h.supplied u val entry ((Prod.mk.inj hsame).1.symm.trans hu))
      · exact (hnew val entry hu).1
    case fresh =>
      intro u x hx
      show x < (C.heap w').nextAddr ∧ x ∉ C.attached w'
      rw [hk.nextAddr, hk.attached]
      exact h.fresh u x (hholds hx)
    case unique => exact fun u u' x hx hx' => h.unique u u' x (hholds hx) (hholds hx')
    case errors =>
      intro r hr
      refine ⟨(h.errors r hr).1, fun u x hx => ?_⟩
      have hnever := (h.errors r hr).2 u x hx
      have hnot : ¬Keeping C s u x := by
        rintro (⟨val, hc⟩ | hc)
        · exact hnever.1 val hc
        · exact hnever.2 hc
      exact ⟨fun val hc => hnot (hkeeping (.inl ⟨val, hc⟩)), hnever.2⟩
  cases a with
  | proceed t => exact h.proceed hlaw hs
  | act a =>
    rw [Container.step] at hs
    split at hs
    · rename_i hcond
      obtain ⟨w', hw, rfl⟩ := Option.map_eq_some_iff.mp hs
      obtain ⟨hinv, hk, hplace, hactor⟩ := hlaw.act _ _ _ h.inv hw
      have hloop : ∀ t, C.actor a = some t → s.stage t = .loop := by
        intro t ht
        have hall := ((Bool.and_eq_true _ _).mp hcond).1
        rw [ht] at hall
        change (s.stage t).isLoop = true at hall
        cases hst : s.stage t with
        | loop => rfl
        | cloned | failed | left | undefined =>
          rw [hst] at hall
          cases hall
      refine hkeeps hinv hk fun u => ?_
      by_cases hu : C.actor a = some u
      · obtain ⟨hnone, hnew⟩ := hactor u hu
        refine .inr ⟨hloop u hu, hnone, fun val entry hc => ?_⟩
        obtain ⟨hsup, hentry⟩ := hnew val entry hc
        refine ⟨?_, hentry⟩
        rw [hu, hsup]
        exact Function.update_self ..
      · refine .inl ⟨hplace u hu, ?_⟩
        cases hother : C.actor a with
        | none => rfl
        | some t =>
          have hut : u ≠ t := fun hc => hu (hc ▸ hother)
          cases C.supplies a with
          | none => rfl
          | some val => exact Function.update_of_ne hut ..
    · cases hs
  | setCond t cond =>
    obtain ⟨w', hw, rfl⟩ := Option.map_eq_some_iff.mp hs
    obtain ⟨hinv, hk, hplace⟩ := hlaw.setCond _ _ _ _ h.inv hw
    exact hkeeps hinv hk fun u => .inl ⟨hplace u, rfl⟩
  | handles x refCnt =>
    rw [Container.step] at hs
    split at hs
    · rename_i hx
      cases hs
      have hholds : ∀ {u y}, Holds C { s with refCnt := Function.update s.refCnt x refCnt } u y →
          Holds C s u y := fun hy => holds_iff.mpr ((holds_iff.mp hy).imp id id)
      refine ⟨⟨h.inv, fun u => ?_, h.supplied, fun u y hy => h.fresh u y (hholds hy),
        fun u u' y hy hy' => h.unique u u' y (hholds hy) (hholds hy'), h.errors⟩,
        fun _ hy => hy, fun u y hy _ => holds_iff.mpr ((holds_iff.mp hy).imp id id)⟩
      refine (h.stage u).congr rfl (fun _ => rfl) (fun y hy => ?_) fun _ _ => rfl
      -- The entry is attached, so that no thread has it as its new entry.
      refine Function.update_of_ne (fun hyx => ?_) ..
      exact (h.fresh u y (holds_of_stage rfl hy)).2 (hyx ▸ hx)
    · cases hs

/-- A run from a state with the invariant. -/
theorem Ok.run {P : State W T n → Action A T n → Prop} (hlaw : Lawful C I) (h : Ok C I s)
    (hrun : Run C.step P s s') : Ok C I s' ∧ Later C s s' :=
  hrun.invariant (fun x => Ok C I x ∧ Later C s x) ⟨h, .refl s⟩ fun _ _ _ hx _ hs =>
    ⟨(hx.1.step hlaw hs).1, hx.2.trans (hx.1.step hlaw hs).2⟩

end Sdd.Proofs.PushIf
