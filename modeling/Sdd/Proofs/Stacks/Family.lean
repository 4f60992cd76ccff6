import Sdd.Proofs.Stack.Calls
import Sdd.Stacks

/-!
# `Sdd.Proofs.Stacks.Family`: the invariant of a family of stacks

What the threads of a program that uses a family of stacks rely on. `Place` is the part of the
state of a thread that has to do with the stacks: a call, a destructor, or an entry that it
uses. `FamilyInv f tgt place` says that the words of the stacks are in order (`Stacks`), and
that each thread can go on from its place; an entry that a thread holds is not released, and no
two threads have created the same entry.

A program moves one thread at a time: `FamilyInv.moves` is what a move has to keep. The other
lemmas are the moves: an access of a call, `pop_all`, an access of a destructor, a change of
the instance of an entry, and the release of an entry.
-/

set_option autoImplicit false

namespace Sdd.Proofs.Stacks

open Sdd.Lib
open Sdd.Stack (Call)
open Sdd.Stacks (Family)
open Sdd.Proofs.Stack (Stacks CallInv ownEntry entries Moved step_steps)

variable {T ι : Type} [DecidableEq ι] {n : Nat}

/-- What a thread does with the stacks. -/
inductive Place (T : Type) where
  | none
  | call (call : Call T)
  /-- A destructor. -/
  | drop (call : NextPtr)
  /-- The thread uses the entry `x`, under a guard or with a `Shared` of it. -/
  | uses (x : Addr) (shared : Bool)

/-- The thread holds a `Shared` of `x`. -/
def Place.holds (x : Addr) : Place T → Bool
  | none => false
  | call c => c.holds x
  | drop c => c.holds == some x
  | uses y shared => shared && y == x

/-- The entry that a thread has created and not attached yet. -/
def Place.entry : Place T → Option Addr
  | call c => ownEntry c
  | _ => Option.none

/-- What a thread knows. -/
def PlaceOk (h : Heap T) (att : List Addr) (tgt : Addr → Option Addr) : Place T → Prop
  | .none => True
  | .call call => CallInv h att tgt call
  | .drop call => ∃ b, CallOk (listView att h.isDeleted tgt) False b call
  | .uses x _ => x ∈ att

structure FamilyInv (f : Family T ι) (owner : Addr → ι) (tgt : Addr → Option Addr)
    (place : Fin n → Place T) : Prop where
  words : Stacks f.heap f.attached owner f.newest tgt
  ok : ∀ t, PlaceOk f.heap f.attached tgt (place t)
  held : ∀ t x, (place t).holds x = true → f.heap.released x = false
  own : ∀ t u e, (place t).entry = some e → (place u).entry = some e → t = u

variable {f f' : Family T ι} {owner owner' : Addr → ι} {tgt tgt' : Addr → Option Addr}
  {place : Fin n → Place T} {t : Fin n} {p : Place T}

/-- The thread at the place `p₀` can go on from `p` after a write. -/
structure Fits (f f' : Family T ι) (tgt' : Addr → Option Addr) (p₀ p : Place T) : Prop where
  ok : PlaceOk f'.heap f'.attached tgt' p
  held : ∀ x, p.holds x = true → f'.heap.released x = false
  own : ∀ e, p.entry = some e → p₀.entry = some e ∨ f.heap.nextAddr ≤ e

omit [DecidableEq ι] in
theorem PlaceOk.ext {own : Option Addr} (h : PlaceOk f.heap f.attached tgt p)
    (he : Ext f.heap f'.heap f.attached f'.attached tgt tgt' own)
    (hown : ∀ e, p.entry = some e → own ≠ some e) : PlaceOk f'.heap f'.attached tgt' p := by
  cases p with
  | none => exact trivial
  | call call => exact CallInv.ext h he hown
  | drop call =>
    obtain ⟨b, hcall⟩ := h
    exact ⟨b, he.later.callOk hcall⟩
  | uses x shared => exact he.later.att x h

omit [DecidableEq ι] in
/-- The entry that a thread has created is allocated and not attached. -/
theorem PlaceOk.unattached {e : Addr} (h : PlaceOk f.heap f.attached tgt p)
    (he : p.entry = some e) : e < f.heap.nextAddr ∧ e ∉ f.attached := by
  cases p with
  | call call => exact CallInv.unattached h he
  | none => cases he
  | drop call => cases he
  | uses x shared => cases he

omit [DecidableEq ι] in
/-- A place that a thread comes to without an entry of its own. -/
theorem Fits.of_none {p₀ : Place T} (hok : PlaceOk f'.heap f'.attached tgt' p)
    (hheld : ∀ x, p.holds x = true → f'.heap.released x = false) (hown : p.entry = none) :
    Fits f f' tgt' p₀ p where
  ok := hok
  held := hheld
  own e he := by
    rw [hown] at he
    cases he

namespace FamilyInv

/-- A thread moves, and the others keep what they know. -/
theorem moves (h : FamilyInv f owner tgt place)
    (hs : Stacks f'.heap f'.attached owner' f'.newest tgt')
    (hext : Ext f.heap f'.heap f.attached f'.attached tgt tgt' (place t).entry)
    (hrel : f'.heap.released = f.heap.released) (hf : Fits f f' tgt' (place t) p) :
    FamilyInv f' owner' tgt' (Function.update place t p) where
  words := hs
  ok u := by
    by_cases hu : u = t
    · rw [hu, Function.update_self]
      exact hf.ok
    · rw [Function.update_of_ne hu]
      exact (h.ok u).ext hext fun e he hc => hu (h.own u t e he hc)
  held u x hx := by
    by_cases hu : u = t
    · rw [hu, Function.update_self] at hx
      exact hf.held x hx
    · rw [Function.update_of_ne hu] at hx
      rw [hrel]
      exact h.held u x hx
  own := by
    -- The entry of the thread is its old one or a new one, and nobody else has it.
    have hnew : ∀ u e, u ≠ t → (place u).entry = some e → p.entry ≠ some e := by
      intro u e hu he hc
      rcases hf.own e hc with hold | hfresh
      · exact hu (h.own u t e he hold)
      · exact absurd ((h.ok u).unattached he).1 (Nat.not_lt.mpr hfresh)
    intro u u' e he he'
    by_cases hu : u = t
    · by_cases hu' : u' = t
      · rw [hu, hu']
      · rw [hu, Function.update_self] at he
        rw [Function.update_of_ne hu'] at he'
        exact absurd he (hnew u' e hu' he')
    · rw [Function.update_of_ne hu] at he
      by_cases hu' : u' = t
      · rw [hu', Function.update_self] at he'
        exact absurd he' (hnew u e hu he)
      · rw [Function.update_of_ne hu'] at he'
        exact h.own u u' e he he'

/-- Nothing is written. -/
theorem goto (h : FamilyInv f owner tgt place) (hf : Fits f f tgt (place t) p) :
    FamilyInv f owner tgt (Function.update place t p) :=
  h.moves h.words (.refl _ _ _ _) rfl hf

/-- One access of a call on the stack `i`. -/
theorem call (h : FamilyInv f owner tgt place) {c : Call T} (hc : place t = .call c) (i : ι) :
    ∃ owner' tgt',
      Moved f.heap ((f.mem i).step c).1.heap f.attached ((f.mem i).step c).1.attached owner'
        (Function.update f.newest i ((f.mem i).step c).1.newest) tgt tgt' (ownEntry c)
        ((f.mem i).step c).2 ∧
      ∀ p, (match ((f.mem i).step c).2 with
          | .running c' => p = .call c'
          | .done _ => Fits f (f.setMem i ((f.mem i).step c).1) tgt' (place t) p) →
        FamilyInv (f.setMem i ((f.mem i).step c).1) owner' tgt' (Function.update place t p) := by
  have hok := h.ok t
  rw [hc] at hok
  have hheld : ∀ x, c.holds x = true → f.heap.released x = false := fun x hx =>
    h.held t x (by rw [hc]; exact hx)
  obtain ⟨owner', tgt', -, hmoved⟩ := step_steps (m := f.mem i) (i := i) h.words rfl hok hheld
  refine ⟨owner', tgt', hmoved, fun p hp => ?_⟩
  have hown : (place t).entry = ownEntry c := by
    rw [hc]
    rfl
  refine h.moves hmoved.words (hown ▸ hmoved.ext) hmoved.released ?_
  have hout := hmoved.outcome
  have hfresh := hmoved.own
  cases hstep : ((f.mem i).step c).2 with
  | running c' =>
    rw [hstep] at hp hout hfresh
    cases hp
    exact ⟨hout.1, hout.2, fun e he => hown ▸ hfresh c' e rfl he⟩
  | done res =>
    rw [hstep] at hp
    exact hp

/-- A clean-up of a link. -/
theorem cleans (h : FamilyInv f owner tgt place) {h' : Heap T}
    (hc : Cleans (listView f.attached f.heap.isDeleted tgt) f.heap h')
    (hf : Fits f { f with heap := h' } tgt (place t) p) :
    FamilyInv { f with heap := h' } owner tgt (Function.update place t p) :=
  h.moves (h.words.clean hc) (ext_clean hc).of_none hc.fields.2.1 hf

/-- A destructor cleans up a link. -/
theorem drop_cleans (h : FamilyInv f owner tgt place) {c : NextPtr} (hc : place t = .drop c) :
    Cleans (listView f.attached f.heap.isDeleted tgt) f.heap (c.step f.heap).1 := by
  have hok := h.ok t
  rw [hc] at hok
  obtain ⟨b, hcall⟩ := hok
  exact nextPtr_cleans hcall fun x hx => h.held t x (by rw [hc]; simp [Place.holds, hx])

/-- One access of a destructor. -/
theorem drop (h : FamilyInv f owner tgt place) {c : NextPtr} (hc : place t = .drop c) :
    ∀ p, (match (c.step f.heap).2 with
        | .running c' => p = .drop c'
        | .done _ => p = .none) →
      FamilyInv { f with heap := (c.step f.heap).1 } owner tgt (Function.update place t p) := by
  have hclean := h.drop_cleans hc
  have hok := h.ok t
  rw [hc] at hok
  obtain ⟨b, hcall⟩ := hok
  have hafter := nextPtr_ok h.words.heap hcall
  intro p hp
  refine h.cleans hclean ?_
  cases hout : (c.step f.heap).2 with
  | running c' =>
    rw [hout] at hp hafter
    cases hp
    refine .of_none ⟨b, (ext_clean hclean).later.callOk hafter⟩ (fun x hx => ?_) rfl
    have hx' : c'.holds = some x := by simpa [Place.holds] using hx
    show (c.step f.heap).1.released x = false
    rw [hclean.fields.2.1]
    exact nextPtr_holds hout hx'
  | done q =>
    rw [hout] at hp
    cases hp
    exact .of_none trivial (fun x hx => (by cases hx)) rfl

/-- The release of an entry that nothing refers to. -/
theorem release (h : FamilyInv f owner tgt place) {x : Addr} (hlt : x < f.heap.nextAddr)
    (hun : f.heap.unlinked x = true) (hword : ∀ i, f.newest i ≠ some x)
    (hheld : ∀ t, (place t).holds x = false) :
    FamilyInv { f with heap := f.heap.release x } owner tgt place where
  words := h.words.release hlt hun hword
  ok t := by
    have hext : Ext f.heap { f with heap := f.heap.release x }.heap f.attached
        { f with heap := f.heap.release x }.attached tgt tgt none := ext_release x
    exact (h.ok t).ext hext fun _ _ => nofun
  held t y hy := by
    have hyx : y ≠ x := by
      rintro rfl
      rw [hheld t] at hy
      cases hy
    show Function.update f.heap.released x true y = false
    rw [Function.update_of_ne hyx]
    exact h.held t y hy
  own := h.own

/-- The instance of an attached entry changes. -/
theorem setValue (h : FamilyInv f owner tgt place) {x : Addr} (hx : x ∈ f.attached)
    (o : Option T) :
    FamilyInv { f with heap := { f.heap with value := Function.update f.heap.value x o } } owner tgt
      place where
  words :=
    { heap := ⟨h.words.heap.skip, h.words.heap.dead, h.words.heap.tags, h.words.heap.links,
        h.words.heap.owned, h.words.heap.fresh, h.words.heap.bound, h.words.heap.allocated,
        h.words.heap.trans, h.words.heap.wf⟩
      list := h.words.list
      nodup := h.words.nodup
      roots := h.words.roots
      unattached := h.words.unattached
      leads := h.words.leads }
  ok t := by
    have hext : Ext f.heap { f.heap with value := Function.update f.heap.value x o } f.attached
        f.attached tgt tgt none := by
      refine ⟨.refl _, Nat.le_refl _, fun _ hy => .inl hy, fun _ _ _ _ => rfl, fun e _ he => ?_,
        fun _ hy => hy⟩
      have hne : e ≠ x := fun hc => he (hc ▸ hx)
      exact Function.update_of_ne hne ..
    exact (h.ok t).ext hext fun _ _ => nofun
  held := h.held
  own := h.own

/-- An attached entry is deleted by a thread that then leaves the stacks. -/
theorem delete (h : FamilyInv f owner tgt place) {x : Addr} (hx : x ∈ f.attached) :
    ∃ tgt', FamilyInv { f with heap := (f.heap.deleteSelf x).1 } owner tgt'
      (Function.update place t .none) := by
  have hnone : ∀ {f' : Family T ι} {tgt' : Addr → Option Addr} {p₀ : Place T},
      Fits f f' tgt' p₀ .none :=
    .of_none trivial (fun _ hy => (by cases hy)) rfl
  cases hlive : f.heap.isDeleted x with
  | true =>
    rw [deleteSelf_dead hlive]
    exact ⟨tgt, h.goto hnone⟩
  | false =>
    refine ⟨_, h.moves (h.words.kill hx hlive) (ext_kill hx hlive).of_none ?_ hnone⟩
    show (f.heap.deleteSelf x).1.released = f.heap.released
    rw [deleteSelf_eq hlive]
    rfl

end FamilyInv

/-- The thread stays where it is, leaves the stacks, or begins a call. -/
inductive Follows (p₀ : Place T) : Place T → Prop where
  | same : Follows p₀ p₀
  | none : Follows p₀ .none
  | start (op : Stack.Op T) : Follows p₀ (.call (.start op))

/-- Nothing is written. -/
theorem FamilyInv.follows (h : FamilyInv f owner tgt place) (hp : Follows (place t) p) :
    FamilyInv f owner tgt (Function.update place t p) := by
  refine h.goto ?_
  cases hp with
  | same => exact ⟨h.ok t, h.held t, fun _ he => .inl he⟩
  | none => exact .of_none trivial (fun _ hy => (by cases hy)) rfl
  | start op =>
    refine .of_none (Stack.callInv_start op) (fun x hx => ?_) ?_
    · cases op <;> cases hx
    · cases op <;> rfl

section popAll

variable {h : Heap T} {att : List Addr} {word : ι → Option Addr} {i j : ι}

/-- The owners of the entries after `pop_all`. -/
def moveAll (owner : Addr → ι) (i j : ι) (x : Addr) : ι := if owner x = i then j else owner x

/-- A stack whose word is null has no undeleted entry. -/
theorem entries_nil (hs : Stacks h att owner word tgt) (hj : word j = none) :
    entries h att owner j = [] := by
  rw [← List.head?_eq_none_iff, hs.head_eq, hj]
  rfl

/-- All entries of the stack `i` are moved to the stack `j`, which is empty. -/
theorem stacks_popAll (hs : Stacks h att owner word tgt) (hj : word j = none) (hij : i ≠ j) :
    Stacks h att (moveAll owner i j)
      (Function.update (Function.update word j (word i)) i none) tgt where
  heap := hs.heap
  list k := by
    by_cases hki : k = i
    · subst hki
      rw [Function.update_self]
      have hnil : entries h att (moveAll owner k j) k = [] := by
        refine List.filter_eq_nil_iff.mpr fun x _ => ?_
        unfold moveAll
        split
        · simp [Ne.symm hij]
        · rename_i hx
          simp [hx]
      rw [hnil]
      rfl
    · rw [Function.update_of_ne hki]
      by_cases hkj : k = j
      · subst hkj
        rw [Function.update_self]
        have heq : entries h att (moveAll owner i k) k = entries h att owner i := by
          have hnil := entries_nil hs hj
          refine List.filter_congr fun x hx => ?_
          unfold moveAll
          by_cases hxi : owner x = i
          · simp [hxi]
          · rw [if_neg hxi]
            -- No undeleted entry belonged to the new stack.
            have hnot := List.filter_eq_nil_iff.mp hnil x hx
            simp only [Bool.and_eq_true, decide_eq_true_eq, not_and] at hnot
            cases hdel : h.isDeleted x with
            | true => rfl
            | false =>
              have hxk : owner x ≠ k := hnot (by rw [hdel]; rfl)
              simp [hxi, hxk]
        rw [heq]
        exact hs.list i
      · rw [Function.update_of_ne hkj]
        have heq : entries h att (moveAll owner i j) k = entries h att owner k := by
          refine List.filter_congr fun x _ => ?_
          unfold moveAll
          split
          · rename_i hxi
            simp [hxi, Ne.symm hki, Ne.symm hkj]
          · rfl
        rw [heq]
        exact hs.list k
  nodup := hs.nodup
  roots k x hx := by
    by_cases hki : k = i
    · rw [hki, Function.update_self] at hx
      cases hx
    · rw [Function.update_of_ne hki] at hx
      by_cases hkj : k = j
      · rw [hkj, Function.update_self] at hx
        exact hs.roots i x hx
      · rw [Function.update_of_ne hkj] at hx
        exact hs.roots k x hx
  unattached := hs.unattached
  leads := hs.leads

/-- `pop_all` on the stack `i`, by the thread `t`. -/
theorem FamilyInv.popAll (h : FamilyInv f owner tgt place) (hj : f.newest j = none) (hij : i ≠ j)
    (hf : Fits f (f.popAll i j) tgt (place t) p) :
    FamilyInv (f.popAll i j) (moveAll owner i j) tgt (Function.update place t p) :=
  h.moves (stacks_popAll h.words hj hij) (.refl _ _ _ _) rfl hf

end popAll

end Sdd.Proofs.Stacks
