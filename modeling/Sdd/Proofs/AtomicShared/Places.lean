import Sdd.Proofs.RefCounted

/-!
# `Sdd.Proofs.AtomicShared.Places`: the way of a thread through a call

`try_add_ref` is the only call that accesses the counter of an instance without a handle to it.
`Moved` says how a thread gets there: from a word that `get_shared` has loaded, or with a `Ptr`.
-/

set_option autoImplicit false

namespace Sdd.Proofs.AtomicShared

open Sdd.RefCounted
open Sdd.RefCounted.World

variable {w w' : World} {t : Tid} {i : InstId} {bits : Nat} {act : Act}

/-- The instance that `try_add_ref` is called for. -/
def tried : Pc → Option InstId
  | .tryAddRefLoad i _ | .tryAddRef i _ _ => some i
  | _ => none

/-- The thread is in `get_shared`, of an `AtomicShared` or of a `Ptr`. -/
def trying : Pc → Bool
  | .getShared _ | .tryAddRefLoad _ _ | .tryAddRef _ _ _ => true
  | _ => false

/-- The thread links a garbage list anew. -/
def relinks : Pc → Bool
  | .setNextPtr _ _ false => true
  | _ => false

/-- The call that begins is `get_shared`. -/
def begins : Act → Bool
  | .getShared _ | .ptrGetShared _ => true
  | _ => false

/-- How a step of the thread `t` changes the places of the threads, and what was passed. -/
structure Moved (w : World) (t : Tid) (act : Act) (w' : World) : Prop where
  others : ∀ r, r ≠ t → w'.pc r = w.pc r
  passed : w'.passed = w.passed ∨ ∃ i, w.pc t = .link i ∧ w'.passed = i :: w.passed
  tried : ∀ i ∈ tried (w'.pc t), i ∈ tried (w.pc t) ∨ act = .ptrGetShared i ∨
    trying (w.pc t) = true ∧ ∃ cell p, w.word cell = some p ∧ p.addr = some i
  trying : trying (w'.pc t) = true → trying (w.pc t) = true ∨ begins act = true
  relinks : relinks (w'.pc t) = true → relinks (w.pc t) = true ∨ ∃ i next, act = .setNextPtr i next

/-- The thread stays where it is. -/
theorem Moved.stay (hpc : w'.pc = w.pc) (hpassed : w'.passed = w.passed) : Moved w t act w' where
  others _ _ := by rw [hpc]
  passed := .inl hpassed
  tried i hi := .inl (by rwa [hpc] at hi)
  trying h := .inl (by rwa [hpc] at h)
  relinks h := .inl (by rwa [hpc] at h)

/-- The thread goes to a place that is not in `try_add_ref`. -/
theorem Moved.leave {q : Pc} (hpc : w'.pc = Function.update w.pc t q)
    (hpassed : w'.passed = w.passed) (hq : AtomicShared.trying q = false)
    (hr : AtomicShared.relinks q = false) : Moved w t act w' where
  others _ hne := by rw [hpc, Function.update_of_ne hne]
  passed := .inl hpassed
  tried i hi := by
    rw [hpc, Function.update_self] at hi
    cases q with
    | tryAddRefLoad | tryAddRef => cases hq
    | _ => cases hi
  trying h := by
    rw [hpc, Function.update_self, hq] at h
    cases h
  relinks h := by
    rw [hpc, Function.update_self, hr] at h
    cases h

/-- The thread goes on in `get_shared`. -/
theorem Moved.go {q : Pc} (hpc : w'.pc = Function.update w.pc t q)
    (hpassed : w'.passed = w.passed) (hr : AtomicShared.relinks q = false)
    (htrying : AtomicShared.trying (w.pc t) = true ∨ begins act = true)
    (htried : ∀ i ∈ AtomicShared.tried q, i ∈ AtomicShared.tried (w.pc t) ∨
      act = .ptrGetShared i ∨
      AtomicShared.trying (w.pc t) = true ∧ ∃ cell p, w.word cell = some p ∧ p.addr = some i) :
    Moved w t act w' where
  others _ hne := by rw [hpc, Function.update_of_ne hne]
  passed := .inl hpassed
  tried i hi := htried i (by rwa [hpc, Function.update_self] at hi)
  trying _ := htrying
  relinks h := by
    rw [hpc, Function.update_self, hr] at h
    cases h

/-- `try_add_ref` returns. -/
theorem moved_tryAddRefDone {x : World} {cell : Option CellId} {ok : Bool}
    (hpc : x.pc = w.pc) (hpassed : x.passed = w.passed) (htrying : trying (w.pc t) = true) :
    Moved w t act (x.tryAddRefDone t i cell ok) := by
  cases ok with
  | true =>
    exact .leave (q := .idle) (by simp [tryAddRefDone, hpc]) (by simp [tryAddRefDone, hpassed])
      rfl rfl
  | false =>
    cases cell with
    | none =>
      exact .leave (q := .idle) (by simp [tryAddRefDone, hpc]) (by simp [tryAddRefDone, hpassed])
        rfl rfl
    | some l =>
      exact .go (q := .getShared l) (by simp [tryAddRefDone, hpc]) (by simp [tryAddRefDone, hpassed])
        rfl (.inl htrying) fun j hj => by cases hj

/-- The closure of `try_add_ref`. -/
theorem moved_tryAddRefLoaded {cell : Option CellId} {r : Nat} (htried : i ∈ tried (w.pc t))
    (htrying : trying (w.pc t) = true) : Moved w t act (w.tryAddRefLoaded t i cell r) := by
  unfold tryAddRefLoaded
  split
  · refine .go (q := .tryAddRef i cell r) rfl rfl rfl (.inl htrying) fun j hj => ?_
    cases hj
    exact .inl htried
  · exact moved_tryAddRefDone rfl rfl htrying

/-- The next access of a call. -/
theorem moved_proceed {spurious : Bool} (h : w.proceed bits t spurious = some w') :
    Moved w t (.proceed spurious) w' := by
  unfold RefCounted.World.proceed at h
  cases hpc : w.pc t with
  | idle | pass i =>
    rw [hpc] at h
    cases h
  | addRefLoad i | dropRefLoad i =>
    rw [hpc] at h
    cases h
    exact .leave rfl rfl rfl rfl
  | addRef i current =>
    simp only [hpc] at h
    split at h <;> cases h
    · exact .leave (q := .idle) (by simp) (by simp) rfl rfl
    · exact .leave rfl rfl rfl rfl
  | dropRef i current =>
    simp only [hpc] at h
    split at h <;> cases h
    · refine .leave (q := if (current == 1) = true then .pass i else .idle) (by simp) (by simp) ?_ ?_
      · split <;> rfl
      · split <;> rfl
    · exact .leave rfl rfl rfl rfl
  | getShared cell =>
    simp only [hpc] at h
    have htrying : trying (w.pc t) = true := by rw [hpc]; rfl
    cases hw : w.word cell with
    | none =>
      rw [hw] at h
      cases h
    | some p =>
      rw [hw] at h
      cases hp : p.addr with
      | none =>
        simp only [hp] at h
        cases h
        exact .leave rfl rfl rfl rfl
      | some i =>
        simp only [hp] at h
        cases h
        refine .go rfl rfl rfl (.inl htrying) fun j hj => ?_
        cases hj
        exact .inr (.inr ⟨htrying, cell, p, hw, hp⟩)
  | tryAddRefLoad i cell =>
    rw [hpc] at h
    cases h
    exact moved_tryAddRefLoaded (by rw [hpc]; rfl) (by rw [hpc]; rfl)
  | tryAddRef i cell r =>
    simp only [hpc] at h
    split at h <;> cases h
    · exact moved_tryAddRefDone rfl rfl (by rw [hpc]; rfl)
    · exact moved_tryAddRefLoaded (by rw [hpc]; rfl) (by rw [hpc]; rfl)
  | setNextPtr i next collect =>
    rw [hpc] at h
    cases h
    cases collect <;> exact .leave rfl rfl rfl rfl
  | link i =>
    rw [hpc] at h
    cases h
    have hleave : Moved w t (.proceed spurious) (w.goto t .idle) :=
      .leave (q := .idle) rfl rfl rfl rfl
    exact { hleave with passed := .inr ⟨i, hpc, rfl⟩ }

/-- A call begins. -/
theorem moved_call (h : w.call t act = some w') : Moved w t act w' := by
  cases act with
  | proceed spurious | collect next => cases h
  | newShared | newUnique | null =>
    cases h
    exact .stay rfl rfl
  | «from» i =>
    obtain ⟨-, h⟩ := Option.ite_none_right_eq_some.mp h
    cases h
    exact .stay rfl rfl
  | clone i | drop i | release i =>
    obtain ⟨-, h⟩ := Option.ite_none_right_eq_some.mp h
    cases h
    exact .leave rfl rfl rfl rfl
  | dropOwned i =>
    obtain ⟨-, h⟩ := Option.ite_none_right_eq_some.mp h
    cases h
    exact .leave (q := .pass i) rfl rfl rfl rfl
  | getShared cell =>
    obtain ⟨p, -, rfl⟩ := Option.map_eq_some_iff.mp h
    exact .go rfl rfl rfl (.inr rfl) fun j hj => by cases hj
  | ptrGetShared i =>
    obtain ⟨-, h⟩ := Option.ite_none_right_eq_some.mp h
    cases h
    refine .go rfl rfl rfl (.inr rfl) fun j hj => ?_
    cases hj
    exact .inr (.inl rfl)
  | swap cell new tag =>
    obtain ⟨-, h⟩ := Option.ite_none_right_eq_some.mp h
    obtain ⟨prev, -, rfl⟩ := Option.map_eq_some_iff.mp h
    exact .stay (by simp [exchange, setCell]) (by simp [exchange, setCell])
  | compareExchange cell current new tag spurious =>
    obtain ⟨-, h⟩ := Option.ite_none_right_eq_some.mp h
    obtain ⟨prev, -, rfl⟩ := Option.map_eq_some_iff.mp h
    split
    · exact .stay (by simp [exchange, setCell]) (by simp [exchange, setCell])
    · exact .stay rfl rfl
  | updateTag cell tag =>
    obtain ⟨p, -, rfl⟩ := Option.map_eq_some_iff.mp h
    exact .stay rfl rfl
  | intoShared cell =>
    obtain ⟨p, -, rfl⟩ := Option.map_eq_some_iff.mp h
    exact .leave (q := .idle) (by simp [setCell]) (by simp [setCell]) rfl rfl
  | dropAtomic cell =>
    obtain ⟨p, -, rfl⟩ := Option.map_eq_some_iff.mp h
    refine .leave (q := p.addr.elim .idle .dropRefLoad) (by simp [setCell]) (by simp [setCell]) ?_ ?_
    · cases p.addr <;> rfl
    · cases p.addr <;> rfl
  | send i receiver =>
    obtain ⟨-, h⟩ := Option.ite_none_right_eq_some.mp h
    cases h
    exact .stay (by simp) (by simp)
  | setNextPtr i next =>
    obtain ⟨-, h⟩ := Option.ite_none_right_eq_some.mp h
    cases h
    exact
      { others := fun r hr => Function.update_of_ne hr _ _
        passed := .inl rfl
        tried := fun j hj => by
          rw [goto_pc, Function.update_self] at hj
          cases hj
        trying := fun hq => by
          rw [goto_pc, Function.update_self] at hq
          cases hq
        relinks := fun _ => .inr ⟨i, next, rfl⟩ }

/-- Every action of a thread. -/
theorem moved_of_step (h : w.step bits ⟨t, act⟩ = some w') : Moved w t act w' := by
  unfold World.step at h
  dsimp only at h
  split at h
  · exact moved_proceed h
  · cases h
    exact .leave rfl rfl rfl rfl
  · exact moved_call h
  · cases h

/-- The last access of `pass_to_collector`. -/
theorem step_link (hpc : w.pc t = .link i) (h : w.step bits ⟨t, act⟩ = some w') :
    (∃ spurious, act = .proceed spurious) ∧
      w' = World.goto { w with passed := i :: w.passed } t .idle := by
  cases act with
  | proceed spurious =>
    unfold World.step World.proceed at h
    simp only [hpc, Option.some.injEq] at h
    exact ⟨⟨spurious, rfl⟩, h.symm⟩
  | _ =>
    unfold World.step at h
    simp only [hpc] at h
    cases h

end Sdd.Proofs.AtomicShared
