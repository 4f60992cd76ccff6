import Sdd.Lib.Run
import Sdd.Proofs.Stacks.Alone

/-!
# `Sdd.Proofs.Stacks.Returns`: the methods of a stack return

`Inv` is the invariant of every run of threads that call the methods of stacks, `pop_all`
included. The main result is `returns`: in every state of a run, a method that a thread begins
and runs alone returns.
-/

set_option autoImplicit false

namespace Sdd.Proofs.Stacks

open Sdd.Lib
open Sdd.Stack (Call)
open Sdd.Stacks (Family World Action Op Res Pc)
open Sdd.Proofs.Stack (Stacks callInv_start)

variable {T : Type} {n : Nat} {w w' : World T n} {t : Fin n}

/-- What a thread does with the stacks. -/
def placeOf : Pc T → Place T
  | .idle | .popAll _ => .none
  | .call _ c => .call c
  | .drop c => .drop c

/-- The stack that a thread works on. -/
def stackOf : Pc T → Option Nat
  | .call i _ | .popAll i => some i
  | .idle | .drop _ => none

structure Inv (w : World T n) : Prop where
  family : ∃ owner tgt, FamilyInv w.family owner tgt (placeOf ∘ w.pc)
  /-- A stack that does not exist yet is empty. -/
  fresh : ∀ i, w.count ≤ i → w.family.newest i = none
  exist : ∀ t i, stackOf (w.pc t) = some i → i < w.count

theorem placeOf_holds (pc : Pc T) (x : Addr) : (placeOf pc).holds x = pc.holds x := by
  cases pc <;> rfl

/-- A thread goes on; more stacks can exist then. -/
theorem Inv.goto (h : Inv w) {f : Family T Nat} {count : Nat} {pc : Pc T}
    {hist : List (Linearize.Event (Fin n) (Op T) Res)}
    (hf : ∃ owner tgt, FamilyInv f owner tgt (Function.update (placeOf ∘ w.pc) t (placeOf pc)))
    (hfresh : ∀ i, count ≤ i → f.newest i = none) (hcount : w.count ≤ count)
    (hpc : ∀ i, stackOf pc = some i → i < count) :
    Inv (World.goto ⟨f, count, w.pc, hist⟩ t pc) where
  family := by
    show ∃ owner tgt, FamilyInv f owner tgt (placeOf ∘ Function.update w.pc t pc)
    rw [Function.comp_update]
    exact hf
  fresh := hfresh
  exist u i hu := by
    change stackOf (Function.update w.pc t pc u) = some i at hu
    by_cases hut : u = t
    · rw [hut, Function.update_self] at hu
      exact hpc i hu
    · rw [Function.update_of_ne hut] at hu
      exact Nat.lt_of_lt_of_le (h.exist u i hu) hcount

/-- One access of a call on the stack `i`. -/
theorem call_inv (h : Inv w) {i : Nat} {c : Call T} (hpc : w.pc t = .call i c) :
    Inv (w.called t i c.op ((w.family.mem i).step c)) := by
  obtain ⟨owner, tgt, hf⟩ := h.family
  have hi : i < w.count := h.exist t i (by rw [hpc]; rfl)
  have hplace : (placeOf ∘ w.pc) t = .call c := by
    show placeOf (w.pc t) = _
    rw [hpc]
    rfl
  obtain ⟨owner', tgt', -, hgo⟩ := hf.call hplace i
  have hfresh : ∀ j, w.count ≤ j →
      (w.family.setMem i ((w.family.mem i).step c).1).newest j = none := by
    intro j hj
    have hji : j ≠ i := by omega
    show Function.update w.family.newest i _ j = none
    rw [Function.update_of_ne hji]
    exact h.fresh j hj
  generalize (w.family.mem i).step c = r at hgo hfresh
  obtain ⟨m', out⟩ := r
  cases out with
  | running c' =>
    refine h.goto ⟨owner', tgt', hgo _ rfl⟩ hfresh (Nat.le_refl _) fun j hj => ?_
    cases hj
    exact hi
  | done res =>
    refine h.goto ⟨owner', tgt', hgo _ ?_⟩ hfresh (Nat.le_refl _) nofun
    exact .of_none trivial (fun x hx => (by cases hx)) rfl

/-- `pop_all` on the stack `i`. -/
theorem popAll_inv (h : Inv w) {i : Nat} (hpc : w.pc t = .popAll i)
    {hist : List (Linearize.Event (Fin n) (Op T) Res)} :
    Inv (World.goto ⟨w.family.popAll i w.count, w.count + 1, w.pc, hist⟩ t .idle) := by
  obtain ⟨owner, tgt, hf⟩ := h.family
  have hi : i < w.count := h.exist t i (by rw [hpc]; rfl)
  refine h.goto ⟨_, tgt, hf.popAll (h.fresh _ (Nat.le_refl _)) (Nat.ne_of_lt hi) ?_⟩
    (fun j hj => ?_) (Nat.le_succ _) nofun
  · exact .of_none trivial (fun x hx => (by cases hx)) rfl
  · have hji : j ≠ i := by omega
    have hjc : j ≠ w.count := by omega
    show Function.update (Function.update w.family.newest w.count _) i none j = none
    rw [Function.update_of_ne hji, Function.update_of_ne hjc]
    exact h.fresh j (Nat.le_of_succ_le hj)

/-- An access of a destructor. -/
theorem drop_inv (h : Inv w) {c : NextPtr} (hpc : w.pc t = .drop c)
    (hw : w.proceed t = some w') : Inv w' := by
  obtain ⟨owner, tgt, hf⟩ := h.family
  have hplace : (placeOf ∘ w.pc) t = .drop c := by
    show placeOf (w.pc t) = _
    rw [hpc]
    rfl
  have hgo := hf.drop hplace
  unfold World.proceed at hw
  rw [hpc] at hw
  simp only at hw
  split at hw
  · rename_i c' hout
    cases hw
    rw [hout] at hgo
    exact h.goto ⟨owner, tgt, hgo _ rfl⟩ h.fresh (Nat.le_refl _) nofun
  · rename_i q hout
    cases hw
    rw [hout] at hgo
    exact h.goto ⟨owner, tgt, hgo _ rfl⟩ h.fresh (Nat.le_refl _) nofun

/-- A step of a thread in a call. -/
theorem proceed_inv (h : Inv w) (hw : w.proceed t = some w') : Inv w' := by
  cases hpc : w.pc t with
  | drop c => exact drop_inv h hpc hw
  | idle =>
    unfold World.proceed at hw
    rw [hpc] at hw
    cases hw
  | call i c =>
    unfold World.proceed at hw
    rw [hpc] at hw
    cases hw
    exact call_inv h hpc
  | popAll i =>
    unfold World.proceed at hw
    rw [hpc] at hw
    cases hw
    exact popAll_inv h hpc

/-- What the release of an entry needs. -/
theorem unowned_iff {x : Addr} (h : Inv w) (hx : w.unowned x = true) :
    x < w.family.heap.nextAddr ∧ w.family.heap.unlinked x = true ∧
      (∀ i, w.family.newest i ≠ some x) ∧ ∀ t, (w.pc t).holds x = false := by
  unfold World.unowned at hx
  simp only [Bool.and_eq_true, decide_eq_true_eq] at hx
  obtain ⟨⟨⟨hlt, hword⟩, hun⟩, hheld⟩ := hx
  refine ⟨hlt, hun, fun i hi => ?_, fun u => ?_⟩
  · by_cases hic : i < w.count
    · have hne := List.all_eq_true.mp hword i (List.mem_range.mpr hic)
      rw [hi] at hne
      simp at hne
    · rw [h.fresh i (Nat.le_of_not_lt hic)] at hi
      cases hi
  · simpa using List.all_eq_true.mp hheld u (List.mem_finRange u)

/-- The release of an entry. -/
theorem release_inv (h : Inv w) {x : Addr} (hx : w.unowned x = true) :
    Inv { w with family := { w.family with heap := w.family.heap.release x } } := by
  obtain ⟨owner, tgt, hf⟩ := h.family
  obtain ⟨hlt, hun, hword, hheld⟩ := unowned_iff h hx
  refine ⟨⟨owner, tgt, hf.release hlt hun hword fun u => ?_⟩, h.fresh, h.exist⟩
  exact (placeOf_holds _ _).trans (hheld u)

/-- Every action keeps the invariant. -/
theorem inv_step (h : Inv w) {a : Action T n} (hw : w.step a = some w') : Inv w' := by
  obtain ⟨owner, tgt, hf⟩ := h.family
  unfold World.step at hw
  split at hw
  · cases hw
    refine ⟨⟨owner, tgt, hf⟩, fun i hi => h.fresh i (Nat.le_of_succ_le hi), fun u i hu => ?_⟩
    exact Nat.lt_succ_of_lt (h.exist u i hu)
  · rename_i t op
    split at hw
    · rename_i pc hidle hentry
      cases hw
      have hnone : (placeOf pc).entry = none ∧ PlaceOk w.family.heap w.family.attached tgt
          (placeOf pc) ∧ (∀ x, (placeOf pc).holds x = false) ∧
          ∀ i, stackOf pc = some i → i < w.count := by
        unfold World.entry at hentry
        split at hentry
        · split at hentry
          · rename_i i op hi
            cases hentry
            refine ⟨?_, callInv_start op, fun x => ?_, fun j hj => ?_⟩
            · cases op <;> rfl
            · cases op <;> rfl
            · cases hj
              exact hi
          · cases hentry
        · split at hentry
          · rename_i i hi
            cases hentry
            refine ⟨rfl, trivial, fun _ => rfl, fun j hj => ?_⟩
            cases hj
            exact hi
          · cases hentry
      obtain ⟨hown, hok, hheld, hstack⟩ := hnone
      refine h.goto ⟨owner, tgt, hf.goto (.of_none hok (fun x hx => ?_) hown)⟩ h.fresh
        (Nat.le_refl _) hstack
      rw [hheld x] at hx
      cases hx
    · cases hw
  · exact proceed_inv h hw
  · rename_i t x
    split at hw
    · rename_i y hidle hrel hy
      cases hw
      have hatt : y ∈ w.family.attached := hf.words.leads x y hy
      refine h.goto ⟨owner, tgt, hf.goto (.of_none ?_ (fun z hz => ?_) rfl)⟩ h.fresh
        (Nat.le_refl _) nofun
      · exact ⟨y, callOk_start hatt False.elim⟩
      · simp [placeOf, Place.holds, NextPtr.start, NextPtr.holds] at hz
    · cases hw
  · split at hw
    · rename_i hx
      cases hw
      exact release_inv h hx
    · cases hw

/-- The first state of a family of stacks. -/
theorem stacks_empty {ι : Type} [DecidableEq ι] (owner : Addr → ι) :
    Stacks (Family.empty : Family T ι).heap (Family.empty : Family T ι).attached owner
      (Family.empty : Family T ι).newest some where
  heap :=
    { skip := ⟨fun _ _ => rfl, fun _ hx => by cases hx⟩
      dead := rfl
      tags := fun _ => nofun
      links := fun _ _ hx => by cases hx
      owned := fun _ _ _ hy => by cases hy
      fresh := fun _ _ => rfl
      bound := fun _ hx => by cases hx
      allocated := fun _ hx => by cases hx
      trans := fun _ _ _ => before_trans
      wf := before_wf _ _ _ }
  list := fun _ => rfl
  nodup := .nil
  roots := fun _ _ hx => by cases hx
  unattached := fun _ _ => rfl
  leads := fun _ _ hy => by cases hy

theorem inv_init : Inv (World.init : World T n) where
  family := ⟨fun _ => 0, some, stacks_empty _, fun _ => trivial, fun _ _ hx => (by cases hx),
    fun _ _ _ he => (by cases he)⟩
  fresh _ _ := rfl
  exist _ _ hi := by cases hi

/-- The invariant holds in every run. -/
theorem inv_of_run {P : World T n → Action T n → Prop} (h : Run World.step P World.init w) :
    Inv w :=
  h.invariant Inv inv_init fun _ _ _ hi _ hs => inv_step hi hs

/-- In every state of every run, a method that a thread begins and runs alone returns. -/
theorem returns (h : Inv w) (t : Fin n) (op : Op T) : w.Returns t op := by
  intro w' hw
  have hinv := inv_step h hw
  unfold World.step at hw
  simp only at hw
  split at hw
  · rename_i pc hidle hentry
    cases hw
    unfold World.entry at hentry
    split at hentry
    · split at hentry
      · rename_i i op hi
        cases hentry
        obtain ⟨owner, tgt, hf⟩ := hinv.family
        refine stackCall_ends World.family i _
          (fun w c => Inv w ∧ w.pc t = .call i c) (fun w w' c hat he => ?_) (fun w c hat => ?_)
          ⟨hinv, Function.update_self ..⟩ (.start hf.words op)
        · obtain ⟨hinv, hpc⟩ := hat
          obtain ⟨x, hx⟩ := he
          unfold World.step at hx
          simp only at hx
          split at hx
          · rename_i hun
            cases hx
            obtain ⟨hlt, hun', hword, hheld⟩ := unowned_iff hinv hun
            refine ⟨⟨release_inv hinv hun, hpc⟩, x, rfl, hlt, hun', hword, ?_⟩
            have := hheld t
            rw [hpc] at this
            exact this
          · cases hx
        · obtain ⟨hinv, hpc⟩ := hat
          have hw : w.proceed t = some (w.called t i c.op ((w.family.mem i).step c)) := by
            unfold World.proceed
            rw [hpc]
          refine ⟨_, hw, fun c' hc' => ?_, fun res hres _ _ => .done ?_⟩
          · have hinv' := proceed_inv hinv hw
            generalize (w.family.mem i).step c = r at hc' hinv'
            obtain ⟨m', out⟩ := r
            cases hc'
            exact ⟨⟨hinv', Function.update_self ..⟩, rfl⟩
          · generalize (w.family.mem i).step c = r at hres
            obtain ⟨m', out⟩ := r
            cases hres
            exact Function.update_self ..
      · cases hentry
    · split at hentry
      · rename_i i hi
        cases hentry
        refine Ends.of_step (fun w => Inv w ∧ w.pc t = .popAll i) (fun w w' hat he => ?_)
          (fun w hat => ?_) ⟨hinv, Function.update_self ..⟩
        · obtain ⟨hinv, hpc⟩ := hat
          obtain ⟨x, hx⟩ := he
          unfold World.step at hx
          simp only at hx
          split at hx
          · rename_i hun
            cases hx
            exact ⟨release_inv hinv hun, hpc⟩
          · cases hx
        · unfold World.proceed
          rw [hat.2]
          exact ⟨_, rfl, .done (Function.update_self ..)⟩
      · cases hentry
  · cases hw

end Sdd.Proofs.Stacks
