import Sdd.Proofs.Bag.Steps
import Sdd.Proofs.Stacks.Returns

/-!
# `Sdd.Proofs.Bag.Runs`: the runs of a bag

`Stepped` lists what an action of a run can be. The invariant holds in every state of a run
(`inv_of_run`).
-/

set_option autoImplicit false

namespace Sdd.Proofs.Bag

open Sdd.Lib
open Sdd.Lib.Linearize (Event)
open Sdd.Bag (Mem Call Pc Op Res World Action)
open Sdd.Proofs.Stacks (Place FamilyInv Follows Fits)

variable {bits n len : Nat} {T : Type} {w w' : World bits T n} {t : Fin n}

/-- What an action does. -/
inductive Stepped (len : Nat) (w : World bits T n) : Action T n → World bits T n → Prop where
  | invoke (t : Fin n) (op : Op T) (hpc : w.pc t = .idle) :
      Stepped len w (.thread t (.invoke op))
        ⟨w.mem, Function.update w.pc t (.call (.start op)), w.history ++ [Event.invoke t op]⟩
  | call (t : Fin n) (c : Call bits T) (fails : Bool) (hpc : w.pc t = .call c) :
      Stepped len w (.thread t (.proceed fails)) (w.called t c.op (c.step len fails t w.mem))
  | clean (t : Fin n) (c : NextPtr) (fails : Bool) (p : Pc bits T) (hpc : w.pc t = .drop c)
      (hp : (∃ c', (c.step w.mem.family.heap).2 = .running c' ∧ p = .drop c') ∨
        ∃ q, (c.step w.mem.family.heap).2 = .done q ∧ p = .idle) :
      Stepped len w (.thread t (.proceed fails))
        ⟨w.mem.setHeap (c.step w.mem.family.heap).1, Function.update w.pc t p, w.history⟩
  | drop (t : Fin n) (x y : Addr) (hpc : w.pc t = .idle)
      (hy : (w.mem.family.heap.link x).addr = some y) :
      Stepped len w (.thread t (.drop x))
        ⟨w.mem, Function.update w.pc t (.drop (.start y)), w.history⟩
  | release (x : Addr) (hx : w.unowned x = true) :
      Stepped len w (.release x) ⟨w.mem.setHeap (w.mem.family.heap.release x), w.pc, w.history⟩

theorem stepped {a : Action T n} (hw : w.step len a = some w') : Stepped len w a w' := by
  unfold World.step at hw
  split at hw
  · rename_i t op
    split at hw
    · rename_i hpc
      cases hw
      exact .invoke t op hpc
    · cases hw
  · rename_i t fails
    unfold World.proceed at hw
    split at hw
    · cases hw
    · rename_i c hpc
      cases hw
      exact .call t c fails hpc
    · rename_i c hpc
      simp only at hw
      split at hw
      · rename_i c' hout
        cases hw
        exact .clean t c fails (.drop c') hpc (.inl ⟨c', hout, rfl⟩)
      · rename_i q hout
        cases hw
        exact .clean t c fails .idle hpc (.inr ⟨q, hout, rfl⟩)
  · rename_i t x
    split at hw
    · rename_i y hpc hrel hy
      cases hw
      exact .drop t x y hpc hy
    · cases hw
  · rename_i x
    split at hw
    · rename_i hx
      cases hw
      exact .release x hx
    · cases hw

theorem placeOf_holds (p : Pc bits T) (x : Addr) : (placeOf p).holds x = p.holds x := by
  cases p with
  | idle => rfl
  | drop c => rfl
  | call c =>
    cases c with
    | allStorage y c => exact Bool.true_and _
    | _ => rfl

/-- Nothing refers to an entry that can be released. -/
theorem unowned_iff {x : Addr} (hx : w.unowned x = true) :
    x < w.mem.family.heap.nextAddr ∧ w.mem.family.heap.unlinked x = true ∧
      (∀ i, w.mem.family.newest i ≠ some x) ∧ ∀ t, (w.pc t).holds x = false := by
  simp only [World.unowned, Bool.and_eq_true, decide_eq_true_eq, bne_iff_ne, ne_eq,
    List.all_eq_true, List.mem_finRange, forall_const, Bool.not_eq_true'] at hx
  obtain ⟨⟨⟨⟨hlt, hnone⟩, hsome⟩, hun⟩, hheld⟩ := hx
  refine ⟨hlt, hun, fun i => ?_, hheld⟩
  cases i with
  | none => exact hnone
  | some u => exact hsome u

/-- The thread goes on after an access. -/
theorem called_eq (op : Op T) (r : Mem bits T n × Outcome (Call bits T) (Res T)) :
    (w.called t op r).mem = r.1 ∧ (w.called t op r).pc = Function.update w.pc t (next r.2) := by
  obtain ⟨m, out⟩ := r
  cases out with
  | running c => exact ⟨rfl, rfl⟩
  | done res => exact ⟨rfl, rfl⟩

/-- Every action keeps the invariant. -/
theorem inv_step (hlen : ArrayLen bits len) (h : Inv len w.mem w.pc) {a : Action T n}
    (hw : w.step len a = some w') : Inv len w'.mem w'.pc := by
  obtain ⟨owner, tgt, hf⟩ := h.family
  cases stepped hw with
  | invoke t op hpc =>
    have hplace : Follows (placeOf (w.pc t)) (placeOf (.call (.start op) : Pc bits T)) := by
      cases op with
      | push v => exact .none
      | tryPush v => exact .none
      | pop => exact .start _
      | popAll => exact .none
    refine h.frame_step ⟨owner, tgt, hf.follows hplace⟩ rfl rfl rfl (fun l => ⟨?_, ?_⟩)
      (fun c hc => ?_) ?_ ?_ (fun _ _ => rfl) fun _ => ?_
    · rw [hpc]
      rfl
    · cases op with
      | push v => exact claims_load rfl
      | tryPush v => exact claims_load rfl
      | pop => rfl
      | popAll => rfl
    · cases hc
      cases op with
      | push v => exact rfl
      | tryPush v => exact rfl
      | pop => exact rfl
      | popAll => exact trivial
    · rw [hpc]
      rfl
    · rw [hpc]
      rfl
    · exact h.popped t (by rw [hpc]; rfl)
  | call t c fails hpc =>
    obtain ⟨hmem, hpc'⟩ := called_eq (w := w) (t := t) c.op (c.step len fails t w.mem)
    rw [hmem, hpc']
    exact (call_after hlen h hpc fails).inv
  | clean t c fails p hpc hp =>
    have hplace : (placeOf ∘ w.pc) t = .drop c := by
      rw [Function.comp_apply, hpc]
      rfl
    have hclean := hf.drop_cleans hplace
    -- The destructor goes on, or the thread is idle again.
    have hafter : FamilyInv { w.mem.family with heap := (c.step w.mem.family.heap).1 } owner tgt
        (Function.update (placeOf ∘ w.pc) t (placeOf p)) ∧ ∀ l, claimsOf l p = unclaimed := by
      rcases hp with ⟨c', hout, rfl⟩ | ⟨q, hout, rfl⟩
      · exact ⟨hf.drop hplace _ (by rw [hout]; rfl), fun _ => rfl⟩
      · exact ⟨hf.drop hplace _ (by rw [hout]; rfl), fun _ => rfl⟩
    refine h.frame_step ⟨owner, tgt, hafter.1⟩ rfl hclean.fields.1 hclean.isDeleted_eq
      (fun l => ⟨?_, hafter.2 l⟩) (fun c hc => ?_) ?_ ?_ (fun _ _ => rfl) fun _ => ?_
    · rw [hpc]
      rfl
    · rcases hp with ⟨c', -, rfl⟩ | ⟨q, -, rfl⟩
      · cases hc
      · cases hc
    · rw [hpc]
      rfl
    · rw [hpc]
      rfl
    · exact h.popped t (by rw [hpc]; rfl)
  | drop t x y hpc hy =>
    have hatt : y ∈ w.mem.family.attached := hf.words.leads x y hy
    refine h.frame_step ⟨owner, tgt, hf.goto (.of_none ?_ (fun z hz => ?_) rfl)⟩ rfl rfl rfl
      (fun l => ⟨?_, rfl⟩) (fun c hc => ?_) ?_ ?_ (fun _ _ => rfl) fun _ => ?_
    · exact ⟨y, callOk_start hatt False.elim⟩
    · simp [placeOf, Place.holds, NextPtr.start, NextPtr.holds] at hz
    · rw [hpc]
      rfl
    · cases hc
    · rw [hpc]
      rfl
    · rw [hpc]
      rfl
    · exact h.popped t (by rw [hpc]; rfl)
  | release x hx =>
    obtain ⟨hlt, hun, hword, hheld⟩ := unowned_iff hx
    exact h.release hlt hun hword fun u => (placeOf_holds _ _).trans (hheld u)

/-- The first state of a bag. -/
theorem inv_init :
    Inv len (World.init : World bits T n).mem (World.init : World bits T n).pc where
  family := ⟨fun _ => none, some, Stacks.stacks_empty _, fun _ => trivial,
    fun _ _ hx => (by cases hx), fun _ _ _ he => (by cases he)⟩
  primary := by
    have hzero : ∀ i, (0 : BitVec bits).getLsbD i = false := fun _ => BitVec.getLsbD_zero
    exact storageInv_unclaimed (fun i _ => ⟨hzero i, (hzero _).symm⟩) fun j _ => hzero j
  storages _ hx := by cases hx
  calls _ _ hc := by cases hc
  dead _ hx := by cases hx
  live _ hx := by cases hx
  popped _ _ := rfl

/-- The invariant holds in every state of a run. -/
theorem inv_of_run (hlen : ArrayLen bits len) {P : World bits T n → Action T n → Prop}
    (h : Run (World.step len) P World.init w) : Inv len w.mem w.pc :=
  h.invariant (fun w => Inv len w.mem w.pc) inv_init fun _ _ _ hi _ hs => inv_step hlen hi hs

end Sdd.Proofs.Bag
