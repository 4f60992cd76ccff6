import Sdd.Proofs.Bag.Alone

/-!
# `Sdd.Proofs.Bag.Tidy`: calls that clean up

The calls of `len`, `is_empty` and of the destructors of a bag look at `newest` of a stack, or go
on to the next entry. On the way they clean up links and `newest`, which changes neither the
storages nor which entries are deleted (`Tidied`). `look_ends` and `next_ends` are about such
parts of a call that runs alone; the stacks are in order afterwards.
-/

set_option autoImplicit false

namespace Sdd.Proofs.Bag

open Sdd.Lib
open Sdd.Bag (Mem)
open Sdd.Proofs.Stack (Stacks)
open Sdd.Proofs.Stacks (Place FamilyInv Answer Looked)

variable {bits n len : Nat} {T : Type} {m m₀ : Mem bits T n} {i : Option (Fin n)}

/-- Only links and `newest` of the stack `i` have been cleaned up. -/
structure Tidied (i : Option (Fin n)) (m₀ m : Mem bits T n) : Prop where
  primary : m.primary = m₀.primary
  attached : m.family.attached = m₀.family.attached
  isDeleted : m.family.heap.isDeleted = m₀.family.heap.isDeleted
  value : ∀ x ∈ m₀.family.attached, m.family.heap.value x = m₀.family.heap.value x
  others : ∀ j, j ≠ i → m.family.newest j = m₀.family.newest j

namespace Tidied

/-- Nothing has been tidied up. -/
theorem refl (i : Option (Fin n)) (m : Mem bits T n) : Tidied i m m :=
  ⟨rfl, rfl, rfl, fun _ _ => rfl, fun _ _ => rfl⟩

/-- One clean-up after the other. -/
theorem trans {m₁ : Mem bits T n} (h : Tidied i m₀ m₁) (h' : Tidied i m₁ m) : Tidied i m₀ m where
  primary := h'.primary.trans h.primary
  attached := h'.attached.trans h.attached
  isDeleted := h'.isDeleted.trans h.isDeleted
  value x hx := (h'.value x (h.attached ▸ hx)).trans (h.value x hx)
  others j hj := (h'.others j hj).trans (h.others j hj)

/-- A clean-up takes no value out of the bag. -/
theorem stored (h : Tidied i m₀ m) : stored len m = stored len m₀ :=
  stored_congr h.primary h.attached h.value

/-- An entry is released. -/
theorem release (h : Tidied i m₀ m) (x : Addr) :
    Tidied i m₀ (m.setHeap (m.family.heap.release x)) :=
  h.trans ⟨rfl, rfl, rfl, fun _ _ => rfl, fun _ _ => rfl⟩

end Tidied

/-- A call that cleans up has left the stacks in order. -/
structure Kept (m₀ m : Mem bits T n) : Prop where
  tidied : Tidied none m₀ m
  words : ∃ owner tgt, Stacks m.family.heap m.family.attached owner m.family.newest tgt

/-- An entry that nothing refers to is released. -/
theorem Kept.release (h : Kept m₀ m) {x : Addr} (hlt : x < m.family.heap.nextAddr)
    (hun : m.family.heap.unlinked x = true) (hword : ∀ i, m.family.newest i ≠ some x) :
    Kept m₀ (m.setHeap (m.family.heap.release x)) := by
  obtain ⟨owner, tgt, hs⟩ := h.words
  exact ⟨h.tidied.release x, owner, tgt, hs.release hlt hun hword⟩

section parts

variable {C R : Type} (step : Mem bits T n → C → Mem bits T n × Outcome C R)
  (holds : Addr → C → Bool) {done : Mem bits T n × Outcome C R → Prop}

/-- A call that looks at `newest` of the stack `i`. -/
theorem look_ends (i : Option (Fin n)) (wrap : Stack.Call (Storage bits T) → C)
    (cont : Outcome (Stack.Call (Storage bits T)) Stack.Res → Outcome C R)
    (hstep : ∀ m call, step m (wrap call) =
      (m.setFamily (m.family.setMem i ((m.family.mem i).step call).1),
        cont ((m.family.mem i).step call).2))
    (hcont : ∀ call, cont (.running call) = .running (wrap call))
    (hholds : ∀ call x, holds x (wrap call) = call.holds x)
    {op : Stack.Op (Storage bits T)} (hop : op = .peek ∨ op = .isEmpty)
    (hdone : ∀ m owner tgt res, Tidied i m₀ m →
      Stacks m.family.heap m.family.attached owner m.family.newest tgt →
      (∃ d, Answer (m.family.mem i) d op res) → Looked (m.family.mem i) res →
      Ends (Outcome.advance step) (Mem.LetsGo holds) done (m, cont (.done res)))
    {owner : Addr → Option (Fin n)} {tgt : Addr → Option Addr}
    (hs : Stacks m₀.family.heap m₀.family.attached owner m₀.family.newest tgt) :
    Ends (Outcome.advance step) (Mem.LetsGo holds) done (m₀, .running (wrap (.start op))) := by
  have hfirst : FamilyInv m₀.family owner tgt
      (Function.update (fun _ : Fin 1 => (.none : Stacks.Place (Storage bits T))) 0
        (.call (.start op))) :=
    FamilyInv.follows ⟨hs, fun _ => trivial, fun _ _ hx => (by cases hx),
      fun _ _ _ he => (by cases he)⟩
      (.start op)
  refine Stacks.stackCall_ends (fun s : Mem bits T n × Outcome C R => s.1.family) i _
    (fun s c => (∃ owner tgt place, FamilyInv s.1.family owner tgt place ∧
      place (0 : Fin 1) = .call c) ∧ s.2 = .running (wrap c) ∧ Tidied i m₀ s.1 ∧ c.op = op)
    (fun s s' c hat he => ?_) (fun s c hat => ?_)
    ⟨⟨owner, tgt, _, hfirst, Function.update_self ..⟩, rfl, .refl i m₀, ?_⟩ (.start hs op)
  · obtain ⟨⟨owner, tgt, place, hf, hplace⟩, hout, htidy, hc⟩ := hat
    obtain ⟨x, hlt, hun, hword, hheld, rfl⟩ := he
    have hx : c.holds x = false := (hholds c x).symm.trans (hheld _ hout)
    refine ⟨⟨⟨owner, tgt, place, hf.release hlt hun hword fun u => ?_, hplace⟩, hout,
      htidy.trans ⟨rfl, rfl, rfl, fun _ _ => rfl, fun _ _ => rfl⟩, hc⟩, x, rfl, hlt, hun, hword, hx⟩
    rw [Fin.fin_one_eq_zero u, hplace]
    exact hx
  · obtain ⟨m, out⟩ := s
    obtain ⟨⟨owner, tgt, place, hf, hplace⟩, hout, htidy, hc⟩ := hat
    cases hout
    -- The call neither attaches nor deletes an entry.
    have hafter := fun p hp => hf.callAfter hplace i (p := p) hp
    have hquiet : Stacks.Quiet (m.family.mem i) (Stacks.deleted c) op
        ((m.family.mem i).step c) := by
      obtain ⟨p, hp⟩ : ∃ p, Stacks.Goes p ((m.family.mem i).step c).2 := by
        cases ((m.family.mem i).step c).2 with
        | running c' => exact ⟨_, rfl⟩
        | done res => exact ⟨.none, .none⟩
      exact hc ▸ (hafter p hp).effect.quiet_of (by rw [hc]; exact hop)
    have htidy' : ∀ p, Stacks.Goes p ((m.family.mem i).step c).2 →
        Tidied i m₀ (m.setFamily (m.family.setMem i ((m.family.mem i).step c).1)) := by
      intro p hp
      refine htidy.trans ⟨rfl, hquiet.attached, hquiet.isDeleted, (hafter p hp).value, fun j hj => ?_⟩
      exact Function.update_of_ne hj ((m.family.mem i).step c).1.newest m.family.newest
    refine ⟨_, congrArg some (hstep m c), fun c' hc' => ?_, fun res hres _ hlook => ?_⟩
    · have hgoes : Stacks.Goes (.call c') ((m.family.mem i).step c).2 := by
        rw [hc']
        exact rfl
      obtain ⟨owner', tgt', hf'⟩ := (hafter _ hgoes).inv
      refine ⟨⟨⟨owner', tgt', _, hf', Function.update_self ..⟩, ?_, htidy' _ hgoes, ?_⟩, rfl⟩
      · rw [hc', hcont]
      · exact (hquiet.running c' hc').2
    · have hgoes : Stacks.Goes .none ((m.family.mem i).step c).2 := by
        rw [hres]
        exact .none
      obtain ⟨owner', tgt', hf'⟩ := (hafter _ hgoes).inv
      have hmem : (m.setFamily (m.family.setMem i ((m.family.mem i).step c).1)).family.mem i
          = ((m.family.mem i).step c).1 := Stacks.mem_setMem _
      rw [hres]
      refine hdone _ owner' tgt' res (htidy' _ hgoes) hf'.words ⟨Stacks.deleted c, ?_⟩ ?_
      · rw [hmem]
        exact hquiet.done res hres
      · rw [hmem]
        exact hlook
  · rcases hop with rfl | rfl <;> rfl

variable {owner : Addr → Option (Fin n)} {tgt : Addr → Option Addr} {x : Addr}

/-- Where `next_ptr` of the entry `x` leaves the stacks when it returns `o`. -/
structure Nexted (m₀ : Mem bits T n) (owner : Addr → Option (Fin n)) (tgt : Addr → Option Addr)
    (x : Addr) (o : Option Addr) (m : Mem bits T n) : Prop where
  words : Stacks m.family.heap m.family.attached owner m.family.newest tgt
  tidied : ∀ i, Tidied i m₀ m
  threaded : ∀ p l, Threaded (Proofs.next m₀.family.heap) tgt p l →
    Threaded (Proofs.next m.family.heap) tgt p l
  found : o = (Proofs.next m.family.heap x).bind tgt ∧
    ∀ y, o = some y → y ∈ m.family.attached ∧ m.family.heap.isDeleted y = false

/-- A call in `next_ptr` of the entry `x`. -/
theorem next_ends (wrap : NextPtr → C) (cont : Outcome NextPtr (Ptr Addr) → Outcome C R)
    (hstep : ∀ m call, step m (wrap call) =
      (m.setHeap (call.step m.family.heap).1, cont (call.step m.family.heap).2))
    (hcont : ∀ call, cont (.running call) = .running (wrap call))
    (hholds : ∀ call y, holds y (wrap call) = (call.holds == some y))
    (hdone : ∀ m p, Nexted m₀ owner tgt x p.addr m →
      Ends (Outcome.advance step) (Mem.LetsGo holds) done (m, cont (.done p)))
    (hs : Stacks m₀.family.heap m₀.family.attached owner m₀.family.newest tgt)
    (hx : x ∈ m₀.family.attached) :
    Ends (Outcome.advance step) (Mem.LetsGo holds) done (m₀, .running (wrap (.start x))) := by
  have hfirst : FamilyInv m₀.family owner tgt (fun _ : Fin 1 => .drop (.start x)) := by
    refine ⟨hs, fun _ => ⟨x, callOk_start hx False.elim⟩, fun _ y hy => ?_,
      fun _ _ _ he => (by cases he)⟩
    simp [Place.holds, NextPtr.start, NextPtr.holds] at hy
  refine nextPtr_ends (fun s : Mem bits T n × Outcome C R => s.1.family.heap) m₀.family.attached
    tgt x
    (fun s c => FamilyInv s.1.family owner tgt (fun _ : Fin 1 => .drop c) ∧
      s.2 = .running (wrap c) ∧ (∀ i, Tidied i m₀ s.1) ∧
      ∀ p l, Threaded (Proofs.next m₀.family.heap) tgt p l →
        Threaded (Proofs.next s.1.family.heap) tgt p l)
    (fun s c hat => ?_) (fun s s' c hat he => ?_) (fun s c hat => ?_)
    ⟨hfirst, rfl, fun i => .refl i m₀, fun _ _ hl => hl⟩
  · obtain ⟨hf, -, htidy, -⟩ := hat
    have hx' : x ∈ s.1.family.attached := (htidy none).attached ▸ hx
    have hok := hf.words.heap
    rw [(htidy none).attached] at hok
    exact ⟨hok, hx, fun y hy => hf.held 0 y (by simp [Place.holds, hy]), fun y ha hlive =>
      hf.words.unreleased (ha.before hf.words.heap hx').2.1 hlive⟩
  · obtain ⟨hf, hout, htidy, hl⟩ := hat
    obtain ⟨y, hlt, hun, hword, hheld, rfl⟩ := he
    exact ⟨⟨hf.release hlt hun hword fun _ => (hholds c y).symm.trans (hheld _ hout), hout,
      fun i => (htidy i).release y, hl⟩, rfl⟩
  · obtain ⟨m, out⟩ := s
    obtain ⟨hf, hout, htidy, hl⟩ := hat
    cases hout
    have hclean := hf.drop_cleans (t := 0) rfl
    have htidy' : ∀ i, Tidied i m₀ (m.setHeap (c.step m.family.heap).1) := fun i =>
      (htidy i).trans ⟨rfl, rfl, hclean.isDeleted_eq, fun y _ => congrFun hclean.fields.1 y,
        fun _ _ => rfl⟩
    have hl' : ∀ p l, Threaded (Proofs.next m₀.family.heap) tgt p l →
        Threaded (Proofs.next (c.step m.family.heap).1) tgt p l := by
      intro p l h
      rcases hclean with heq | ⟨z, q, heq, -, -, htgt⟩
      · rw [heq]
        exact hl p l h
      · rw [heq, next_setLink]
        exact (hl p l h).redirect htgt
    have hinv := fun p hp => hf.drop (t := 0) rfl p hp
    refine ⟨_, congrArg some (hstep m c), fun c' hc' => ⟨⟨?_, ?_, htidy', hl'⟩, rfl⟩,
      fun p hp hfound => ?_⟩
    · have h' := hinv (.drop c') (by rw [hc'])
      rwa [show Function.update (fun _ : Fin 1 => (.drop c : Stacks.Place (Storage bits T))) 0
        (.drop c') = fun _ => .drop c' from funext fun u => by
          rw [Fin.fin_one_eq_zero u, Function.update_self]] at h'
    · show cont (c.step m.family.heap).2 = _
      rw [hc', hcont]
    · obtain ⟨-, hfound⟩ := hfound
      have hs' := (hinv .none (by rw [hp])).words
      rw [show (c.step m.family.heap).2 = .done p from hp]
      refine hdone _ p ⟨hs', htidy', hl', hfound.1, fun y hy => ?_⟩
      obtain ⟨halong, hlive⟩ := hfound.2 y hy
      have hx' : x ∈ m.family.attached := (htidy none).attached ▸ hx
      exact ⟨(halong.before hs'.heap hx').2.1, hlive⟩

end parts

end Sdd.Proofs.Bag
