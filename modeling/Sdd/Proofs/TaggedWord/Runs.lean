import Sdd.Proofs.TaggedWord.Calls
import Mathlib.Algebra.Group.Nat.Defs

/-!
# `Sdd.Proofs.TaggedWord.Runs`: the program on words

The address of a `RefCounted` is a word that is aligned and not null (`fits`). What an
`AtomicOwned` program uses is always such an address (`Represented`), as calls only pass on what
they find (`uses_called`). Then `step_words` says that an action has the same effect in the program
with pointers and in the one with words, and `words_of_run` is the main result, about runs.

The program with pointers is first renamed to one whose addresses are words, by `Called.renamed`,
and then `call_pack` makes one word of each pointer.
-/

set_option autoImplicit false

namespace Sdd.Proofs.TaggedWord

open Sdd.Collector (Tid)
open Sdd.AtomicOwned (Act Action Address CellId user)
open Sdd.TaggedWord Sdd.Lib
open Sdd.Proofs.AtomicOwned (Called Stepped Uses held rename renameAct renamePtr renameUpdate)

variable {bits : Nat}

section uses

variable {A : Type} [DecidableEq A] {c c' : AtomicOwned.Cells A} {g : Bool} {t : Tid}

/-- A call finds no pointer that was not in use. -/
theorem uses_called {act : Act A} (h : Called c g t act c') {x : A} (hx : Uses c' x) :
    Uses c x := by
  rcases hx with hx | ⟨r, hx⟩ | ⟨r, u, hu, hx⟩
  · exact .inl (h.perm.mem_iff.mp hx)
  · exact (h.ptrs hx).elim (fun hx => .inr (.inl ⟨r, hx⟩)) fun hx => .inl hx.2.2
  · rcases h.updates hu with ⟨u', hu', hprev⟩ | ⟨-, -, ⟨cell, hp⟩, -⟩
    · exact .inr (.inr ⟨r, u', hu', by rwa [hprev]⟩)
    · exact .inl (AtomicOwned.mem_held_of_word hp hx)

end uses

/-! ## Addresses as words -/

section words

variable (bits)

/-- An address of a `RefCounted`: it is in one word, aligned, and not null. -/
def fits (x : Address) : Bool := 0 < x && x < 2 ^ bits && x % 4 == 0

/-- What the arguments of an act point to. -/
def arguments : Act Address → List Address
  | .new x | .drop x | .from x | .getGuardedPtr x | .send x _ => [x]
  | .swap _ new _ => new.toList
  | .compareExchange _ current new _ _ => current.addr.toList ++ new.toList
  | _ => []

/-- All pointers that occur are words. -/
def representable (a : Action Address) : Bool := (arguments a.act).all (fits bits)

/-- The word of an address. -/
def wordOf (x : Address) : BitVec bits := BitVec.ofNat bits x

/-- The same state, where each pointer is one word. -/
def words (w : AtomicOwned.World) : World bits :=
  ⟨w.process, packCells (rename (wordOf bits) w.cells)⟩

/-- The same action, on words. -/
def wordAction (a : Action Address) : Action (BitVec bits) := ⟨a.tid, renameAct (wordOf bits) a.act⟩

variable {bits} {x y : Address} {w w' : AtomicOwned.World}

/-- An address that fits is the number that its word stands for. -/
theorem toNat_wordOf (h : fits bits x = true) : (wordOf bits x).toNat = x := by
  simp only [fits, Bool.and_eq_true, decide_eq_true_eq] at h
  exact Nat.mod_eq_of_lt h.1.2

/-- Addresses that fit have different words. -/
theorem wordOf_inj (hx : fits bits x = true) (hy : fits bits y = true)
    (h : wordOf bits x = wordOf bits y) : x = y := by
  rw [← toNat_wordOf hx, ← toNat_wordOf hy, h]

/-- An address that fits leaves room for the tag, and is not null. -/
theorem aligned_wordOf (h : fits bits x = true) : Aligned (wordOf bits x) where
  nonzero hzero := by
    have hx := toNat_wordOf h
    rw [hzero, BitVec.toNat_ofNat, Nat.zero_mod] at hx
    simp [fits, ← hx] at h
  untagged := by
    simp only [fits, Bool.and_eq_true, beq_iff_eq] at h
    -- A multiple of four has no bits where the tag is.
    obtain ⟨k, rfl⟩ := Nat.dvd_of_mod_eq_zero h.2
    refine BitVec.eq_of_getLsbD_eq fun i _ => ?_
    rw [unsetTag_bit, wordOf, BitVec.getLsbD_ofNat, show (4 : Nat) = 2 ^ 2 from rfl,
      Nat.testBit_two_pow_mul]
    by_cases hi : i < 2
    · simp [hi]
    · simp [hi]

/-- The word of a pointer whose address fits is aligned. -/
theorem aligned_renamePtr {p : Ptr Address} (hp : ∀ x ∈ p.addr, fits bits x = true) :
    ∀ y ∈ (renamePtr (wordOf bits) p).addr, Aligned y := by
  intro y hy
  obtain ⟨x, hx, rfl⟩ := Option.map_eq_some_iff.mp hy
  exact aligned_wordOf (hp x hx)

/-- Everything that is in use is a word. -/
def Represented (bits : Nat) (c : AtomicOwned.Cells Address) : Prop :=
  ∀ x, Uses c x → fits bits x = true

variable {c c' : AtomicOwned.Cells Address} {g : Bool} {t : Tid} {act : Act Address}

/-- The addresses in use have different words. -/
theorem Represented.inj (h : Represented bits c) (x y : Address) (hx : Uses c x) (hy : Uses c y)
    (hxy : wordOf bits x = wordOf bits y) : x = y :=
  wordOf_inj (h x hx) (h y hy) hxy

/-- Only the pointers that are in use are so under their other names. -/
theorem uses_rename {A B : Type} {f : A → B} {c : AtomicOwned.Cells A} {y : B}
    (h : Uses (rename f c) y) : ∃ x, Uses c x ∧ f x = y := by
  have hptr : ∀ p : Ptr A, y ∈ (renamePtr f p).addr → ∃ x ∈ p.addr, f x = y := fun p hy =>
    Option.map_eq_some_iff.mp hy
  rcases h with h | ⟨t, h⟩ | ⟨t, u, hu, hy⟩
  · rcases List.mem_append.mp h with h | h
    · obtain ⟨o, ho, hy⟩ := List.mem_flatMap.mp h
      obtain ⟨o, ho', rfl⟩ := List.mem_map.mp ho
      cases o with
      | none => cases hy
      | some p =>
        obtain ⟨x, hx, hxy⟩ := hptr p (Option.mem_toList.mp hy)
        refine ⟨x, .inl (List.mem_append_left _ (List.mem_flatMap.mpr ⟨some p, ho', ?_⟩)), hxy⟩
        exact Option.mem_toList.mpr hx
    · obtain ⟨a, ha, rfl⟩ := List.mem_map.mp h
      obtain ⟨⟨r, x⟩, hx, rfl⟩ := List.mem_map.mp ha
      exact ⟨x, .inl (List.mem_append_right _ (List.mem_map_of_mem hx)), rfl⟩
  · obtain ⟨x, hx, hxy⟩ := List.mem_map.mp h
    exact ⟨x, .inr (.inl ⟨t, hx⟩), hxy⟩
  · obtain ⟨v, hv, rfl⟩ := List.mem_map.mp hu
    obtain ⟨x, hx, hxy⟩ := hptr v.prev hy
    exact ⟨x, .inr (.inr ⟨t, v, hv, hx⟩), hxy⟩

/-- The words in use are aligned. -/
theorem Represented.aligned (h : Represented bits c) (y : BitVec bits)
    (hy : Uses (rename (wordOf bits) c) y) : Aligned y := by
  obtain ⟨x, hx, rfl⟩ := uses_rename hy
  exact aligned_wordOf (h x hx)

/-- A call that both programs can take. -/
theorem call_words (hbits : 2 ≤ bits) (h : Represented bits c) (hc : Called c g t act c') :
    (packCells (rename (wordOf bits) c)).call g t (renameAct (wordOf bits) act) =
      some (packCells (rename (wordOf bits) c')) :=
  call_pack hbits h.aligned (hc.renamed h.inj)

/-- A thread owns a word if it owns the address. -/
theorem owns_words (h : Represented bits c) (hx : fits bits x = true) :
    (packCells (rename (wordOf bits) c)).owns t (wordOf bits x) = c.owns t x := by
  rw [owns_pack, Bool.eq_iff_iff]
  refine ⟨fun ho => ?_, AtomicOwned.owns_rename⟩
  obtain ⟨⟨r, y⟩, hy, heq⟩ := List.mem_map.mp (of_decide_eq_true ho)
  rw [Prod.mk.injEq] at heq
  obtain ⟨rfl, hyx⟩ := heq
  have ho' : c.owns r y = true := decide_eq_true hy
  -- Both addresses are in one word, so that equal words are equal addresses.
  obtain rfl : y = x := wordOf_inj (h y (.inl (AtomicOwned.mem_held_of_owns ho'))) hx hyx
  exact ho'

/-- The same of the handle that a call may take. -/
theorem all_owns_words (h : Represented bits c) {new : Option Address}
    (hnew : ∀ x ∈ new, fits bits x = true) :
    (new.map (wordOf bits)).all ((packCells (rename (wordOf bits) c)).owns t) =
      new.all (c.owns t) := by
  cases new with
  | none => rfl
  | some x => exact owns_words h (hnew x rfl)

/-- A thread has the word of a `Ptr` if it has the `Ptr`. -/
theorem all_ptrs_words (h : Represented bits c) {p : Ptr Address}
    (hp : ∀ x ∈ p.addr, fits bits x = true) :
    (pointee (pack (renamePtr (wordOf bits) p))).all
        (fun x => x ∈ (packCells (rename (wordOf bits) c)).ptrs t) =
      p.addr.all fun x => x ∈ c.ptrs t := by
  rw [pointee_pack (aligned_renamePtr hp)]
  show (p.addr.map (wordOf bits)).all (fun y => y ∈ (c.ptrs t).map (wordOf bits)) = _
  cases hx : p.addr with
  | none => rfl
  | some x =>
    show decide (wordOf bits x ∈ (c.ptrs t).map (wordOf bits)) = decide (x ∈ c.ptrs t)
    refine decide_eq_decide.mpr ⟨fun hmem => ?_, List.mem_map_of_mem⟩
    obtain ⟨y, hy, hyx⟩ := List.mem_map.mp hmem
    rwa [← wordOf_inj (h y (.inr (.inl ⟨t, hy⟩))) (hp x hx) hyx]

/-- The word of a cell is the packed word of the address. -/
theorem word_words {cell : CellId} : (packCells (rename (wordOf bits) c)).word cell =
    (c.word cell).map fun p => pack (renamePtr (wordOf bits) p) := by
  rw [word_pack, AtomicOwned.word_rename, Option.map_map]
  rfl

/-- A call that cannot be made on pointers. -/
theorem call_none (h : Represented bits c) (hact : ∀ x ∈ arguments act, fits bits x = true)
    (hnone : c.call g t act = none) :
    (packCells (rename (wordOf bits) c)).call g t (renameAct (wordOf bits) act) = none := by
  cases act with
  | null => cases hnone
  | process act => rfl
  | new x => rfl
  | drop x => rfl
  | dropAtomic cell => rfl
  | «from» x | send x r =>
    have hx := hact x List.mem_cons_self
    simp only [AtomicOwned.Cells.call, ite_eq_right_iff, reduceCtorEq, imp_false] at hnone
    simp only [renameAct, Cells.call, owns_words h hx, if_neg hnone]
  | getGuardedPtr x =>
    have hx := hact x List.mem_cons_self
    simp only [AtomicOwned.Cells.call, ite_eq_right_iff, reduceCtorEq, imp_false] at hnone
    simp only [renameAct, Cells.call, owns_words h hx, if_neg hnone]
  | load cell | updateTagIf cell tag | intoOwned cell =>
    simp only [AtomicOwned.Cells.call, ite_eq_right_iff, Option.map_eq_none_iff] at hnone
    simp only [renameAct, Cells.call, word_words, ite_eq_right_iff, Option.map_eq_none_iff]
    exact hnone
  | swap cell new tag =>
    have hnew : ∀ x ∈ new, fits bits x = true := fun x hx => hact x (Option.mem_toList.mpr hx)
    simp only [AtomicOwned.Cells.call, ite_eq_right_iff, Option.map_eq_none_iff] at hnone
    simp only [renameAct, Cells.call, all_owns_words h hnew, word_words, ite_eq_right_iff,
      Option.map_eq_none_iff]
    exact hnone
  | compareExchange cell current new tag spurious =>
    have hcur : ∀ x ∈ current.addr, fits bits x = true := fun x hx =>
      hact x (List.mem_append_left _ (Option.mem_toList.mpr hx))
    have hnew : ∀ x ∈ new, fits bits x = true := fun x hx =>
      hact x (List.mem_append_right _ (Option.mem_toList.mpr hx))
    simp only [AtomicOwned.Cells.call, ite_eq_right_iff, Option.map_eq_none_iff] at hnone
    simp only [renameAct, Cells.call, all_owns_words h hnew, all_ptrs_words h hcur, word_words,
      ite_eq_right_iff, Option.map_eq_none_iff]
    exact hnone
  | answer ok =>
    have hupdates : (packCells (rename (wordOf bits) c)).updates t =
        ((c.updates t).map (renameUpdate (wordOf bits))).map packUpdate := rfl
    simp only [renameAct, Cells.call, hupdates]
    cases hu : c.updates t with
    | nil => rfl
    | cons u rest => cases ok <;> simp [AtomicOwned.Cells.call, hu] at hnone
  | updateTag spurious =>
    have hupdates : (packCells (rename (wordOf bits) c)).updates t =
        ((c.updates t).map (renameUpdate (wordOf bits))).map packUpdate := rfl
    simp only [renameAct, Cells.call, hupdates]
    cases hu : c.updates t with
    | nil => rfl
    | cons u rest =>
      simp only [AtomicOwned.Cells.call, hu, Option.map_eq_none_iff] at hnone
      have hcell : (packUpdate (renameUpdate (wordOf bits) u)).cell = u.cell := rfl
      simp only [List.map_cons, hcell, word_words, hnone, Option.map_none]

/-- A call has the same effect in both programs, or none can make it. -/
theorem call_eq (hbits : 2 ≤ bits) (h : Represented bits c)
    (hact : ∀ x ∈ arguments act, fits bits x = true) :
    (packCells (rename (wordOf bits) c)).call g t (renameAct (wordOf bits) act) =
      (c.call g t act).map fun c' => packCells (rename (wordOf bits) c') := by
  cases hc : c.call g t act with
  | none => exact call_none h hact hc
  | some c' => exact call_words hbits h (AtomicOwned.called_of_call hc)

end words

/-! ## The worlds -/

section worlds

variable {x : Address} {w w' : AtomicOwned.World} {c c' : AtomicOwned.Cells Address} {t : Tid}
  {act : Act Address}

/-- An action is representable if its addresses fit. -/
theorem representable_iff {a : Action Address} :
    representable bits a = true ↔ ∀ x ∈ arguments a.act, fits bits x = true :=
  List.all_eq_true

/-- The same `Ptr`s and calls, and fewer handles. -/
theorem Represented.fewer (h : Represented bits c) (hheld : ∀ x ∈ held c', x ∈ held c)
    (hptrs : c'.ptrs = c.ptrs) (hupdates : c'.updates = c.updates) : Represented bits c' := by
  rintro x (hx | hx | hx)
  · exact h x (.inl (hheld x hx))
  · exact h x (.inr (.inl (hptrs ▸ hx)))
  · exact h x (.inr (.inr (hupdates ▸ hx)))

/-- No address is in use in the beginning. -/
theorem represented_init : Represented bits (.init : AtomicOwned.Cells Address) := by
  rintro x (hx | ⟨r, hx⟩ | ⟨r, u, hu, -⟩)
  · cases hx
  · cases hx
  · cases hu

/-- Every action leaves only words in use. -/
theorem represented_step (h : Represented bits w.cells) {a : Action Address}
    (ha : representable bits a = true) (hs : w.step a = some w') : Represented bits w'.cells := by
  obtain ⟨t, act⟩ := a
  have hstep : Stepped w t act w' := AtomicOwned.stepped_of_step hs
  cases hstep with
  | process act p hp =>
    -- The `Ptr`s of a thread without a guard are gone, and the others stay.
    rintro x (hx | ⟨r, hx⟩ | hx)
    · exact h x (.inl hx)
    · refine h x (.inr (.inl ⟨r, ?_⟩))
      change x ∈ (if p.base.guardAlive r then w.cells.ptrs r else []) at hx
      split at hx
      · exact hx
      · cases hx
    · exact h x (.inr (.inr hx))
  | new x hu hx =>
    rintro y (hy | hy | hy)
    · rcases List.mem_append.mp ((AtomicOwned.held_give (some x)).mem_iff.mp hy) with hy | hy
      · obtain rfl := List.mem_singleton.mp hy
        exact representable_iff.mp ha y List.mem_cons_self
      · exact h y (.inl hy)
    · exact h y (.inr (.inl hy))
    · exact h y (.inr (.inr hy))
  | drop x w' hu hx hret =>
    obtain ⟨p, -, rfl⟩ := Option.map_eq_some_iff.mp hret
    have hperm := AtomicOwned.held_forget (c := w.cells) (t := t) (o := some x) fun y hy => by
      cases hy
      exact hx
    exact h.fewer (fun y hy => hperm.mem_iff.mp (List.mem_append_right _ hy)) rfl rfl
  | dropNull cell p hu hp hn =>
    have hperm := AtomicOwned.held_setWord hp none
    exact h.fewer (fun y hy => hperm.mem_iff.mp (List.mem_append_right _ hy)) rfl rfl
  | dropAtomic cell p x w' hu hp hx hret =>
    obtain ⟨q, -, rfl⟩ := Option.map_eq_some_iff.mp hret
    have hperm := AtomicOwned.held_setWord hp none
    exact h.fewer (fun y hy => hperm.mem_iff.mp (List.mem_append_right _ hy)) rfl rfl
  | call act c hu hc => exact fun x hx => h x (uses_called hc hx)

/-- An instance is retired in both programs. -/
theorem retire_words (c : AtomicOwned.Cells Address) (t : Tid) (x : Address) :
    World.retire ⟨w.process, packCells (rename (wordOf bits) c)⟩ t =
      (AtomicOwned.World.retire { w with cells := c } t x).map (words bits) := by
  unfold World.retire AtomicOwned.World.retire
  rw [Option.map_map]
  rfl

/-- An act has the same effect in both programs. -/
theorem act_words (hbits : 2 ≤ bits) (h : Represented bits w.cells)
    (hact : ∀ x ∈ arguments act, fits bits x = true)
    (hnew : ∀ x, act = .new x → w.memory x = none) :
    (words bits w).act t (renameAct (wordOf bits) act) = (w.act t act).map (words bits) := by
  have hcall : ∀ b : Act Address, (∀ x ∈ arguments b, fits bits x = true) →
      (if user w.process t then
        ((words bits w).cells.call (w.process.base.guardAlive t) t (renameAct (wordOf bits) b)).map
          fun c => { words bits w with cells := c }
        else none) =
      (if user w.process t then
        (w.cells.call (w.process.base.guardAlive t) t b).map fun c => { w with cells := c }
        else none).map (words bits) := by
    intro b hb
    split
    · rw [show (words bits w).cells = packCells (rename (wordOf bits) w.cells) from rfl,
        call_eq hbits h hb, Option.map_map, Option.map_map]
      rfl
    · rfl
  cases act with
  | process act =>
    show (w.process.step ⟨t, act⟩).map _ = ((w.process.step ⟨t, act⟩).map w.proceed).map _
    rw [Option.map_map]
    refine Option.map_congr fun p _ => ?_
    show World.mk p ((packCells (rename (wordOf bits) w.cells)).expire p.base.guardAlive) =
      ⟨p, packCells (rename (wordOf bits) (w.cells.expire p.base.guardAlive))⟩
    rw [AtomicOwned.rename_expire]
    rfl
  | new x =>
    have hfree : (w.memory x).isNone = true := by rw [hnew x rfl]; rfl
    show (if user w.process t then _ else none) =
      (if user w.process t && (w.memory x).isNone then _ else none).map _
    rw [hfree, Bool.and_true]
    split
    · refine congrArg some ?_
      show World.mk w.process ((packCells (rename (wordOf bits) w.cells)).give t
        (some (wordOf bits x))) = ⟨w.process, packCells (rename (wordOf bits)
          (w.cells.give t (some x)))⟩
      rw [AtomicOwned.rename_give, pack_give]
      rfl
    · rfl
  | drop x =>
    show (if user w.process t && (packCells (rename (wordOf bits) w.cells)).owns t (wordOf bits x)
      then _ else none) = (if user w.process t && w.cells.owns t x then _ else none).map _
    rw [owns_words h (hact x List.mem_cons_self)]
    split
    · rename_i hok
      rw [Bool.and_eq_true] at hok
      rw [← retire_words, AtomicOwned.rename_forget h.inj (fun y hy => by cases hy; exact hok.2),
        pack_forget]
      rfl
    · rfl
  | dropAtomic cell =>
    show (if user w.process t then ((packCells (rename (wordOf bits) w.cells)).word cell).bind _
      else none) = (if user w.process t then (w.cells.word cell).bind _ else none).map _
    split
    · rw [word_words]
      cases hp : w.cells.word cell with
      | none => rfl
      | some p =>
        have haligned := aligned_renamePtr fun x hx =>
          h x (.inl (AtomicOwned.mem_held_of_word hp hx))
        have hset : (packCells (rename (wordOf bits) w.cells)).setWord cell none =
            packCells (rename (wordOf bits) (w.cells.setWord cell none)) := by
          rw [AtomicOwned.rename_setWord, pack_setWord]
          rfl
        have haddr : pointee (pack (renamePtr (wordOf bits) p)) = p.addr.map (wordOf bits) :=
          pointee_pack haligned
        -- The word is null without its tag if and only if the pointer is.
        simp only [Option.map_some, Option.bind_some, haddr]
        cases hx : p.addr with
        | none =>
          refine congrArg some ?_
          show World.mk w.process ((packCells (rename (wordOf bits) w.cells)).setWord cell none) = _
          rw [hset]
          rfl
        | some x =>
          show World.retire ⟨w.process,
            (packCells (rename (wordOf bits) w.cells)).setWord cell none⟩ t = _
          rw [hset]
          exact retire_words _ t x
    · rfl
  | null => exact hcall .null hact
  | «from» x => exact hcall (.from x) hact
  | load cell => exact hcall (.load cell) hact
  | getGuardedPtr x => exact hcall (.getGuardedPtr x) hact
  | swap cell new tag => exact hcall (.swap cell new tag) hact
  | compareExchange cell current new tag spurious =>
    exact hcall (.compareExchange cell current new tag spurious) hact
  | updateTagIf cell tag => exact hcall (.updateTagIf cell tag) hact
  | answer ok => exact hcall (.answer ok) hact
  | updateTag spurious => exact hcall (.updateTag spurious) hact
  | intoOwned cell => exact hcall (.intoOwned cell) hact
  | send x receiver => exact hcall (.send x receiver) hact

/-- An action has the same effect in both programs. -/
theorem step_words (hbits : 2 ≤ bits) (h : Represented bits w.cells) {a : Action Address}
    (ha : representable bits a = true) (hnew : ∀ x, a.act = .new x → w.memory x = none) :
    (words bits w).step (wordAction bits a) = (w.step a).map (words bits) := by
  have hupdating : (words bits w).cells.updating a.tid = w.cells.updating a.tid :=
    updating_pack.trans AtomicOwned.updating_rename
  unfold World.step AtomicOwned.World.step
  show (if (words bits w).cells.updating a.tid = (renameAct (wordOf bits) a.act).updates then
    (words bits w).act a.tid (renameAct (wordOf bits) a.act) else none) = _
  rw [hupdating, AtomicOwned.updates_renameAct, act_words hbits h (representable_iff.mp ha) hnew]
  split
  · rfl
  · rfl

variable (bits) in
/-- The two programs take the same action. -/
def lockstep (x : AtomicOwned.World × World bits) (a : Action Address) :
    Option (AtomicOwned.World × World bits) :=
  (x.1.step a).bind fun w' => (x.2.step (wordAction bits a)).map fun v => (w', v)

/-- An allocation finds free memory. -/
theorem free_of_step {a : Action Address} (hs : w.step a = some w') (x : Address)
    (hx : a.act = .new x) : w.memory x = none := by
  obtain ⟨t, act⟩ := a
  cases hx
  cases AtomicOwned.stepped_of_step hs with
  | new _ _ hfree => exact hfree
  | call _ _ _ hc => cases hc

/-- If the actions of a run are representable, its states are. -/
theorem represented_of_run
    (h : Run AtomicOwned.World.step (fun _ a => representable bits a = true) .init w) :
    Represented bits w.cells :=
  h.invariant (fun w => Represented bits w.cells) represented_init fun _ _ _ hrep ha hs =>
    represented_step hrep ha hs

/-- The program on words is the one on pointers with tags. In every run where all addresses are
those of `RefCounted`s:

* it can take the same actions, and comes to the same state, if each pointer is read as one word;
* it can take no other actions: from every state the next action has the same effect in both, or
  neither can take it, if an allocation returns memory that is free;
* the address and the tag of each pointer in a cell can be read from its word. -/
theorem words_of_run (hbits : 2 ≤ bits)
    (h : Run AtomicOwned.World.step (fun _ a => representable bits a = true) .init w) :
    Run (lockstep bits) (fun _ _ => True) (.init, .init) (w, words bits w) ∧
    (∀ a, representable bits a = true → (∀ x, a.act = .new x → w.memory x = none) →
      (words bits w).step (wordAction bits a) = (w.step a).map (words bits)) ∧
    ∀ cell p, w.cells.word cell = some p → ∃ ptr, (words bits w).cells.word cell = some ptr ∧
      pointee ptr = p.addr.map (wordOf bits) ∧ intoTag ptr = p.tag := by
  have hrep := represented_of_run h
  refine ⟨?_, fun a ha hnew => step_words hbits hrep ha hnew, fun cell p hp => ?_⟩
  · -- Each step of the run is one of both programs.
    induction h with
    | refl => exact .refl
    | tail a hrun ha hs ih =>
      have hrep' := represented_of_run hrun
      refine (ih hrep').tail a trivial ?_
      unfold lockstep
      rw [hs, Option.bind_some, step_words hbits hrep' ha (free_of_step hs), hs, Option.map_some,
        Option.map_some]
  · have haligned := aligned_renamePtr fun x hx =>
      hrep x (.inl (AtomicOwned.mem_held_of_word hp hx))
    refine ⟨pack (renamePtr (wordOf bits) p), ?_, pointee_pack haligned, intoTag_updateTag hbits⟩
    show (packCells (rename (wordOf bits) w.cells)).word cell = _
    rw [word_words, hp, Option.map_some]

/-- A tagged pointer takes the place of another one by a compare-and-exchange. -/
theorem words_of_run_exchanged : ∃ w,
    Run (lockstep 64) (fun _ _ => True) (.init, .init) (w, words 64 w) ∧
    (words 64 w).cells.word 0 = some 11#64 ∧
    (words 64 w).cells.answers = [(0, true), (0, true)] := by
  have h : (exec AtomicOwned.World.step (fun _ a => representable 64 a) .init
      (AtomicOwned.register 0 ++ [⟨0, .new 8⟩, ⟨0, .new 16⟩, ⟨0, .from 16⟩] ++
        AtomicOwned.guard 0 0 ++ [⟨0, .load 0⟩, ⟨0, .updateTagIf 0 .second⟩, ⟨0, .answer true⟩,
          ⟨0, .updateTag false⟩,
          ⟨0, .compareExchange 0 ⟨some 16, .second⟩ (some 8) .both false⟩])).any
      fun w => (words 64 w).cells.word 0 == some 11#64 &&
        w.cells.answers == [(0, true), (0, true)] := by
    decide +kernel
  obtain ⟨w, hrun, h⟩ := Run.of_exec_any h
  simp only [Bool.and_eq_true, beq_iff_eq] at h
  exact ⟨w, (words_of_run (by decide) hrun).1, h.1, h.2⟩

end worlds

end Sdd.Proofs.TaggedWord
