import Sdd.RefCounted
import Sdd.Lib.Run
import Mathlib.Data.List.Count

/-!
# `Sdd.Proofs.RefCounted`: the counter counts the handles

`Inv` is what every reachable state has. For each instance it ties four things together
(`InstOk`): the counter word, the number of handles, the number of times the instance stands on
a garbage list, and the threads that are just passing it to the collector. As long as
there are handles the counter is odd and counts them, and nobody passes the instance on.
When the last handle is gone the word is even, and either one thread is passing the
instance on or it has been passed, once.

The lemmas on `holders` say what each transfer of a reference adds and removes. Most steps
change neither the counter nor the number of handles (`Inv.quiet`); the others are one
lemma each. `reference_counting` states the result for every run.
-/

set_option autoImplicit false

namespace Sdd.Proofs.RefCounted

open Sdd.RefCounted
open Sdd.RefCounted.World

variable {w w' : World} {t : Tid} {i j : InstId} {bits : Nat}

/-! ## Handles -/

/-- The references that a pointer holds on an instance. -/
def refs (p : Option InstId) (i : InstId) : Nat := if p = some i then 1 else 0

@[simp] theorem refs_none : refs none i = 0 := rfl

@[simp] theorem refs_self : refs (some i) i = 1 := if_pos rfl

theorem refs_of_ne (h : j ≠ i) : refs (some j) i = 0 := if_neg fun e => h (Option.some.inj e)

/-- A reference that a thread takes over is one more handle. -/
theorem holders_give (w : World) (t : Tid) (p : Option InstId) :
    (w.give t p).holders i = w.holders i + refs p i := by
  cases p with
  | none => rfl
  | some j =>
    by_cases hj : j = i
    · subst hj
      simp only [holders, give, List.countP_cons, beq_self_eq_true, if_true, refs_self]
      omega
    · simp only [holders, give, List.countP_cons, beq_iff_eq, if_neg hj, refs_of_ne hj]
      omega

/-- A handle that a thread forgets is one handle less. -/
theorem holders_forget {p : Option InstId} (h : ∀ k ∈ p, (t, k) ∈ w.handles) :
    (w.forget t p).holders i + refs p i = w.holders i := by
  cases p with
  | none => rfl
  | some j =>
    have hj : (t, j) ∈ w.handles := h j rfl
    by_cases hi : j = i
    · subst hi
      have hpos : 0 < w.handles.countP (fun h => h.2 == j) :=
        List.countP_pos_iff.mpr ⟨(t, j), hj, beq_self_eq_true j⟩
      simp only [holders, forget, List.countP_erase, hj, beq_self_eq_true, and_self, if_true,
        refs_self]
      omega
    · simp only [holders, forget, List.countP_erase, beq_iff_eq, hi, and_false, if_false,
        refs_of_ne hi]
      omega

/-- The references that the word of a cell holds. -/
def cellRefs (c : Option (Ptr InstId)) (i : InstId) : Nat := refs (c.bind (·.addr)) i

theorem cellRefs_eq (c : Option (Ptr InstId)) :
    cellRefs c i = if (c.any fun p => p.addr == some i) = true then 1 else 0 := by
  cases c with
  | none => rfl
  | some p => simp [cellRefs, refs]

/-- A cell that was not consumed is in the list of cells. -/
theorem word_eq {l : CellId} {p : Ptr InstId} :
    w.word l = some p ↔ w.cells[l]? = some (some p) :=
  Option.join_eq_some_iff

/-- A store to a cell exchanges the references that its words hold. -/
theorem holders_setCell {l : CellId} {p : Ptr InstId} (h : w.word l = some p)
    (c : Option (Ptr InstId)) :
    (w.setCell l c).holders i + refs p.addr i = w.holders i + cellRefs c i := by
  obtain ⟨hl, hp⟩ := List.getElem?_eq_some_iff.mp (word_eq.mp h)
  have hold : refs p.addr i = if (w.cells[l].any fun p => p.addr == some i) = true then 1
      else 0 := by
    rw [hp, ← cellRefs_eq]
    rfl
  have hpos : 0 < refs p.addr i → 0 < w.cells.countP (fun c => c.any fun p => p.addr == some i) := by
    intro hr
    rw [hold] at hr
    refine List.countP_pos_iff.mpr ⟨w.cells[l], List.getElem_mem hl, ?_⟩
    by_contra hn
    rw [if_neg hn] at hr
    omega
  have hle : refs p.addr i ≤ 1 := by
    rw [hold]
    split <;> omega
  simp only [holders, setCell, List.countP_set hl, ← hold, ← cellRefs_eq]
  omega

/-- An exchange on a cell moves references and keeps their number. -/
theorem holders_exchange {l : CellId} {prev : Ptr InstId} {new : Option InstId} {tag : Tag}
    (hw : w.word l = some prev) (h : ∀ k ∈ new, (t, k) ∈ w.handles) :
    (w.exchange t l prev new tag).holders i = w.holders i := by
  have hforget : (w.forget t new).holders i + refs new i = w.holders i := holders_forget h
  have hword : (w.forget t new).word l = some prev := by
    cases new <;> exact hw
  have hset := holders_setCell (i := i) hword (some ⟨new, tag⟩)
  have hnew : cellRefs (some ⟨new, tag⟩) i = refs new i := rfl
  rw [exchange, holders_give]
  omega

/-- A new cell that takes over a handle. -/
theorem holders_from (h : (t, j) ∈ w.handles) :
    holders { w.forget t (some j) with cells := w.cells ++ [some ⟨some j, .none⟩] } i =
      w.holders i := by
  have hforget : (w.forget t (some j)).holders i + refs (some j) i = w.holders i :=
    holders_forget fun k hk => by
      cases hk
      exact h
  have hcell : holders { w.forget t (some j) with cells := w.cells ++ [some ⟨some j, .none⟩] } i
      = (w.forget t (some j)).holders i + refs (some j) i := by
    simp only [holders, List.countP_append, List.countP_singleton, ← cellRefs_eq]
    simp only [forget, cellRefs, Option.bind_some]
    omega
  omega

/-- An instance that a thread has a handle to has a holder. -/
theorem holders_pos (h : (t, i) ∈ w.handles) : 0 < w.holders i := by
  have hpos : 0 < w.handles.countP (fun h => h.2 == i) :=
    List.countP_pos_iff.mpr ⟨(t, i), h, beq_self_eq_true i⟩
  simp only [holders]
  omega

/-- An instance that the word of a cell points to has a holder. -/
theorem holders_pos_of_word {l : CellId} {p : Ptr InstId} (h : w.word l = some p)
    (hp : p.addr = some i) : 0 < w.holders i := by
  have hset := holders_setCell (i := i) h none
  rw [hp, refs_self] at hset
  have hnone : cellRefs none i = 0 := rfl
  omega

/-- No handle and no cell: no holder. -/
theorem holders_eq_zero (hh : ∀ h ∈ w.handles, h.2 ≠ i)
    (hc : ∀ l p, w.word l = some p → p.addr ≠ some i) : w.holders i = 0 := by
  have h₁ : w.handles.countP (fun h => h.2 == i) = 0 :=
    List.countP_eq_zero.mpr fun h hm => by simpa using hh h hm
  have h₂ : w.cells.countP (fun c => c.any fun p => p.addr == some i) = 0 := by
    refine List.countP_eq_zero.mpr fun c hm => ?_
    cases c with
    | none => exact Bool.false_ne_true
    | some p =>
      obtain ⟨l, hl⟩ := List.getElem?_of_mem hm
      simpa using hc l p (word_eq.mpr hl)
  rw [holders, h₁, h₂]

/-! ## The invariant -/

/-- The thread is passing the instance to the collector. -/
def passing (i : InstId) : Pc → Prop
  | .pass j | .setNextPtr j _ true | .link j => j = i
  | _ => False

/-- What every reachable state says about one instance. -/
structure InstOk (w : World) (i : InstId) : Prop where
  counted : (w.instances i).kind = .shared → 0 < w.holders i → w.refCnt i = 2 * w.holders i - 1
  even : (w.instances i).kind = .unique ∨ w.holders i = 0 → w.refCnt i % 2 = 0
  single : (w.instances i).kind = .unique → w.holders i ≤ 1
  held : 0 < w.holders i → w.passed.count i = 0 ∧ ∀ t, ¬passing i (w.pc t)
  released : w.holders i = 0 →
    w.passed.count i = 1 ∧ (∀ t, ¬passing i (w.pc t)) ∨
    w.passed.count i = 0 ∧ ∃ t, passing i (w.pc t) ∧ ∀ t', passing i (w.pc t') → t' = t

/-- The thread has a `Shared` handle to the instance. -/
def Has (w : World) (t : Tid) (i : InstId) : Prop :=
  (t, i) ∈ w.handles ∧ (w.instances i).kind = .shared

/-- What a thread knows at the place where it stands. -/
def PcOk (w : World) (t : Tid) : Prop :=
  match w.pc t with
  | .idle => True
  | .addRefLoad i | .addRef i _ | .dropRefLoad i | .dropRef i _ => Has w t i
  | .getShared _ => True
  | .tryAddRefLoad i _ => i < w.nextInst
  | .tryAddRef i _ r => i < w.nextInst ∧ r % 2 = 1
  | .pass i | .setNextPtr i _ _ | .link i => i < w.nextInst

structure Inv (w : World) : Prop where
  inst : ∀ i, i < w.nextInst → InstOk w i
  pc : ∀ t, PcOk w t
  handle : ∀ h ∈ w.handles, h.2 < w.nextInst
  cell : ∀ l p, w.word l = some p → ∀ i ∈ p.addr, i < w.nextInst ∧ (w.instances i).kind = .shared
  passed : ∀ i ∈ w.passed, i < w.nextInst

/-- The first state. -/
theorem inv_init : Inv init where
  inst := fun i h => absurd h (Nat.not_lt_zero i)
  pc := fun _ => trivial
  handle := nofun
  cell := fun l p h => by simp [word, init] at h
  passed := nofun

/-- What a thread knows does not depend on what the others do. -/
theorem PcOk.frame (h : PcOk w t) (hpc : w'.pc t = w.pc t) (hnext : w.nextInst ≤ w'.nextInst)
    (hkind : ∀ i, i < w.nextInst → (w'.instances i).kind = (w.instances i).kind)
    (hmem : ∀ i, (t, i) ∈ w.handles → i < w.nextInst ∧ (t, i) ∈ w'.handles) : PcOk w' t := by
  -- A place that names an instance asks for a handle of the thread, or for an instance that exists.
  have hhas : ∀ i, Has w t i → Has w' t i := fun i hi =>
    ⟨(hmem i hi.1).2, (hkind i (hmem i hi.1).1).trans hi.2⟩
  unfold PcOk at h ⊢
  rw [hpc]
  cases hp : w.pc t with
  | idle => trivial
  | getShared cell => trivial
  | addRefLoad i =>
    rw [hp] at h
    exact hhas i h
  | addRef i current =>
    rw [hp] at h
    exact hhas i h
  | dropRefLoad i =>
    rw [hp] at h
    exact hhas i h
  | dropRef i current =>
    rw [hp] at h
    exact hhas i h
  | tryAddRefLoad i cell =>
    rw [hp] at h
    exact Nat.lt_of_lt_of_le h hnext
  | tryAddRef i cell r =>
    rw [hp] at h
    exact ⟨Nat.lt_of_lt_of_le h.1 hnext, h.2⟩
  | pass i =>
    rw [hp] at h
    exact Nat.lt_of_lt_of_le h hnext
  | setNextPtr i next collect =>
    rw [hp] at h
    exact Nat.lt_of_lt_of_le h hnext
  | link i =>
    rw [hp] at h
    exact Nat.lt_of_lt_of_le h hnext

/-- An instance that is being passed on exists. -/
theorem PcOk.lt_of_passing (h : PcOk w t) (hp : passing i (w.pc t)) : i < w.nextInst := by
  unfold PcOk at h
  cases hpc : w.pc t with
  | pass j =>
    rw [hpc] at h hp
    exact (show j = i from hp) ▸ h
  | setNextPtr j next collect =>
    rw [hpc] at h hp
    cases collect with
    | false => exact hp.elim
    | true => exact (show j = i from hp) ▸ h
  | link j =>
    rw [hpc] at h hp
    exact (show j = i from hp) ▸ h
  | idle | addRefLoad _ | addRef _ _ | getShared _ | tryAddRefLoad _ _ | tryAddRef _ _ _
  | dropRefLoad _ | dropRef _ _ =>
    rw [hpc] at hp
    exact hp.elim

/-- An instance whose counter, holders and place on the way to the collector stay the
same. -/
theorem InstOk.same (h : InstOk w i)
    (hkind : (w'.instances i).kind = (w.instances i).kind) (hcnt : w'.refCnt i = w.refCnt i)
    (hholders : w'.holders i = w.holders i) (hpassed : w'.passed.count i = w.passed.count i)
    (hpassing : ∀ t, passing i (w'.pc t) ↔ passing i (w.pc t)) : InstOk w' i where
  counted := by
    rw [hkind, hcnt, hholders]
    exact h.counted
  even := by
    rw [hkind, hcnt, hholders]
    exact h.even
  single := by
    rw [hkind, hholders]
    exact h.single
  held := by
    simp only [hholders, hpassed, hpassing]
    exact h.held
  released := by
    simp only [hholders, hpassed, hpassing]
    exact h.released

/-- A step of the thread `t` from one state to another, as far as the invariant is concerned
outside of the instances: the handles of the other threads stay, and every handle and
every cell points to an instance that exists. -/
structure Frame (t : Tid) (w w' : World) : Prop where
  pc : ∀ t', t' ≠ t → w'.pc t' = w.pc t'
  next : w'.nextInst = w.nextInst
  kind : ∀ i, (w'.instances i).kind = (w.instances i).kind
  others : ∀ t' i, t' ≠ t → (t', i) ∈ w.handles → (t', i) ∈ w'.handles
  handle : ∀ h ∈ w'.handles, h ∈ w.handles ∨ h.2 < w.nextInst
  cell : ∀ l p, w'.word l = some p →
    w.word l = some p ∨ ∀ i ∈ p.addr, i < w.nextInst ∧ (w.instances i).kind = .shared

/-- The parts of the invariant that are not about one instance. -/
theorem Inv.of_frame (hinv : Inv w) (hf : Frame t w w') (hpc : PcOk w' t)
    (hpassed : ∀ i ∈ w'.passed, i < w.nextInst)
    (hinst : ∀ i, i < w.nextInst → InstOk w' i) : Inv w' where
  inst := by
    rw [hf.next]
    exact hinst
  pc := fun t' => by
    by_cases ht : t' = t
    · rw [ht]
      exact hpc
    · exact (hinv.pc t').frame (hf.pc t' ht) (Nat.le_of_eq hf.next.symm) (fun i _ => hf.kind i)
        fun i hi => ⟨hinv.handle _ hi, hf.others t' i ht hi⟩
  handle := fun h hh => by
    rw [hf.next]
    exact (hf.handle h hh).elim (hinv.handle h) id
  cell := fun l p hp i hi => by
    rw [hf.next, hf.kind]
    exact (hf.cell l p hp).elim (fun hw => hinv.cell l p hw i hi) fun h => h i hi
  passed := fun i hi => by
    rw [hf.next]
    exact hpassed i hi

/-- A step that changes no counter, keeps the number of handles of every instance, and
passes nothing to the collector. -/
theorem Inv.quiet (hinv : Inv w) (hf : Frame t w w') (hpc : PcOk w' t)
    (hcnt : ∀ i, w'.refCnt i = w.refCnt i) (hholders : ∀ i, w'.holders i = w.holders i)
    (hpassed : w'.passed = w.passed)
    (hpassing : ∀ i, passing i (w'.pc t) ↔ passing i (w.pc t)) : Inv w' := by
  refine hinv.of_frame hf hpc (fun i hi => hinv.passed i (hpassed ▸ hi)) fun i hi => ?_
  refine (hinv.inst i hi).same (hf.kind i) (hcnt i) (hholders i) (by rw [hpassed]) fun t' => ?_
  by_cases ht : t' = t
  · rw [ht]
    exact hpassing i
  · rw [hf.pc t' ht]

/-! ## Frames of the operations -/

/-- Two actions of the same thread. -/
theorem Frame.trans {w'' : World} (h : Frame t w w') (h' : Frame t w' w'') : Frame t w w'' where
  pc := fun t' ht => (h'.pc t' ht).trans (h.pc t' ht)
  next := h'.next.trans h.next
  kind := fun i => (h'.kind i).trans (h.kind i)
  others := fun t' i ht hi => h'.others t' i ht (h.others t' i ht hi)
  handle := fun a ha => (h'.handle a ha).elim (h.handle a) fun hlt => .inr (h.next ▸ hlt)
  cell := fun l p hp => (h'.cell l p hp).elim (h.cell l p) fun hi => .inr fun i hip =>
    ⟨h.next ▸ (hi i hip).1, h.kind i ▸ (hi i hip).2⟩

theorem Frame.refl (t : Tid) (w : World) : Frame t w w where
  pc := fun _ _ => rfl
  next := rfl
  kind := fun _ => rfl
  others := fun _ _ _ h => h
  handle := fun _ h => .inl h
  cell := fun _ _ h => .inl h

theorem Frame.goto (t : Tid) (w : World) (p : Pc) : Frame t w (w.goto t p) :=
  { Frame.refl t w with pc := fun _ ht => Function.update_of_ne ht _ _ }

theorem Frame.log (t : Tid) (w : World) (e : Event) : Frame t w (w.log e) :=
  { Frame.refl t w with }

theorem Frame.modify (t : Tid) (w : World) (i : InstId) (f : Link → Link) :
    Frame t w (w.modify i f) :=
  { Frame.refl t w with
    kind := fun j => by
      by_cases hj : j = i
      · rw [hj, modify_instances, Function.update_self]
      · rw [modify_instances, Function.update_of_ne hj] }

/-- A thread takes over a reference to an instance that exists. -/
theorem Frame.give (t t' : Tid) (w : World) {p : Option InstId} (h : ∀ i ∈ p, i < w.nextInst) :
    Frame t w (w.give t' p) := by
  cases p with
  | none => exact .refl t w
  | some i =>
    exact { Frame.refl t w with
      others := fun _ _ _ h => List.mem_cons_of_mem _ h
      handle := fun a ha => (List.mem_cons.mp ha).elim (fun e => .inr (e ▸ h i rfl)) .inl }

theorem Frame.forget (t : Tid) (w : World) (p : Option InstId) : Frame t w (w.forget t p) := by
  cases p with
  | none => exact .refl t w
  | some i =>
    exact { Frame.refl t w with
      others := fun t' j ht h =>
        (List.mem_erase_of_ne fun e => ht (congrArg Prod.fst e)).mpr h
      handle := fun a ha => .inl (List.mem_of_mem_erase ha) }

/-- A store of a word that points to a shared instance, or to none. -/
theorem Frame.setCell (t : Tid) (w : World) (l : CellId) {c : Option (Ptr InstId)}
    (h : ∀ p ∈ c, ∀ i ∈ p.addr, i < w.nextInst ∧ (w.instances i).kind = .shared) :
    Frame t w (w.setCell l c) :=
  { Frame.refl t w with
    cell := fun k p hp => by
      rw [word_eq, World.setCell, List.getElem?_set] at hp
      split at hp
      · split at hp
        · exact .inr (h p (Option.some.inj hp))
        · cases hp
      · exact .inl (word_eq.mpr hp) }

/-- The exchange on a cell. -/
theorem Frame.exchange (t : Tid) (w : World) (l : CellId) {prev : Ptr InstId}
    {new : Option InstId} (tag : Tag)
    (hprev : ∀ i ∈ prev.addr, i < w.nextInst)
    (hnew : ∀ i ∈ new, i < w.nextInst ∧ (w.instances i).kind = .shared) :
    Frame t w (w.exchange t l prev new tag) := by
  have hforget : Frame t w (w.forget t new) := .forget t w new
  have hset : Frame t (w.forget t new) ((w.forget t new).setCell l (some ⟨new, tag⟩)) := by
    refine .setCell t _ l fun p hp i hi => ?_
    cases hp
    rw [hforget.next, hforget.kind]
    exact hnew i hi
  refine hforget.trans (hset.trans (.give t t _ fun i hi => ?_))
  rw [hset.next, hforget.next]
  exact hprev i hi

/-! ## The steps -/

/-- The answer that was logged by a step is right: `drop_ref` removed one handle and answers
whether it was the last one, and `try_add_ref` succeeds on a shared instance that has
handles only. -/
def Right (w w' : World) : Event → Prop
  | .dropRef _ i last => w.holders i = w'.holders i + 1 ∧ (last = true ↔ w'.holders i = 0)
  | .tryAddRef _ i ok => ok = true → (w.instances i).kind = .shared ∧ 0 < w.holders i

/-- What one step does: it keeps the invariant, logs at most one answer, which is right,
and gives no handle to an instance that has none. -/
structure Stepped (w w' : World) : Prop where
  inv : Inv w'
  logged : w'.events = w.events ∨ ∃ e, w'.events = e :: w.events ∧ Right w w' e
  next : w.nextInst ≤ w'.nextInst
  kind : ∀ i, i < w.nextInst → (w'.instances i).kind = (w.instances i).kind
  gone : ∀ i, i < w.nextInst → w.holders i = 0 → w'.holders i = 0

/-- A quiet step that logs nothing. -/
theorem Stepped.quiet (hinv : Inv w) (hf : Frame t w w') (hpc : PcOk w' t)
    (hcnt : ∀ i, w'.refCnt i = w.refCnt i) (hholders : ∀ i, w'.holders i = w.holders i)
    (hpassed : w'.passed = w.passed)
    (hpassing : ∀ i, passing i (w'.pc t) ↔ passing i (w.pc t))
    (hevents : w'.events = w.events) : Stepped w w' where
  inv := hinv.quiet hf hpc hcnt hholders hpassed hpassing
  logged := .inl hevents
  next := Nat.le_of_eq hf.next.symm
  kind := fun i _ => hf.kind i
  gone := fun i _ h => (hholders i).trans h

/-- A step that only changes the place of the thread. -/
theorem Stepped.goto (hinv : Inv w) {p : Pc} (hpc : PcOk (w.goto t p) t)
    (hp : ∀ i, passing i p ↔ passing i (w.pc t)) : Stepped w (w.goto t p) := by
  refine .quiet hinv (.goto t w p) hpc (fun _ => rfl) (fun _ => rfl) rfl (fun i => ?_) rfl
  rw [goto_pc, Function.update_self]
  exact hp i

/-- A step that concerns one instance only. -/
theorem Stepped.single (hinv : Inv w) (hf : Frame t w w') (hpc : PcOk w' t)
    (hinst : i < w.nextInst → InstOk w' i) (hpassed : ∀ k ∈ w'.passed, k < w.nextInst)
    (hothers : ∀ j, j ≠ i → w'.refCnt j = w.refCnt j ∧ w'.holders j = w.holders j ∧
      w'.passed.count j = w.passed.count j ∧ (passing j (w'.pc t) ↔ passing j (w.pc t)))
    (hgone : w.holders i = 0 → w'.holders i = 0)
    (hlogged : w'.events = w.events ∨ ∃ e, w'.events = e :: w.events ∧ Right w w' e) :
    Stepped w w' where
  inv := by
    -- Only the counter and the handles of `i` change, and only the thread `t` moves.
    refine hinv.of_frame hf hpc hpassed fun j hj => ?_
    by_cases hji : j = i
    · subst hji
      exact hinst hj
    · obtain ⟨hcnt, hholders, hcount, hp⟩ := hothers j hji
      refine (hinv.inst j hj).same (hf.kind j) hcnt hholders hcount fun t' => ?_
      by_cases ht : t' = t
      · rw [ht]
        exact hp
      · rw [hf.pc t' ht]
  logged := hlogged
  next := Nat.le_of_eq hf.next.symm
  kind := fun j _ => hf.kind j
  gone := fun j _ h => by
    by_cases hji : j = i
    · subst hji
      exact hgone h
    · exact (hothers j hji).2.1.trans h

/-- Nobody passes an instance on that has handles. -/
theorem Inv.not_passing (hinv : Inv w) (hi : i < w.nextInst) (h : 0 < w.holders i) (t : Tid) :
    ¬passing i (w.pc t) :=
  ((hinv.inst i hi).held h).2 t

/-- An instance that is being passed on has no handles, and only one thread passes it
on. -/
theorem Inv.of_passing (hinv : Inv w) (hi : i < w.nextInst) (h : passing i (w.pc t)) :
    w.holders i = 0 ∧ w.passed.count i = 0 ∧ ∀ t', passing i (w.pc t') → t' = t := by
  have hok := hinv.inst i hi
  have hzero : w.holders i = 0 := by
    by_contra hn
    exact (hok.held (by omega)).2 t h
  rcases hok.released hzero with ⟨_, hnone⟩ | ⟨hcount, t₀, _, huniq⟩
  · exact absurd h (hnone t)
  · refine ⟨hzero, hcount, fun t' ht' => ?_⟩
    rw [huniq t' ht', huniq t h]

/-- An instance on a garbage list has no handles and is on it once. -/
theorem Inv.of_passed (hinv : Inv w) (h : i ∈ w.passed) :
    w.holders i = 0 ∧ w.passed.count i = 1 ∧ ∀ t, ¬passing i (w.pc t) := by
  have hok := hinv.inst i (hinv.passed i h)
  have hpos : 0 < w.passed.count i := List.count_pos_iff.mpr h
  have hzero : w.holders i = 0 := by
    by_contra hn
    have hcount := (hok.held (by omega)).1
    omega
  rcases hok.released hzero with ⟨hcount, hnone⟩ | ⟨hcount, _⟩
  · exact ⟨hzero, hcount, hnone⟩
  · omega

/-- The passed instances stay the passed instances when a step concerns handles only. -/
theorem Inv.passed_of_eq (hinv : Inv w) (h : w'.passed = w.passed) :
    ∀ k ∈ w'.passed, k < w.nextInst :=
  fun k hk => hinv.passed k (h ▸ hk)

/-- One more reference: the counter grows by two. The bound on the handles keeps it below
the size of the word. -/
theorem InstOk.added (h : InstOk w i) (hshared : (w.instances i).kind = .shared)
    (hpos : 0 < w.holders i) (hfew : w.holders i < 2 ^ (bits - 1))
    (hkind : (w'.instances i).kind = (w.instances i).kind)
    (hcnt : w'.refCnt i = (w.refCnt i + 2) % 2 ^ bits) (hholders : w'.holders i = w.holders i + 1)
    (hpassed : w'.passed = w.passed) (hpassing : ∀ t, ¬passing i (w'.pc t)) : InstOk w' i where
  counted := fun _ _ => by
    have hold := h.counted hshared hpos
    -- Below `2 ^ (bits - 1)` handles the new counter fits into the word.
    have hbits : 2 ^ (bits - 1) * 2 = 2 ^ bits := by
      cases bits with
      | zero =>
        simp only [Nat.zero_sub, Nat.pow_zero] at hfew
        omega
      | succ n => rfl
    rw [hcnt, hold, hholders, Nat.mod_eq_of_lt (by omega)]
    omega
  even := fun he => by
    rcases he with he | he
    · rw [hkind, hshared] at he
      cases he
    · omega
  single := fun he => by
    rw [hkind, hshared] at he
    cases he
  held := fun _ => by
    rw [hpassed]
    exact ⟨(h.held hpos).1, hpassing⟩
  released := fun he => by omega

/-- One reference less. The word of an instance that has lost its last one is zero. -/
theorem InstOk.dropped (h : InstOk w i) (hshared : (w.instances i).kind = .shared)
    (hkind : (w'.instances i).kind = (w.instances i).kind)
    (hcnt : w'.refCnt i = w.refCnt i - 2) (hholders : w'.holders i + 1 = w.holders i)
    (hpassed : w'.passed = w.passed) (hothers : ∀ t', t' ≠ t → w'.pc t' = w.pc t')
    (hpassing : passing i (w'.pc t) ↔ w'.holders i = 0) : InstOk w' i where
  -- The counter of `n` handles is `2n - 1`: one handle less is two less.
  counted := fun _ hp => by
    have hold := h.counted hshared (by omega)
    omega
  even := fun he => by
    rcases he with he | he
    · rw [hkind, hshared] at he
      cases he
    · have hold := h.counted hshared (by omega)
      omega
  single := fun he => by
    rw [hkind, hshared] at he
    cases he
  held := fun hp => by
    have hold := h.held (by omega)
    rw [hpassed]
    refine ⟨hold.1, fun t' => ?_⟩
    by_cases ht : t' = t
    · rw [ht, hpassing]
      omega
    · rw [hothers t' ht]
      exact hold.2 t'
  -- If no handle is left, the thread that dropped the last one is the only one to pass the
  -- instance.
  released := fun hz => by
    have hold := h.held (by omega)
    rw [hpassed]
    refine .inr ⟨hold.1, t, hpassing.mpr hz, fun t' ht' => ?_⟩
    by_contra ht
    rw [hothers t' ht] at ht'
    exact hold.2 t' ht'

/-- A new instance has one handle. -/
theorem stepped_alloc (hinv : Inv w) (hpc : w.pc t = .idle) {inst : Instance}
    (h : inst = ⟨.shared, .newShared⟩ ∨ inst = ⟨.unique, .newUnique⟩) :
    Stepped w (w.alloc t inst) := by
  -- The number of the new instance was in use nowhere.
  have hfresh : ∀ i, i ≠ w.nextInst → (w.alloc t inst).instances i = w.instances i :=
    fun i hi => Function.update_of_ne hi _ _
  have hholders : ∀ i, (w.alloc t inst).holders i = w.holders i + refs (some w.nextInst) i :=
    fun i => holders_give w t (some w.nextInst)
  have hzero : w.holders w.nextInst = 0 := holders_eq_zero
    (fun a ha e => Nat.lt_irrefl _ (e ▸ hinv.handle a ha))
    fun l p hp e => Nat.lt_irrefl _ (hinv.cell l p hp _ e).1
  have hnone : ∀ t', ¬passing w.nextInst (w.pc t') :=
    fun t' hp => Nat.lt_irrefl _ ((hinv.pc t').lt_of_passing hp)
  have hnew : InstOk (w.alloc t inst) w.nextInst := by
    have hone : (w.alloc t inst).holders w.nextInst = 1 := by rw [hholders, hzero, refs_self]
    have hinst : (w.alloc t inst).instances w.nextInst = inst := Function.update_self _ _ _
    refine ⟨fun hk _ => ?_, fun he => ?_, fun _ => Nat.le_of_eq hone, fun _ => ⟨?_, hnone⟩,
      fun he => by omega⟩
    -- A shared instance begins with one handle and the counter 1, a unique one with the counter 0.
    · rcases h with rfl | rfl
      · rw [hone, refCnt, hinst]
        rfl
      · rw [hinst] at hk
        cases hk
    · rcases h with rfl | rfl
      · rw [hinst, hone] at he
        exact absurd he (by decide)
      · rw [refCnt, hinst]
        rfl
    · exact List.count_eq_zero.mpr fun hm => Nat.lt_irrefl _ (hinv.passed _ hm)
  refine ⟨⟨fun i hi => ?_, fun t' => ?_, fun a ha => ?_, fun l p hp i hi => ?_, fun i hi => ?_⟩,
    .inl rfl, Nat.le_succ _, fun i hi => by rw [hfresh i (Nat.ne_of_lt hi)], fun i hi hz => ?_⟩
  · by_cases hin : i = w.nextInst
    · rw [hin]
      exact hnew
    · have hlt : i < w.nextInst := Nat.lt_of_le_of_ne (Nat.lt_succ_iff.mp hi) hin
      refine (hinv.inst i hlt).same (by rw [hfresh i hin]) (by rw [refCnt, hfresh i hin, refCnt])
        ?_ rfl fun _ => .rfl
      rw [hholders, refs_of_ne (Ne.symm hin), Nat.add_zero]
  · by_cases ht : t' = t
    · rw [ht]
      unfold PcOk
      rw [show (w.alloc t inst).pc t = .idle from hpc]
      trivial
    · exact (hinv.pc t').frame rfl (Nat.le_succ _) (fun i hi => by
        rw [hfresh i (Nat.ne_of_lt hi)])
        fun i hi => ⟨hinv.handle _ hi, List.mem_cons_of_mem _ hi⟩
  · rcases List.mem_cons.mp ha with rfl | ha
    · exact Nat.lt_succ_self _
    · exact Nat.lt_succ_of_lt (hinv.handle a ha)
  · have hlt := hinv.cell l p hp i hi
    rw [hfresh i (Nat.ne_of_lt hlt.1)]
    exact ⟨Nat.lt_succ_of_lt hlt.1, hlt.2⟩
  · exact Nat.lt_succ_of_lt (hinv.passed i hi)
  · rw [hholders, hz, refs_of_ne (Ne.symm (Nat.ne_of_lt hi))]

/-- A successful compare-and-exchange of `add_ref` or `try_add_ref`, seen from the
instance: the word is odd, so the instance is shared and has handles. -/
theorem Inv.odd (hinv : Inv w) (hi : i < w.nextInst) (h : w.refCnt i % 2 = 1) :
    (w.instances i).kind = .shared ∧ 0 < w.holders i := by
  have heven := (hinv.inst i hi).even
  constructor
  · cases hk : (w.instances i).kind with
    | shared => rfl
    | unique =>
      have := heven (.inl hk)
      omega
  · by_contra hn
    have := heven (.inr (by omega))
    omega

/-- The counter of an instance with a `Shared` handle is odd. -/
theorem Inv.odd_of_has (hinv : Inv w) (h : Has w t i) : w.refCnt i % 2 = 1 := by
  have hpos : 0 < w.holders i := holders_pos h.1
  have hcnt := (hinv.inst i (hinv.handle _ h.1)).counted h.2 hpos
  omega

/-- A reference is added, by `add_ref` or by `try_add_ref`. `e` is the answer that is
logged with it. -/
theorem stepped_add (hinv : Inv w) (hi : i < w.nextInst) (hodd : w.refCnt i % 2 = 1)
    (hfew : w.holders i < 2 ^ (bits - 1)) (hpc : ∀ j, ¬passing j (w.pc t))
    (hnew : w' = ((w.modify i fun l => { l with refCnt := (w.refCnt i + 2) % 2 ^ bits }).give t
      (some i)).goto t .idle)
    {w'' : World} (hw'' : w'' = w' ∨ w'' = w'.log (.tryAddRef t i true)) : Stepped w w'' := by
  -- An odd counter belongs to a shared instance with a handle. There are few handles, so that the
  -- addition does not wrap.
  obtain ⟨hshared, hpos⟩ := hinv.odd hi hodd
  have hidle : w''.pc = Function.update w.pc t .idle := by
    rcases hw'' with rfl | rfl <;> rw [hnew] <;> simp
  have hcnt : w''.refCnt = (w.modify i fun l =>
      { l with refCnt := (w.refCnt i + 2) % 2 ^ bits }).refCnt := by
    rcases hw'' with rfl | rfl <;> rw [hnew] <;> funext j <;> simp [refCnt]
  have hholders : ∀ j, w''.holders j = w.holders j + refs (some i) j := by
    intro j
    rcases hw'' with rfl | rfl <;> rw [hnew] <;> simp [holders_give]
  have hpassed : w''.passed = w.passed := by
    rcases hw'' with rfl | rfl <;> rw [hnew] <;> simp
  have hframe : Frame t w w'' := by
    have hmod := Frame.modify t w i fun l => { l with refCnt := (w.refCnt i + 2) % 2 ^ bits }
    have hw' : Frame t w w' := by
      rw [hnew]
      exact hmod.trans ((Frame.give t t _ fun k hk => by cases hk; exact hi).trans (.goto t _ _))
    rcases hw'' with rfl | rfl
    · exact hw'
    · exact hw'.trans (.log t _ _)
  have hnone : ∀ j t', passing j (w''.pc t') → passing j (w.pc t') := by
    intro j t' hp
    rw [hidle] at hp
    by_cases ht : t' = t
    · rw [ht, Function.update_self] at hp
      exact hp.elim
    · rwa [Function.update_of_ne ht] at hp
  -- Only the counter and the handles of `i` have changed.
  refine .single (i := i) hinv hframe ?_ (fun _ => ?_) (hinv.passed_of_eq hpassed)
    (fun j hj => ⟨?_, ?_, by rw [hpassed], hnone j t, fun hp => absurd hp (hpc j)⟩)
    (fun hz => by omega) ?_
  · unfold PcOk
    rw [hidle, Function.update_self]
    trivial
  · refine (hinv.inst i hi).added hshared hpos hfew (hframe.kind i) ?_ ?_ hpassed
      fun t' hp => hinv.not_passing hi hpos t' (hnone i t' hp)
    · rw [hcnt, modify_refCnt_self]
    · rw [hholders, refs_self]
  · rw [hcnt, modify_refCnt_of_ne _ _ _ hj]
  · rw [hholders, refs_of_ne (Ne.symm hj), Nat.add_zero]
  · rcases hw'' with rfl | rfl
    · rw [hnew]
      exact .inl (by simp)
    · exact .inr ⟨.tryAddRef t i true, by rw [hnew]; simp, fun _ => ⟨hshared, hpos⟩⟩

/-- A reference is dropped by `drop_ref`, which answers whether it was the last one. -/
theorem stepped_drop (hinv : Inv w) (hhas : Has w t i) (hpc : ∀ j, ¬passing j (w.pc t))
    (hnew : w' = (((w.modify i fun l => { l with refCnt := w.refCnt i - 2 }).forget t
      (some i)).log (.dropRef t i (w.refCnt i == 1))).goto t
        (if w.refCnt i == 1 then .pass i else .idle)) : Stepped w w' := by
  have hi : i < w.nextInst := hinv.handle _ hhas.1
  have hpos : 0 < w.holders i := holders_pos hhas.1
  -- The counter tells the thread whether its handle was the last one.
  have hcount : w.refCnt i = 2 * w.holders i - 1 := (hinv.inst i hi).counted hhas.2 hpos
  have hpc' : w'.pc = Function.update w.pc t (if w.refCnt i == 1 then .pass i else .idle) := by
    rw [hnew]
    simp
  have hholders : ∀ j, w'.holders j + refs (some i) j = w.holders j := by
    intro j
    have h := holders_forget (i := j) (w := w.modify i fun l => { l with refCnt := w.refCnt i - 2 })
      (p := some i) (t := t) fun k hk => by
        cases hk
        exact hhas.1
    rw [hnew]
    simpa using h
  have hlast : w.refCnt i = 1 ↔ w'.holders i = 0 := by
    have h := hholders i
    rw [refs_self] at h
    omega
  have hcnt : w'.refCnt = (w.modify i fun l => { l with refCnt := w.refCnt i - 2 }).refCnt := by
    rw [hnew]
    funext j
    simp [refCnt]
  have hpassed : w'.passed = w.passed := by
    rw [hnew]
    simp
  have hframe : Frame t w w' := by
    rw [hnew]
    exact (Frame.modify t w i _).trans ((Frame.forget t _ _).trans ((Frame.log t _ _).trans
      (.goto t _ _)))
  have hpassing : ∀ j, passing j (w'.pc t) ↔ j = i ∧ w'.holders i = 0 := by
    intro j
    rw [hpc', Function.update_self, ← hlast]
    by_cases h1 : w.refCnt i = 1
    · rw [if_pos (beq_iff_eq.mpr h1)]
      exact ⟨fun h => ⟨h.symm, h1⟩, fun h => h.1.symm⟩
    · rw [if_neg fun h => h1 (beq_iff_eq.mp h)]
      exact ⟨False.elim, fun h => h1 h.2⟩
  -- The instance has one handle less, and if that was the last one the thread has to pass it.
  refine .single (i := i) hinv hframe ?_ (fun _ => ?_) (hinv.passed_of_eq hpassed)
    (fun j hj => ⟨?_, ?_, by rw [hpassed], ?_⟩) (fun hz => by omega) ?_
  · unfold PcOk
    rw [hpc', Function.update_self]
    by_cases h1 : w.refCnt i = 1
    · rw [if_pos (beq_iff_eq.mpr h1)]
      exact hframe.next ▸ hi
    · rw [if_neg fun h => h1 (beq_iff_eq.mp h)]
      trivial
  · refine (hinv.inst i hi).dropped (t := t) hhas.2 (hframe.kind i) ?_ ?_ hpassed hframe.pc ?_
    · rw [hcnt, modify_refCnt_self]
    · rw [← hholders i, refs_self]
    · rw [hpassing]
      exact ⟨fun h => h.2, fun h => ⟨rfl, h⟩⟩
  · rw [hcnt, modify_refCnt_of_ne _ _ _ hj]
  · rw [← hholders j, refs_of_ne (Ne.symm hj), Nat.add_zero]
  · rw [hpassing]
    exact ⟨fun h => absurd h.1 hj, fun h => absurd h (hpc j)⟩
  · refine .inr ⟨.dropRef t i (w.refCnt i == 1), by rw [hnew]; simp, ?_, ?_⟩
    · rw [← hholders i, refs_self]
    · rw [beq_iff_eq, hlast]

/-- The only handle of a unique instance is dropped. -/
theorem stepped_dropOwned (hinv : Inv w) (hpc : w.pc t = .idle) (hmem : (t, i) ∈ w.handles)
    (hkind : (w.instances i).kind = .unique) :
    Stepped w ((w.forget t (some i)).goto t (.pass i)) := by
  have hi : i < w.nextInst := hinv.handle _ hmem
  have hok := hinv.inst i hi
  have hpos : 0 < w.holders i := holders_pos hmem
  -- An `Owned` is the only handle of its instance.
  have hsingle : w.holders i ≤ 1 := hok.single hkind
  have hholders : ∀ j, (w.forget t (some i)).holders j + refs (some i) j = w.holders j :=
    fun j => holders_forget fun k hk => by
      cases hk
      exact hmem
  have hzero : (w.forget t (some i)).holders i = 0 := by
    have h := hholders i
    rw [refs_self] at h
    omega
  have hframe : Frame t w ((w.forget t (some i)).goto t (.pass i)) :=
    (Frame.forget t w _).trans (.goto t _ _)
  have hself : ((w.forget t (some i)).goto t (.pass i)).pc t = .pass i := by simp
  have hpassing : ∀ j, passing j (((w.forget t (some i)).goto t (.pass i)).pc t) ↔ i = j := by
    intro j
    rw [hself]
    rfl
  refine .single (i := i) hinv hframe ?_ (fun _ => ?_) (hinv.passed_of_eq rfl)
    (fun j hj => ⟨rfl, ?_, rfl, ?_⟩) (fun _ => hzero) (.inl rfl)
  · unfold PcOk
    rw [hself]
    exact hi
  · refine ⟨fun hs => ?_, fun _ => hok.even (.inl hkind), fun _ => by
      rw [goto_holders, hzero]
      exact Nat.zero_le 1, fun h => ?_, fun _ => .inr ⟨(hok.held hpos).1, t, ?_, ?_⟩⟩
    · rw [show (((w.forget t (some i)).goto t (.pass i)).instances i).kind = .unique from hkind]
        at hs
      cases hs
    · rw [goto_holders, hzero] at h
      exact absurd h (Nat.lt_irrefl 0)
    · rw [hpassing]
    · intro t' ht'
      by_contra hne
      rw [hframe.pc t' hne] at ht'
      exact hinv.not_passing hi hpos t' ht'
  · rw [goto_holders, ← hholders j, refs_of_ne (Ne.symm hj), Nat.add_zero]
  · rw [hpassing, hpc]
    exact ⟨fun h => absurd h.symm hj, False.elim⟩

/-- A store to the first word of an instance without handles. -/
theorem stepped_firstWord (hinv : Inv w) (hi : i < w.nextInst) (hzero : w.holders i = 0)
    (next : Option FatPtr) {p : Pc}
    (hpcOk : PcOk ((w.modify i fun l => { l with refCnt := Link.firstWord next }).goto t p) t)
    (hpassing : ∀ j, passing j p ↔ passing j (w.pc t)) :
    Stepped w ((w.modify i fun l => { l with refCnt := Link.firstWord next }).goto t p) := by
  have hok := hinv.inst i hi
  have hframe : Frame t w ((w.modify i fun l => { l with refCnt := Link.firstWord next }).goto t p) :=
    (Frame.modify t w i _).trans (.goto t _ _)
  have hiff : ∀ j t', passing j (((w.modify i fun l =>
      { l with refCnt := Link.firstWord next }).goto t p).pc t') ↔ passing j (w.pc t') := by
    intro j t'
    by_cases ht : t' = t
    · rw [ht, goto_pc, Function.update_self]
      exact hpassing j
    · rw [hframe.pc t' ht]
  -- The counter is a word of a link now: it is even, and there is no handle to count.
  refine .single (i := i) hinv hframe hpcOk (fun _ => ?_) (hinv.passed_of_eq rfl)
    (fun j hj => ⟨?_, rfl, rfl, hiff j t⟩) (fun h => h) (.inl rfl)
  · refine ⟨fun _ hp => ?_, fun _ => ?_, fun _ => ?_, fun hp => ?_, fun h => ?_⟩
    · exact absurd hp (by rw [goto_holders, modify_holders, hzero]; exact Nat.lt_irrefl 0)
    · rw [goto_refCnt, modify_refCnt_self]
      exact Link.firstWord_even next
    · rw [goto_holders, modify_holders, hzero]
      exact Nat.zero_le 1
    · exact absurd hp (by rw [goto_holders, modify_holders, hzero]; exact Nat.lt_irrefl 0)
    · simp only [hiff]
      exact hok.released hzero
  · rw [goto_refCnt, modify_refCnt_of_ne _ _ _ hj]

/-- The instance becomes the head of a garbage list. -/
theorem stepped_link (hinv : Inv w) (hpc : w.pc t = .link i) :
    Stepped w ({ w with passed := i :: w.passed }.goto t .idle) := by
  have hpassing : passing i (w.pc t) := by
    rw [hpc]
    rfl
  -- The thread is the only one that passes the instance, which was not passed before.
  have hi : i < w.nextInst := (hinv.pc t).lt_of_passing hpassing
  obtain ⟨hzero, hcount, huniq⟩ := hinv.of_passing hi hpassing
  have hok := hinv.inst i hi
  have hframe : Frame t w ({ w with passed := i :: w.passed }.goto t .idle) :=
    { Frame.refl t w with pc := fun _ ht => Function.update_of_ne ht _ _ }
  refine .single (i := i) hinv hframe ?_ (fun _ => ?_) ?_ (fun j hj => ⟨rfl, rfl, ?_, ?_⟩)
    (fun h => h) (.inl rfl)
  · unfold PcOk
    rw [goto_pc, Function.update_self]
    trivial
  · refine ⟨hok.counted, hok.even, hok.single, fun hp => ?_, fun _ => .inl ⟨?_, fun t' ht' => ?_⟩⟩
    · exact absurd hp (by rw [goto_holders]; exact Nat.not_lt.mpr (Nat.le_of_eq hzero))
    · rw [goto_passed, List.count_cons_self, hcount]
    · by_cases ht : t' = t
      · rw [ht, goto_pc, Function.update_self] at ht'
        exact ht'
      · rw [hframe.pc t' ht] at ht'
        exact ht (huniq t' ht')
  · intro k hk
    rcases List.mem_cons.mp hk with rfl | hk
    · exact hi
    · exact hinv.passed k hk
  · rw [goto_passed, List.count_cons_of_ne (Ne.symm hj)]
  · rw [goto_pc, Function.update_self, hpc]
    exact ⟨False.elim, fun h => hj h.symm⟩

/-- The place of the thread after `goto`. -/
theorem PcOk.goto {p : Pc} (h : match p with
    | .idle => True
    | .addRefLoad i | .addRef i _ | .dropRefLoad i | .dropRef i _ => Has w t i
    | .getShared _ => True
    | .tryAddRefLoad i _ => i < w.nextInst
    | .tryAddRef i _ r => i < w.nextInst ∧ r % 2 = 1
    | .pass i | .setNextPtr i _ _ | .link i => i < w.nextInst) : PcOk (w.goto t p) t := by
  unfold PcOk
  rw [goto_pc, Function.update_self]
  exact h

/-- The return from `try_add_ref` without a reference. -/
theorem stepped_tryAddRef_failed (hinv : Inv w) (hpc : ∀ j, ¬passing j (w.pc t))
    (cell : Option CellId) : Stepped w (w.tryAddRefDone t i cell false) := by
  have hlog : Stepped w (w.log (.tryAddRef t i false)) := by
    refine { inv := hinv.quiet (.log t w _) (hinv.pc t) (fun _ => rfl) (fun _ => rfl) rfl
               fun _ => .rfl
             logged := .inr ⟨.tryAddRef t i false, rfl, nofun⟩
             next := Nat.le_refl _
             kind := fun _ _ => rfl
             gone := fun _ _ h => h }
  have hdone : ∀ p, PcOk ((w.log (.tryAddRef t i false)).goto t p) t →
      (∀ j, ¬passing j p) → Stepped w ((w.log (.tryAddRef t i false)).goto t p) := by
    intro p hp hnone
    have hgoto : Stepped (w.log (.tryAddRef t i false)) ((w.log (.tryAddRef t i false)).goto t p) :=
      .goto hlog.inv hp fun j => ⟨fun h => absurd h (hnone j), fun h => absurd h (hpc j)⟩
    exact ⟨hgoto.inv, .inr ⟨.tryAddRef t i false, rfl, nofun⟩, Nat.le_refl _, fun _ _ => rfl,
      fun _ _ h => h⟩
  cases cell with
  | none => exact hdone .idle (.goto trivial) fun _ h => h
  | some l => exact hdone (.getShared l) (.goto trivial) fun _ h => h

/-- `try_add_ref` looks at the counter it has loaded. -/
theorem stepped_tryAddRefLoaded (hinv : Inv w) (hi : i < w.nextInst)
    (hpc : ∀ j, ¬passing j (w.pc t)) (cell : Option CellId) (r : Nat) :
    Stepped w (w.tryAddRefLoaded t i cell r) := by
  unfold tryAddRefLoaded
  split
  · rename_i hr
    exact .goto hinv (.goto ⟨hi, hr⟩) fun j => ⟨False.elim, fun h => absurd h (hpc j)⟩
  · exact stepped_tryAddRef_failed hinv hpc cell

/-- The bound on the number of handles: fewer than half of the values of the word. -/
def Few (bits : Nat) (w : World) : Prop := ∀ i, w.holders i < 2 ^ (bits - 1)

/-- The next access of a call. -/
theorem stepped_proceed (hinv : Inv w) (hfew : Few bits w) {spurious : Bool}
    (h : w.proceed bits t spurious = some w') : Stepped w w' := by
  have hok : PcOk w t := hinv.pc t
  unfold PcOk at hok
  unfold World.proceed at h
  -- An access either goes on without a change, or is one of the writes that have their own lemma.
  cases hpc : w.pc t with
  | idle =>
    rw [hpc] at h
    cases h
  | addRefLoad i =>
    rw [hpc] at h hok
    cases h
    exact .goto hinv (.goto hok) fun j => by rw [hpc]; exact .rfl
  | addRef i current =>
    rw [hpc] at h hok
    simp only at h
    -- The exchange succeeds if the counter is the one that was loaded.
    split at h
    · rename_i hc
      cases h
      rw [← hc.1]
      exact stepped_add hinv (hinv.handle _ hok.1) (hinv.odd_of_has hok) (hfew i)
        (fun j => by rw [hpc]; exact id) rfl (.inl rfl)
    · cases h
      exact .goto hinv (.goto hok) fun j => by rw [hpc]; exact .rfl
  | getShared cell =>
    rw [hpc] at h hok
    simp only at h
    split at h
    · cases h
    · rename_i p hword
      split at h
      · cases h
        exact .goto hinv (.goto trivial) fun j => by rw [hpc]; exact .rfl
      · rename_i i haddr
        cases h
        exact .goto hinv (.goto (hinv.cell cell p hword i haddr).1) fun j => by rw [hpc]; exact .rfl
  | tryAddRefLoad i cell =>
    rw [hpc] at h hok
    cases h
    exact stepped_tryAddRefLoaded hinv hok (fun j => by rw [hpc]; exact id) cell _
  | tryAddRef i cell r =>
    rw [hpc] at h hok
    simp only at h
    -- `try_add_ref` exchanges an odd counter only.
    split at h
    · rename_i hc
      cases h
      rw [← hc.1] at hok ⊢
      exact stepped_add hinv hok.1 hok.2 (hfew i) (fun j => by rw [hpc]; exact id) rfl (.inr rfl)
    · cases h
      exact stepped_tryAddRefLoaded hinv hok.1 (fun j => by rw [hpc]; exact id) cell _
  | dropRefLoad i =>
    rw [hpc] at h hok
    cases h
    exact .goto hinv (.goto hok) fun j => by rw [hpc]; exact .rfl
  | dropRef i current =>
    rw [hpc] at h hok
    simp only at h
    split at h
    · rename_i hc
      cases h
      rw [← hc.1]
      exact stepped_drop hinv hok (fun j => by rw [hpc]; exact id) rfl
    · cases h
      exact .goto hinv (.goto hok) fun j => by rw [hpc]; exact .rfl
  | pass i =>
    rw [hpc] at h
    cases h
  | setNextPtr i next collect =>
    rw [hpc] at h hok
    cases h
    refine .quiet hinv ((Frame.modify t w i _).trans (.goto t _ _)) ?_ (fun j => ?_) (fun _ => rfl)
      rfl (fun j => ?_) rfl
    · cases collect <;> exact .goto (by first | exact hok | trivial)
    · rw [goto_refCnt]
      by_cases hj : j = i
      · rw [hj, modify_refCnt_self, refCnt]
      · rw [modify_refCnt_of_ne _ _ _ hj]
    · rw [goto_pc, Function.update_self, hpc]
      cases collect <;> exact .rfl
  | link i =>
    rw [hpc] at h
    cases h
    exact stepped_link hinv hpc

/-- The exchange on a cell moves references only. -/
theorem stepped_exchange (hinv : Inv w) (hpc : w.pc t = .idle) {l : CellId} {prev : Ptr InstId}
    {new : Option InstId} (tag : Tag) (hword : w.word l = some prev)
    (hnew : new.all (w.ownsShared t) = true) : Stepped w (w.exchange t l prev new tag) := by
  have howns : ∀ k ∈ new, Has w t k := by
    intro k hk
    cases hk
    show (t, k) ∈ w.handles ∧ (w.instances k).kind = .shared
    simpa [ownsShared] using hnew
  have hpc' : (w.exchange t l prev new tag).pc t = w.pc t := by
    simp [exchange, setCell]
  have hinst : (w.exchange t l prev new tag).instances = w.instances := by
    simp [exchange, setCell]
  refine .quiet hinv (.exchange t w l tag (fun i hi => (hinv.cell l prev hword i hi).1)
    fun i hi => ⟨hinv.handle _ (howns i hi).1, (howns i hi).2⟩) ?_ (fun i => ?_)
    (fun i => holders_exchange hword fun k hk => (howns k hk).1) ?_ (fun i => by rw [hpc']) ?_
  · unfold PcOk
    rw [hpc', hpc]
    trivial
  · rw [refCnt, hinst, refCnt]
  · simp [exchange, setCell]
  · simp [exchange, setCell]

/-- A cell that is consumed gives its reference to the thread. -/
theorem stepped_consume (hinv : Inv w) (hpc : w.pc t = .idle) {l : CellId} {p : Ptr InstId}
    (hword : w.word l = some p) {q : Pc} (hq : PcOk (((w.setCell l none).give t p.addr).goto t q) t)
    (hnone : ∀ j, ¬passing j q) : Stepped w (((w.setCell l none).give t p.addr).goto t q) := by
  have hframe : Frame t w (((w.setCell l none).give t p.addr).goto t q) :=
    (Frame.setCell t w l (c := none) nofun).trans ((Frame.give t t (w.setCell l none) fun i hi =>
      (hinv.cell l p hword i hi).1).trans (.goto t _ _))
  refine .quiet hinv hframe hq (fun i => by simp [refCnt, setCell]) (fun i => ?_)
    (by simp [setCell]) (fun j => ?_) (by simp [setCell])
  · have hset := holders_setCell (i := i) hword none
    rw [goto_holders, holders_give, hset]
    rfl
  · rw [goto_pc, Function.update_self, hpc]
    exact ⟨fun h => absurd h (hnone j), False.elim⟩

/-- A thread has the handles that a call checks. -/
theorem has_of_owns (h : w.ownsShared t i = true) : Has w t i := by
  show (t, i) ∈ w.handles ∧ (w.instances i).kind = .shared
  simpa [ownsShared] using h

/-- A thread that runs user code knows nothing. -/
theorem PcOk.idle (h : w.pc t = .idle) : PcOk w t := by
  unfold PcOk
  rw [h]
  trivial

/-- A word in a list of cells with one more cell. -/
theorem mem_append_cell {cells : List (Option (Ptr InstId))} {l : CellId} {p q : Ptr InstId}
    (h : (cells ++ [some q])[l]? = some (some p)) : cells[l]? = some (some p) ∨ p = q := by
  by_cases hl : l < cells.length
  · rw [List.getElem?_append_left hl] at h
    exact .inl h
  · rw [List.getElem?_append_right (Nat.le_of_not_lt hl)] at h
    cases hk : l - cells.length with
    | zero =>
      rw [hk] at h
      cases h
      exact .inr rfl
    | succ k =>
      rw [hk] at h
      cases h

/-- A call of a thread that runs user code. -/
theorem stepped_call (hinv : Inv w) (hpc : w.pc t = .idle) {act : Act}
    (h : w.call t act = some w') : Stepped w w' := by
  have hnone : ∀ j, ¬passing j (w.pc t) := fun j => by rw [hpc]; exact id
  -- A call that only reads goes to its first access. The others change a word or move a handle.
  cases act with
  | proceed spurious => cases h
  | collect next => cases h
  | newShared =>
    cases h
    exact stepped_alloc hinv hpc (.inl rfl)
  | newUnique =>
    cases h
    exact stepped_alloc hinv hpc (.inr rfl)
  | «from» i =>
    obtain ⟨hown, h⟩ := Option.ite_none_right_eq_some.mp h
    cases h
    have hhas : Has w t i := has_of_owns hown
    refine .quiet (t := t) hinv ?_ (.idle hpc) (fun _ => rfl) (fun j => holders_from hhas.1) rfl
      (fun _ => .rfl) rfl
    exact { Frame.forget t w (some i) with
      cell := fun l p hp => (mem_append_cell (word_eq.mp hp)).imp word_eq.mpr fun hp k hk => by
        rw [hp] at hk
        cases hk
        exact ⟨hinv.handle _ hhas.1, hhas.2⟩ }
  | null =>
    cases h
    refine .quiet (t := t) hinv ?_ (.idle hpc) (fun _ => rfl) (fun j => ?_) rfl (fun _ => .rfl) rfl
    · exact { Frame.refl t w with
        cell := fun l p hp => (mem_append_cell (word_eq.mp hp)).imp word_eq.mpr fun hp k hk => by
          rw [hp] at hk
          cases hk }
    · simp [holders]
  | clone i =>
    obtain ⟨hown, h⟩ := Option.ite_none_right_eq_some.mp h
    cases h
    exact .goto hinv (.goto (has_of_owns hown)) fun j => by rw [hpc]; exact .rfl
  | getShared cell =>
    obtain ⟨p, hword, rfl⟩ := Option.map_eq_some_iff.mp h
    exact .goto hinv (.goto trivial) fun j => by rw [hpc]; exact .rfl
  | ptrGetShared i =>
    obtain ⟨hi, h⟩ := Option.ite_none_right_eq_some.mp h
    cases h
    exact .goto hinv (.goto hi) fun j => by rw [hpc]; exact .rfl
  | swap cell new tag =>
    obtain ⟨hnew, h⟩ := Option.ite_none_right_eq_some.mp h
    obtain ⟨prev, hword, rfl⟩ := Option.map_eq_some_iff.mp h
    exact stepped_exchange hinv hpc tag hword hnew
  | compareExchange cell current new tag spurious =>
    obtain ⟨hnew, h⟩ := Option.ite_none_right_eq_some.mp h
    obtain ⟨prev, hword, rfl⟩ := Option.map_eq_some_iff.mp h
    -- The comparison holds, or nothing changes.
    split
    · exact stepped_exchange hinv hpc tag hword hnew
    · exact .quiet (t := t) hinv (.refl t w) (hinv.pc t) (fun _ => rfl) (fun _ => rfl) rfl
        (fun _ => .rfl) rfl
  | updateTag cell tag =>
    obtain ⟨p, hword, rfl⟩ := Option.map_eq_some_iff.mp h
    refine .quiet hinv (.setCell t w cell fun q hq i hi => ?_) (hinv.pc t) (fun _ => rfl)
      (fun j => ?_) rfl (fun _ => .rfl) rfl
    · cases hq
      exact hinv.cell cell p hword i hi
    · have hset := holders_setCell (i := j) hword (some (p.withTag tag))
      have hrefs : cellRefs (some (p.withTag tag)) j = refs p.addr j := rfl
      omega
  | intoShared cell =>
    obtain ⟨p, hword, rfl⟩ := Option.map_eq_some_iff.mp h
    exact stepped_consume hinv hpc hword (.goto trivial) fun _ => id
  | dropAtomic cell =>
    obtain ⟨p, hword, rfl⟩ := Option.map_eq_some_iff.mp h
    cases haddr : p.addr with
    | none =>
      have hstep := stepped_consume hinv hpc hword (q := .idle) (.goto trivial) fun _ => id
      rwa [haddr] at hstep
    | some i =>
      have hstep := stepped_consume hinv hpc hword (q := .dropRefLoad i) (.goto ?_) fun _ => id
      · rwa [haddr] at hstep
      · rw [haddr]
        exact ⟨List.mem_cons_self, (hinv.cell cell p hword i haddr).2⟩
  | drop i =>
    obtain ⟨hown, h⟩ := Option.ite_none_right_eq_some.mp h
    cases h
    exact .goto hinv (.goto (has_of_owns hown)) fun j => by rw [hpc]; exact .rfl
  | release i =>
    obtain ⟨hown, h⟩ := Option.ite_none_right_eq_some.mp h
    cases h
    exact .goto hinv (.goto (has_of_owns hown)) fun j => by rw [hpc]; exact .rfl
  | dropOwned i =>
    obtain ⟨hown, h⟩ := Option.ite_none_right_eq_some.mp h
    cases h
    exact stepped_dropOwned hinv hpc hown.1 hown.2
  | send i receiver =>
    obtain ⟨hown, h⟩ := Option.ite_none_right_eq_some.mp h
    cases h
    -- The handle goes from one thread to another one.
    have hpc' : ((w.forget t (some i)).give receiver (some i)).pc t = .idle := by simp [hpc]
    refine .quiet hinv ((Frame.forget t w _).trans (.give t receiver _ fun k hk => ?_)) ?_
      (fun j => by simp [refCnt]) (fun j => ?_) (by simp) (fun j => by simp) (by simp)
    · cases hk
      exact hinv.handle _ hown
    · unfold PcOk
      rw [hpc']
      trivial
    · rw [holders_give]
      exact holders_forget fun k hk => by cases hk; exact hown
  | setNextPtr i next =>
    obtain ⟨hmem, h⟩ := Option.ite_none_right_eq_some.mp h
    cases h
    exact stepped_firstWord hinv (hinv.passed i hmem) (hinv.of_passed hmem).1 next
      (.goto (hinv.passed i hmem)) fun j => by rw [hpc]; exact .rfl

/-- Every action of a thread. -/
theorem stepped_step (hinv : Inv w) (hfew : Few bits w) {a : Action}
    (h : w.step bits a = some w') : Stepped w w' := by
  unfold step at h
  split at h
  · exact stepped_proceed hinv hfew h
  · rename_i next i _ hpc
    cases h
    have hpassing : passing i (w.pc a.tid) := by
      rw [hpc]
      rfl
    have hi : i < w.nextInst := (hinv.pc a.tid).lt_of_passing hpassing
    exact stepped_firstWord hinv hi (hinv.of_passing hi hpassing).1 next (.goto hi) fun j => by
      rw [hpc]
      exact .rfl
  · exact stepped_call hinv (by assumption) h
  · cases h

/-! ## Runs -/

/-- A run in which there are never too many handles. -/
abbrev FewRun (bits : Nat) : World → World → Prop :=
  Lib.Run (World.step bits) fun w _ => Few bits w

/-- Every state of a run has the invariant. -/
theorem inv_of_run (hrun : FewRun bits w w') (hinv : Inv w) : Inv w' :=
  hrun.invariant Inv hinv fun _ _ _ h hfew hs => (stepped_step h hfew hs).inv

/-- An instance that has lost its last handle never gets one again. -/
theorem gone_of_run (hrun : FewRun bits w w') (hinv : Inv w) (hi : i < w.nextInst)
    (hzero : w.holders i = 0) : i < w'.nextInst ∧ w'.holders i = 0 := by
  refine (hrun.invariant (fun x => Inv x ∧ i < x.nextInst ∧ x.holders i = 0)
    ⟨hinv, hi, hzero⟩ fun x a x' hx hfew hs => ?_).2
  have hstep := stepped_step hx.1 hfew hs
  exact ⟨hstep.inv, Nat.lt_of_lt_of_le hx.2.1 hstep.next, hstep.gone i hx.2.1 hx.2.2⟩

/-- An instance that was created by `new_unique` stays one. -/
theorem unique_of_run (hrun : FewRun bits w w') (hinv : Inv w) (hi : i < w.nextInst)
    (hkind : (w.instances i).kind = .unique) :
    i < w'.nextInst ∧ (w'.instances i).kind = .unique := by
  refine (hrun.invariant (fun x => Inv x ∧ i < x.nextInst ∧ (x.instances i).kind = .unique)
    ⟨hinv, hi, hkind⟩ fun x a x' hx hfew hs => ?_).2
  have hstep := stepped_step hx.1 hfew hs
  exact ⟨hstep.inv, Nat.lt_of_lt_of_le hx.2.1 hstep.next, (hstep.kind i hx.2.1).trans hx.2.2⟩

/-- Every `try_add_ref` on the instance, wherever it stands, returns `false` at its next
access. -/
def TryAddRefFails (bits : Nat) (w : World) (i : InstId) : Prop :=
  ∀ t cell spurious,
    (w.pc t = .tryAddRefLoad i cell ∨ ∃ r, w.pc t = .tryAddRef i cell r) →
      w.proceed bits t spurious = some (w.tryAddRefDone t i cell false)

/-- An even word lets every `try_add_ref` fail. A compare-and-exchange that is still to
come expects an odd word. -/
theorem tryAddRefFails_of_even (hinv : Inv w) (heven : w.refCnt i % 2 = 0) :
    TryAddRefFails bits w i := by
  have hload : ∀ t cell, w.tryAddRefLoaded t i cell (w.refCnt i) =
      w.tryAddRefDone t i cell false := fun t cell => if_neg (by omega)
  rintro t cell spurious (hpc | ⟨r, hpc⟩)
  · simp only [World.proceed, hpc, hload]
  · have hok := hinv.pc t
    unfold PcOk at hok
    rw [hpc] at hok
    have hne : ¬(w.refCnt i = r ∧ spurious = false) := fun h => by
      have hodd : r % 2 = 1 := hok.2
      omega
    simp only [World.proceed, hpc, if_neg hne, hload]

/-- In every run with fewer than `2 ^ (bits - 1)` handles of one instance, in every state and
for every instance that exists there: with `n ≥ 1` strong handles the counter is `2n - 1`; a
`drop_ref` that returns removed one handle, and it returned `true` exactly when it was the
last one; the instance is passed to the collector at most once, only without handles, and
without handles it has been passed unless a thread is just doing so; from the moment it has
no handles on, it never has one again and every `try_add_ref` fails, whatever is written to
the word; and on an instance of `new_unique` every `try_add_ref` fails. -/
theorem reference_counting (hrun : FewRun bits init w) (hi : i < w.nextInst) :
    ((w.instances i).kind = .shared → 0 < w.holders i → w.refCnt i = 2 * w.holders i - 1) ∧
    (∀ a w' t last, Few bits w → w.step bits a = some w' →
      w'.events = .dropRef t i last :: w.events →
        w.holders i = w'.holders i + 1 ∧ (last = true ↔ w'.holders i = 0)) ∧
    w.passed.count i ≤ 1 ∧
    (i ∈ w.passed → w.holders i = 0) ∧
    (w.holders i = 0 → (∀ t, ¬passing i (w.pc t)) → w.passed.count i = 1) ∧
    (w.holders i = 0 → ∀ w', FewRun bits w w' → w'.holders i = 0 ∧ TryAddRefFails bits w' i) ∧
    ((w.instances i).kind = .unique → ∀ w', FewRun bits w w' → TryAddRefFails bits w' i) := by
  have hinv : Inv w := inv_of_run hrun inv_init
  have hok : InstOk w i := hinv.inst i hi
  refine ⟨hok.counted, ?_, ?_, fun h => (hinv.of_passed h).1, ?_, ?_, ?_⟩
  -- Only `drop_ref` records a release.
  · intro a w' t last hfew hs he
    rcases (stepped_step hinv hfew hs).logged with h | ⟨e, h, hright⟩
    · rw [h] at he
      exact absurd (congrArg List.length he) (by simp)
    · rw [he] at h
      cases h
      exact hright
  -- An instance is passed once, after its last handle.
  · rcases Nat.eq_zero_or_pos (w.holders i) with hz | hpos
    · rcases hok.released hz with h | h
      · exact Nat.le_of_eq h.1
      · rw [h.1]
        exact Nat.zero_le 1
    · rw [(hok.held hpos).1]
      exact Nat.zero_le 1
  · intro hz hnone
    rcases hok.released hz with h | ⟨_, t, ht, _⟩
    · exact h.1
    · exact absurd ht (hnone t)
  -- Without handles the counter is even and stays so, and `try_add_ref` fails.
  · intro hz w' hr
    obtain ⟨hi', hz'⟩ := gone_of_run hr hinv hi hz
    have hinv' : Inv w' := inv_of_run hr hinv
    exact ⟨hz', tryAddRefFails_of_even hinv' ((hinv'.inst i hi').even (.inr hz'))⟩
  · intro hk w' hr
    obtain ⟨hi', hk'⟩ := unique_of_run hr hinv hi hk
    have hinv' : Inv w' := inv_of_run hr hinv
    exact tryAddRefFails_of_even hinv' ((hinv'.inst i hi').even (.inl hk'))

/-- No more handles than there are entries in the two lists. -/
theorem few_of_length (h : w.handles.length + w.cells.length < 2 ^ (bits - 1)) : Few bits w :=
  fun _ => Nat.lt_of_le_of_lt
    (Nat.add_le_add List.countP_le_length List.countP_le_length) h

/-- A handle is cloned and moved into an atomic pointer, a second thread takes a reference
from there while the first one drops its own, and the last `drop_ref` passes the instance
on. -/
theorem reference_counting_retired :
    ∃ w, FewRun 64 init w ∧ w.passed = [0] ∧
      w.events = [.dropRef 1 0 true, .dropRef 0 0 false, .dropRef 0 0 false, .tryAddRef 1 0 true] ∧
      ∀ w', FewRun 64 w w' → w'.holders 0 = 0 ∧ TryAddRefFails 64 w' 0 := by
  have hexec : (Lib.exec (World.step 64)
      (fun x _ => decide (x.handles.length + x.cells.length < 2 ^ (64 - 1))) init
      [⟨0, .newShared⟩, ⟨0, .clone 0⟩, ⟨0, .proceed false⟩, ⟨0, .proceed true⟩,
        ⟨0, .proceed false⟩, ⟨0, .from 0⟩, ⟨1, .getShared 0⟩, ⟨1, .proceed false⟩,
        ⟨1, .proceed false⟩, ⟨0, .drop 0⟩, ⟨0, .proceed false⟩, ⟨1, .proceed false⟩,
        ⟨0, .proceed false⟩, ⟨0, .proceed false⟩, ⟨0, .dropAtomic 0⟩, ⟨0, .proceed false⟩,
        ⟨0, .proceed false⟩, ⟨1, .release 0⟩, ⟨1, .proceed false⟩, ⟨1, .proceed false⟩,
        ⟨1, .collect none⟩, ⟨1, .proceed false⟩, ⟨1, .proceed false⟩]).any
      (fun x => x.passed = [0] ∧ x.nextInst = 1 ∧ x.holders 0 = 0 ∧ x.events =
        [.dropRef 1 0 true, .dropRef 0 0 false, .dropRef 0 0 false, .tryAddRef 1 0 true]) = true := by
    decide +kernel
  obtain ⟨w, hrun, hw⟩ := Lib.Run.of_exec_any hexec
  obtain ⟨hpassed, hnext, hzero, hevents⟩ := of_decide_eq_true hw
  have hfew : FewRun 64 init w := hrun.mono fun x _ hx => few_of_length (of_decide_eq_true hx)
  exact ⟨w, hfew, hpassed, hevents,
    (reference_counting hfew (by rw [hnext]; exact Nat.one_pos)).2.2.2.2.2.1 hzero⟩

end Sdd.Proofs.RefCounted
