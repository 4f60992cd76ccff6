import Sdd.Proofs.Queue.PushIf

/-!
# `Sdd.Proofs.Queue.Empty`: `is_empty` and the contents

`is_empty` reads `newest` only. A pusher writes `newest` after it has attached its entry, and
a thread that has set `oldest` to null resets it. `Roots` is what holds in every run:

* `newest` is null when `oldest` is, or some thread is about to reset it;
* when `oldest` refers to a deleted entry, the thread that has deleted it is cleaning up;
* behind `oldest` no entry is deleted.

`Pushing` is what is needed in addition: `oldest` is null when `newest` is, or some thread is
about to set `newest`. It holds when null is written to `newest` only while `oldest` is null,
and then `isEmpty_agrees` is the result. `isEmpty_differs` is a run in which a thread resets
`newest` late, after another one has attached an entry.
-/

set_option autoImplicit false

namespace Sdd.Proofs.Queue

open Sdd.Lib Sdd.Lib.Linearize Sdd.Queue

variable {T : Type} {n : Nat}

/-- A thread that resets `newest`, or looks whether it has to. -/
def Resets : Pc T → Prop
  | .checkOldest _ _ | .resetNewest _ _ | .cleanReset _ => True
  | _ => False

/-- A thread that has deleted `x` and cleans up, as long as `oldest` refers to `x`. -/
def Deletes (x : Addr) : Pc T → Prop
  | .cleanLoad (.popped _ e) => e = x
  | .cleanDeleted (.popped _ e) y | .cleanNext (.popped _ e) y _
  | .cleanExchange (.popped _ e) y _ => e = x ∧ y = x
  | _ => False

/-- The next step of the thread writes null to `newest`. -/
def writesNull (w : World T n) (t : Fin n) : Bool :=
  match w.pc t with
  | .resetNewest _ _ | .cleanReset _ => true
  | _ => false

/-- Who will write the two words of the queue when they are not what they should be. -/
structure Roots (w : World T n) : Prop where
  newest : w.oldest = none → w.newest ≠ none → ∃ t, Resets (w.pc t)
  oldest : ∀ x, w.oldest = some x → w.heap.isDeleted x = true → ∃ t, Deletes x (w.pc t)
  behind : ∀ x y, w.oldest = some x → y ∈ w.attached → w.heap.isDeleted y = true →
    w.attached.idxOf y ≤ w.attached.idxOf x

/-- `newest` is not null when `oldest` is not, or a thread is about to set it. -/
def Pushing (w : World T n) : Prop :=
  w.oldest ≠ none → w.newest = none → ∃ t p e, w.pc t = .swapNewest p e

/-- What the step of the thread `t` does to `oldest` and `newest`, as far as `Pushing` is
concerned. -/
structure Words (w : World T n) (t : Fin n) (w' : World T n) : Prop where
  newest : w'.newest = none → w.newest = none ∨ writesNull w t = true
  oldest : w'.oldest ≠ none → w.oldest ≠ none ∨ ∃ p e, w'.pc t = .swapNewest p e
  swap : ∀ p e, w.pc t = .swapNewest p e → w'.newest ≠ none
  null : writesNull w t = true → w'.oldest = w.oldest
  pc : ∀ u, u ≠ t → w'.pc u = w.pc u

/-- The places at which a thread is needed. -/
def Needed (pc : Pc T) : Prop :=
  Resets pc ∨ (∃ x, Deletes x pc) ∨ ∃ p e, pc = .swapNewest p e

/-- A walk of the thread `t` writes nothing of the queue. -/
structure Walked (w : World T n) (t : Fin n) (w' : World T n) : Prop where
  oldest : w'.oldest = w.oldest
  newest : w'.newest = w.newest
  attached : w'.attached = w.attached
  deleted : w'.heap.isDeleted = w.heap.isDeleted
  pc : ∀ u, u ≠ t → w'.pc u = w.pc u

section walk

variable {w w' : World T n} {t : Fin n} {p : Push T} {k : Clean T} {o : Option Addr}

/-- A thread goes to another place of its walk. -/
theorem walked_goto (pc : Pc T) : Walked w t (w.goto t pc) :=
  ⟨rfl, rfl, rfl, rfl, fun _ hu => Function.update_of_ne hu _ _⟩

/-- An operation returns. -/
theorem walked_finish (op : Op T) (res : Res) : Walked w t (w.finish t op res) :=
  ⟨rfl, rfl, rfl, rfl, fun _ hu => Function.update_of_ne hu _ _⟩

/-- The condition is asked. -/
theorem walked_evaluate : Walked w t (w.evaluate t p o) := by
  unfold World.evaluate
  split
  · split
    · exact walked_goto _
    · exact ⟨rfl, rfl, rfl, rfl, fun _ hu => Function.update_of_ne hu _ _⟩
  · exact walked_finish _ _

/-- The traversal goes on, or the condition is asked. -/
theorem walked_traverse : Walked w t (w.traverse t p o) := by
  unfold World.traverse
  split
  · exact walked_evaluate
  · exact walked_goto _

/-- The same after an access of the traversal. -/
theorem walked_traversed {current : Addr} {out : Outcome NextPtr (Ptr Addr)} :
    Walked w t (w.traversed t p current out) := by
  unfold World.traversed
  split
  · exact walked_goto _
  · split
    · exact walked_evaluate
    · exact walked_goto _

/-- The condition of a pop is asked. -/
theorem walked_popIf {cond : T → Bool} : Walked w t (w.popIf t cond o) := by
  unfold World.popIf
  split
  · exact walked_finish _ _
  · exact walked_goto _

/-- A peek ends, or goes on to the next entry. -/
theorem walked_peek : Walked w t (w.peek t o) := by
  unfold World.peek
  split
  · exact walked_finish _ _
  · exact walked_goto _

/-- What comes after a clean-up. -/
theorem walked_cleaned : Walked w t (w.cleaned t k o) := by
  unfold World.cleaned
  cases k with
  | popped cond e => exact walked_finish _ _
  | retry cond => exact walked_popIf
  | peek => exact walked_peek
  | push p => exact walked_traverse
  | iter => exact walked_finish _ _

/-- A thread that does not set `newest` leaves the words as they are. -/
theorem Walked.words (hw : Walked w t w') (ht : ∀ p e, w.pc t ≠ .swapNewest p e) :
    Words w t w' where
  newest hnone := .inl (hw.newest ▸ hnone)
  oldest hsome := .inl (hw.oldest ▸ hsome)
  swap p e hpc := absurd hpc (ht p e)
  null _ := hw.oldest
  pc := hw.pc

/-- The thread `t` moves. Where a thread is needed, it is `t` at its new place, or one was
needed before and it was not `t`. -/
theorem Roots.of (h : Roots w) (hw : Words w t w')
    (hnewest : w'.oldest = none → w'.newest ≠ none →
      Resets (w'.pc t) ∨ w.oldest = none ∧ w.newest ≠ none ∧ ¬Resets (w.pc t))
    (holdest : ∀ x, w'.oldest = some x → w'.heap.isDeleted x = true → Deletes x (w'.pc t) ∨
      w.oldest = some x ∧ w.heap.isDeleted x = true ∧ ¬Deletes x (w.pc t))
    (hbehind : ∀ x y, w'.oldest = some x → y ∈ w'.attached → w'.heap.isDeleted y = true →
      w'.attached.idxOf y ≤ w'.attached.idxOf x) : Roots w' ∧ Words w t w' := by
  refine ⟨⟨?_, ?_, hbehind⟩, hw⟩
  · intro hold hnew
    rcases hnewest hold hnew with ht | ⟨hold, hnew, ht⟩
    · exact ⟨t, ht⟩
    -- The pending thread is another one than t, and t alone has moved.
    · obtain ⟨u, hu⟩ := h.newest hold hnew
      have hut : u ≠ t := fun hc => ht (hc ▸ hu)
      exact ⟨u, by rw [hw.pc u hut]; exact hu⟩
  · intro x hold hdead
    rcases holdest x hold hdead with ht | ⟨hold, hdead, ht⟩
    · exact ⟨t, ht⟩
    -- The same for the deleted entry that oldest refers to.
    · obtain ⟨u, hu⟩ := h.oldest x hold hdead
      have hut : u ≠ t := fun hc => ht (hc ▸ hu)
      exact ⟨u, by rw [hw.pc u hut]; exact hu⟩

/-- Nothing of the queue is written. The thread that moves must not be needed, or stay at
such a place. -/
theorem Roots.walked (h : Roots w) (hw : Walked w t w')
    (ht : ∀ p e, w.pc t ≠ .swapNewest p e)
    (hresets : Resets (w.pc t) → w.oldest = none → w.newest ≠ none → Resets (w'.pc t))
    (hdeletes : ∀ x, Deletes x (w.pc t) → w.oldest = some x → w.heap.isDeleted x = true →
      Deletes x (w'.pc t)) : Roots w' ∧ Words w t w' := by
  refine h.of (hw.words ht) ?_ ?_ ?_
  · intro hold hnew
    rw [hw.oldest] at hold
    rw [hw.newest] at hnew
    -- Either t is the thread that the null newest waits for, or another one still is.
    by_cases ht : Resets (w.pc t)
    · exact .inl (hresets ht hold hnew)
    · exact .inr ⟨hold, hnew, ht⟩
  · intro x hold hdead
    rw [hw.oldest] at hold
    rw [hw.deleted] at hdead
    -- The same for the deleted entry that oldest refers to.
    by_cases ht : Deletes x (w.pc t)
    · exact .inl (hdeletes x ht hold hdead)
    · exact .inr ⟨hold, hdead, ht⟩
  · rw [hw.oldest, hw.attached, hw.deleted]
    exact h.behind

/-- The thread that moves is not needed. -/
theorem Roots.free (h : Roots w) (hw : Walked w t w') (hneed : ¬Needed (w.pc t)) :
    Roots w' ∧ Words w t w' := by
  refine h.walked hw (fun p e hc => ?_) (fun hc => absurd (.inl hc) hneed) fun x hc => ?_
  · exact hneed (.inr (.inr ⟨p, e, hc⟩))
  · exact absurd (.inr (.inl ⟨x, hc⟩)) hneed

end walk

section step

variable {w w' : World T n} {tgt : Addr → Option Addr} {t : Fin n}

/-- The walk after a clean-up of a link. -/
theorem Walked.clean {h' : Heap T} (hc : Cleans (view w tgt) w.heap h')
    (hw : Walked { w with heap := h' } t w') : Walked w t w' :=
  ⟨hw.oldest, hw.newest, hw.attached, hw.deleted.trans hc.isDeleted_eq, hw.pc⟩

/-- An entry is attached: it comes last. -/
theorem attach_roots (h : Inv w tgt) (hr : Roots w) {p : Push T} {e : Addr}
    {newest : Option Addr} (hpc : w.pc t = .attach p e newest) :
    Roots (w.attach t p e newest) ∧ Words w t (w.attach t p e newest) := by
  have hok := h.ok t
  rw [hpc] at hok
  obtain ⟨hp, hentry, hmem, -⟩ := hok
  obtain ⟨-, hnot, -⟩ := hp e hentry
  have hlive := not_isDeleted_of_unattached h.shared hnot
  -- A push that attaches owes neither of the two repairs.
  have hneed : ¬Needed (w.pc t) := by simp [hpc, Needed, Resets, Deletes]
  have hresets : ¬Resets (w.pc t) := fun hc => hneed (.inl hc)
  have hdeletes : ∀ x, ¬Deletes x (w.pc t) := fun x hc => hneed (.inr (.inl ⟨x, hc⟩))
  -- The new entry is live, so what is deleted was attached before.
  have hmemold : ∀ y, y ∈ w.attached ++ [e] → w.heap.isDeleted y = true → y ∈ w.attached := by
    intro y hy hdead
    rcases List.mem_append.mp hy with hy | hy
    · exact hy
    · rw [List.mem_singleton.mp hy, hlive] at hdead
      cases hdead
  unfold World.attach
  split
  · rename_i l
    split
    · rename_i hnull
      have hdel : (w.heap.setLink l ⟨some e, .none⟩).isDeleted = w.heap.isDeleted :=
        isDeleted_link hnull
      refine hr.of (t := t) ⟨.inl, .inl, fun p e => by simp [hpc], fun _ => rfl,
        fun u hu => Function.update_of_ne hu _ _⟩ ?_ ?_ ?_
      · exact fun hold hnew => .inr ⟨hold, hnew, hresets⟩
      · intro x hold hdead
        change (w.heap.setLink l ⟨some e, .none⟩).isDeleted x = true at hdead
        rw [hdel] at hdead
        exact .inr ⟨hold, hdead, hdeletes x⟩
      · intro x y hold hy hdead
        change (w.heap.setLink l ⟨some e, .none⟩).isDeleted y = true at hdead
        rw [hdel] at hdead
        have hy := hmemold y hy hdead
        show (w.attached ++ [e]).idxOf y ≤ (w.attached ++ [e]).idxOf x
        -- An entry at the end does not change the positions of the others.
        rw [List.idxOf_append_of_mem hy, List.idxOf_append_of_mem (h.shared.roots x (.inl hold)).1]
        exact hr.behind x y hold hy hdead
    · split
      · exact hr.free (walked_goto _) hneed
      · split
        · exact hr.free (walked_goto _) hneed
        · exact hr.free walked_traverse hneed
  · split
    · refine hr.of (t := t) ⟨.inl, fun _ => .inr ⟨p, e, Function.update_self t _ _⟩,
        fun p e => by simp [hpc], fun hc => by simp [writesNull, hpc] at hc,
        fun u hu => Function.update_of_ne hu _ _⟩ ?_ ?_ ?_
      -- The exchange on oldest: the list was empty, and its one entry is live.
      · intro hold
        cases hold
      · intro x hold hdead
        have hex : e = x := Option.some.inj hold
        change w.heap.isDeleted x = true at hdead
        rw [← hex, hlive] at hdead
        cases hdead
      · intro x y hold hy hdead
        have hex : e = x := Option.some.inj hold
        have hbefore : (view { w with attached := w.attached ++ [e] } tgt).before y e :=
          before_new hnot (hmemold y hy hdead)
        rw [← hex]
        exact Nat.le_of_lt hbefore.2.2
    · exact hr.free walked_traverse hneed

/-- `oldest` moves past a deleted entry, to one that is not deleted. -/
theorem cleanExchange_roots (h : Inv w tgt) (hr : Roots w) {k : Clean T} {x : Addr}
    {next : Option Addr} (hpc : w.pc t = .cleanExchange k x next) :
    Roots (w.cleanExchange t k x next) ∧ Words w t (w.cleanExchange t k x next) := by
  have hok := h.ok t
  rw [hpc] at hok
  obtain ⟨-, -, -, hret⟩ := hok
  unfold World.cleanExchange
  split
  · rename_i hold
    split
    · refine hr.of (t := t) ⟨.inl, fun hc => absurd rfl hc, fun p e => by simp [hpc],
        fun hc => by simp [writesNull, hpc] at hc, fun u hu => Function.update_of_ne hu _ _⟩ ?_ ?_ ?_
      · intro _ _
        refine .inl ?_
        show Resets (Function.update w.pc t (.cleanReset k) t)
        rw [Function.update_self]
        exact trivial
      · intro y hy
        cases hy
      · intro y z hy
        cases hy
    · rename_i z
      have hz := hret.att z rfl
      have hlt : w.attached.idxOf x < w.attached.idxOf z := hz.2.2.2
      have hwalk : Walked { w with oldest := some z } t
          ({ w with oldest := some z }.cleaned t k (some z)) := walked_cleaned
      refine hr.of ⟨fun hnone => .inl (hwalk.newest ▸ hnone), fun _ => .inl (by simp [hold]),
        fun p e => by simp [hpc], fun hc => by simp [writesNull, hpc] at hc, hwalk.pc⟩ ?_ ?_ ?_
      · intro hnone
        rw [hwalk.oldest] at hnone
        cases hnone
      · intro y hy hdead
        rw [hwalk.oldest] at hy
        rw [hwalk.deleted] at hdead
        have hzy : z = y := Option.some.inj hy
        -- An entry behind `oldest` is not deleted.
        have hle := hr.behind x z hold hz.1 (hzy ▸ hdead)
        omega
      · intro y u hy hu hdead
        rw [hwalk.oldest] at hy
        rw [hwalk.attached] at hu ⊢
        rw [hwalk.deleted] at hdead
        have hzy : z = y := Option.some.inj hy
        have hle := hr.behind x u hold hu hdead
        rw [← hzy]
        exact Nat.le_trans hle (Nat.le_of_lt hlt)
  · rename_i hold
    refine hr.walked walked_cleaned (fun p e => by simp [hpc]) (fun hc => ?_) fun y hc hy => ?_
    · rw [hpc] at hc
      cases hc
    · rw [hpc] at hc
      cases k with
      | popped cond e =>
        obtain ⟨-, rfl⟩ := hc
        exact absurd hy hold
      | _ => cases hc

/-- The entry that is deleted is the oldest one. -/
theorem popDelete_roots (h : Inv w tgt) (hr : Roots w) {cond : T → Bool} {x : Addr}
    (hpc : w.pc t = .popDelete cond x) :
    Roots (w.popDelete t cond x) ∧ Words w t (w.popDelete t cond x) := by
  have hok := h.ok t
  rw [hpc] at hok
  obtain ⟨-, hold, -⟩ := hok
  have hneed : ¬Needed (w.pc t) := by simp [hpc, Needed, Resets, Deletes]
  have hresets : ¬Resets (w.pc t) := fun hc => hneed (.inl hc)
  have hdeletes : ∀ y, ¬Deletes y (w.pc t) := fun y hc => hneed (.inr (.inl ⟨y, hc⟩))
  unfold World.popDelete
  cases hlive : w.heap.isDeleted x with
  | false =>
    -- An entry that a pop deletes for the first time is the one oldest refers to.
    have hold : w.oldest = some x := by
      rcases hold with hdead | hold
      · rw [hlive] at hdead
        cases hdead
      · exact hold
    have hdel := isDeleted_deleteSelf hlive
    rw [deleteSelf_eq hlive] at hdel ⊢
    refine hr.of (t := t) ⟨.inl, .inl, fun p e => by simp [hpc], fun _ => rfl,
      fun u hu => Function.update_of_ne hu _ _⟩ ?_ ?_ ?_
    · exact fun hold hnew => .inr ⟨hold, hnew, hresets⟩
    · intro y hy _
      have hxy : x = y := Option.some.inj (hold.symm.trans hy)
      refine .inl ?_
      -- The popper goes on to clean up, so it is the thread that the deleted entry waits for.
      show Deletes y (Function.update w.pc t (.cleanLoad (.popped cond x)) t)
      rw [Function.update_self]
      exact hxy
    · intro y z hy hz hdead
      have hxy : x = y := Option.some.inj (hold.symm.trans hy)
      -- What was deleted before stands no further back than before.
      by_cases hzx : z = x
      · exact Nat.le_of_eq (by rw [hzx, hxy])
      · change (w.heap.setLink x ((w.heap.link x).withTag .second)).isDeleted z = true at hdead
        rw [hdel, Function.update_of_ne hzx] at hdead
        exact hr.behind y z hy hz hdead
  | true =>
    rw [deleteSelf_dead hlive]
    exact hr.free (walked_goto _) hneed

/-- A step of a call keeps `Roots`. -/
theorem proceed_roots (h : Inv w tgt) (hr : Roots w) (hw : w.proceed t = some w') :
    Roots w' ∧ Words w t w' := by
  have hok := h.ok t
  have hheld := h.held t
  unfold World.proceed at hw
  cases hpc : w.pc t with
  | idle =>
    rw [hpc] at hw
    cases hw
  | loadNewest p =>
    rw [hpc] at hw
    have hfree : ∀ {w'}, Walked w t w' → Roots w' ∧ Words w t w' := fun hwalk =>
      hr.free hwalk (by simp [hpc, Needed, Resets, Deletes])
    simp only at hw
    split at hw
    · cases hw
      exact hfree (walked_goto _)
    · cases hw
      exact hfree walked_traverse
  | loadOldest p =>
    rw [hpc] at hw
    cases hw
    exact hr.free walked_traverse (by simp [hpc, Needed, Resets, Deletes])
  | traverse p current call =>
    rw [hpc] at hw hok hheld
    cases hw
    have hclean := nextPtr_cleans hok.2.2 fun x hx => hheld x (by simp [Pc.holds, hx])
    exact hr.free (walked_traversed.clean hclean) (by simp [hpc, Needed, Resets, Deletes])
  | attach p e newest =>
    rw [hpc] at hw
    cases hw
    exact attach_roots h hr hpc
  | swapNewest p e =>
    rw [hpc] at hw
    cases hw
    refine hr.of (t := t) ⟨(fun hc => by cases hc), .inl, (fun p e _ hc => by cases hc),
      fun _ => rfl, fun u hu => Function.update_of_ne hu _ _⟩ ?_ ?_ hr.behind
    · intro _ _
      refine .inl ?_
      -- newest is set now, so from here on the push may have to take it back.
      show Resets (Function.update w.pc t (.checkOldest p e) t)
      rw [Function.update_self]
      exact trivial
    · exact fun x hold hdead => .inr ⟨hold, hdead, by rw [hpc]; exact id⟩
  | checkOldest p e =>
    rw [hpc] at hw
    simp only at hw
    split at hw
    · cases hw
      refine hr.walked (walked_goto _) (fun p e => by simp [hpc]) (fun _ _ _ => ?_) fun x hc => ?_
      -- oldest is null: the push is on its way to the reset.
      · show Resets (Function.update w.pc t (.resetNewest p e) t)
        rw [Function.update_self]
        exact trivial
      · rw [hpc] at hc
        cases hc
    · rename_i hold
      cases hw
      -- oldest is not null, so there is nothing to take back.
      refine hr.walked (walked_finish _ _) (fun p e => by simp [hpc])
        (fun _ hnone => absurd hnone hold) fun x hc => ?_
      rw [hpc] at hc
      cases hc
  | resetNewest p e =>
    rw [hpc] at hw
    cases hw
    refine hr.of (t := t) ⟨fun _ => .inr (by simp [writesNull, hpc]), .inl,
      fun p e => by simp [hpc], fun _ => rfl, fun u hu => Function.update_of_ne hu _ _⟩ ?_ ?_ hr.behind
    -- newest is null after the reset, so nothing waits for it.
    · exact fun _ hnew => absurd rfl hnew
    · exact fun x hold hdead => .inr ⟨hold, hdead, by rw [hpc]; exact id⟩
  | cleanLoad k =>
    rw [hpc] at hw
    simp only at hw
    split at hw
    · rename_i hnone
      cases hw
      refine hr.walked walked_cleaned (fun p e => by simp [hpc]) (fun hc => ?_) fun x _ hold => ?_
      · rw [hpc] at hc
        cases hc
      · rw [hnone] at hold
        -- oldest is null, so no deleted entry waits in it.
        cases hold
    · rename_i x hx
      cases hw
      refine hr.walked (walked_goto _) (fun p e => by simp [hpc]) (fun hc => ?_) fun y hc hold _ => ?_
      · rw [hpc] at hc
        cases hc
      · rw [hpc] at hc
        have hxy : x = y := Option.some.inj (hx.symm.trans hold)
        -- The walk of the clean-up begins at the deleted entry itself.
        show Deletes y (Function.update w.pc t (.cleanDeleted k x) t)
        rw [Function.update_self]
        cases k with
        | popped cond e => exact ⟨hc, hxy⟩
        | _ => cases hc
  | cleanDeleted k x =>
    rw [hpc] at hw
    simp only at hw
    split at hw
    · cases hw
      refine hr.walked (walked_goto _) (fun p e => by simp [hpc]) (fun hc => ?_) fun y hc _ _ => ?_
      · rw [hpc] at hc
        cases hc
      · rw [hpc] at hc
        show Deletes y (Function.update w.pc t (.cleanNext k x (.start x)) t)
        rw [Function.update_self]
        cases k with
        | popped cond e => exact hc
        | _ => cases hc
    · rename_i hlive
      cases hw
      refine hr.walked walked_cleaned (fun p e => by simp [hpc]) (fun hc => ?_) fun y hc _ hdead => ?_
      · rw [hpc] at hc
        cases hc
      · rw [hpc] at hc
        cases k with
        | popped cond e =>
          obtain ⟨-, rfl⟩ := hc
          -- The entry found is live, so it does not wait for anybody.
          exact absurd hdead hlive
        | _ => cases hc
  | cleanNext k x call =>
    rw [hpc] at hw hok hheld
    cases hw
    have hclean := nextShared_cleans hok.2.2.2 fun y hy => hheld y (by simp [Pc.holds, hy])
    have hnot : ¬Resets (w.pc t) := by rw [hpc]; exact id
    unfold World.cleanNext
    split
    · rename_i call' heq
      refine hr.walked ((walked_goto _).clean hclean) (fun p e => by simp [hpc])
        (fun hc => absurd hc hnot) fun y hc _ _ => ?_
      rw [hpc] at hc
      -- The walk goes on for the same entry.
      show Deletes y (Function.update w.pc t (.cleanNext k x call') t)
      rw [Function.update_self]
      cases k with
      | popped cond e => exact hc
      | _ => cases hc
    · rename_i next heq
      refine hr.walked ((walked_goto _).clean hclean) (fun p e => by simp [hpc])
        (fun hc => absurd hc hnot) fun y hc _ _ => ?_
      rw [hpc] at hc
      show Deletes y (Function.update w.pc t (.cleanExchange k x next) t)
      rw [Function.update_self]
      cases k with
      | popped cond e => exact hc
      | _ => cases hc
  | cleanExchange k x next =>
    rw [hpc] at hw
    cases hw
    exact cleanExchange_roots h hr hpc
  | cleanReset k =>
    rw [hpc] at hw
    cases hw
    have hwalk : Walked { w with newest := none } t ({ w with newest := none }.cleaned t k none) :=
      walked_cleaned
    refine hr.of ⟨fun _ => .inr (by simp [writesNull, hpc]), fun hc => .inl (hwalk.oldest ▸ hc),
      fun p e => by simp [hpc], fun _ => hwalk.oldest, hwalk.pc⟩ ?_ ?_ ?_
    -- newest is null after the reset, so nothing waits for it.
    · exact fun _ hnew => absurd hwalk.newest hnew
    · intro x hold hdead
      rw [hwalk.oldest] at hold
      rw [hwalk.deleted] at hdead
      exact .inr ⟨hold, hdead, by rw [hpc]; exact id⟩
    · rw [hwalk.oldest, hwalk.attached, hwalk.deleted]
      exact hr.behind
  | popLoad cond =>
    rw [hpc] at hw
    cases hw
    exact hr.free walked_popIf (by simp [hpc, Needed, Resets, Deletes])
  | popGetShared cond x =>
    rw [hpc] at hw
    have hfree : ∀ {w'}, Walked w t w' → Roots w' ∧ Words w t w' := fun hwalk =>
      hr.free hwalk (by simp [hpc, Needed, Resets, Deletes])
    simp only at hw
    split at hw
    · cases hw
      exact hfree (walked_goto _)
    · cases hw
      exact hfree (walked_goto _)
  | popDeleted cond x =>
    rw [hpc] at hw
    have hfree : ∀ {w'}, Walked w t w' → Roots w' ∧ Words w t w' := fun hwalk =>
      hr.free hwalk (by simp [hpc, Needed, Resets, Deletes])
    cases hw
    unfold World.popDeleted
    split
    · exact hfree (walked_finish _ _)
    · exact hfree (walked_goto _)
  | popDelete cond x =>
    rw [hpc] at hw
    cases hw
    exact popDelete_roots h hr hpc
  | peekLoad =>
    rw [hpc] at hw
    cases hw
    exact hr.free walked_peek (by simp [hpc, Needed, Resets, Deletes])
  | peekDeleted x =>
    rw [hpc] at hw
    have hfree : ∀ {w'}, Walked w t w' → Roots w' ∧ Words w t w' := fun hwalk =>
      hr.free hwalk (by simp [hpc, Needed, Resets, Deletes])
    simp only at hw
    split at hw
    · cases hw
      exact hfree (walked_goto _)
    · cases hw
      exact hfree (walked_finish _ _)
  | isEmpty =>
    rw [hpc] at hw
    cases hw
    exact hr.free (walked_finish _ _) (by simp [hpc, Needed, Resets, Deletes])
  | drop call =>
    rw [hpc] at hw hok hheld
    obtain ⟨b, hcall⟩ := hok
    have hclean := nextPtr_cleans hcall fun x hx => hheld x (by simp [Pc.holds, hx])
    have hfree : ∀ {w'}, Walked w t w' → Roots w' ∧ Words w t w' := fun hwalk =>
      hr.free hwalk (by simp [hpc, Needed, Resets, Deletes])
    simp only at hw
    split at hw
    · cases hw
      exact hfree ((walked_goto _).clean hclean)
    · cases hw
      exact hfree ((walked_goto _).clean hclean)

/-- What null is written to `newest` for: the condition on the runs in which `newest` agrees
with `oldest`. -/
def ResetsWhenEmpty (w : World T n) (a : Action T n) : Prop :=
  ∀ t, a = .thread t .proceed → writesNull w t = true → w.oldest = none

/-- The words after a step of a thread. -/
theorem Words.pushing (h : Words w t w') (hp : Pushing w)
    (ha : writesNull w t = true → w.oldest = none) : Pushing w' := by
  intro hold hnew
  rcases h.newest hnew with hnone | hnull
  · rcases h.oldest hold with hsome | ⟨p, e, hpc⟩
    · obtain ⟨u, p, e, hu⟩ := hp hsome hnone
      have hut : u ≠ t := by
        intro hc
        exact h.swap p e (hc ▸ hu) hnew
      exact ⟨u, p, e, (h.pc u hut).trans hu⟩
    · exact ⟨t, p, e, hpc⟩
  · rw [h.null hnull, ha hnull] at hold
    exact absurd rfl hold

/-- Every action keeps `Roots`, and `Pushing` when it meets the condition. -/
theorem roots_step (h : Inv w tgt) (hr : Roots w) {a : Action T n} (hw : w.step a = some w') :
    Roots w' ∧ (ResetsWhenEmpty w a → Pushing w → Pushing w') := by
  have hquiet : ∀ {t : Fin n}, Walked w t w' → w.pc t = .idle →
      Roots w' ∧ (ResetsWhenEmpty w a → Pushing w → Pushing w') := by
    intro t hwalk hpc
    have hmoved := hr.free hwalk (by simp [hpc, Needed, Resets, Deletes])
    refine ⟨hmoved.1, fun _ hp => hmoved.2.pushing hp fun hc => ?_⟩
    simp [writesNull, hpc] at hc
  unfold World.step at hw
  split at hw
  · rename_i t op
    split at hw
    · rename_i hpc
      cases hw
      exact hquiet (t := t) ⟨rfl, rfl, rfl, rfl, fun _ hu => Function.update_of_ne hu _ _⟩ hpc
    · cases hw
  · rename_i t
    have hmoved := proceed_roots h hr hw
    exact ⟨hmoved.1, fun ha hp => hmoved.2.pushing hp (ha t rfl)⟩
  · rename_i t x
    split at hw
    · rename_i hpc hrel hy
      cases hw
      exact hquiet (walked_goto _) hpc
    · cases hw
  · split at hw
    · cases hw
      exact ⟨⟨hr.newest, hr.oldest, hr.behind⟩, fun _ hp => hp⟩
    · cases hw

end step

/-- The call of `op` by the thread `t`, with no other thread moving, returns `res`. -/
def Returns (w : World T n) (t : Fin n) (op : Op T) (res : Res) : Prop :=
  ∃ w₁ w₂, w.step (.thread t (.invoke op)) = some w₁ ∧
    Run World.step (fun _ a => a = .thread t .proceed) w₁ w₂ ∧
    w₂.history = w.history ++ [.invoke t op, .result t op res]

section rest

variable {w w₁ w₂ v : World T n} {t : Fin n} {op : Op T} {res : Res}

/-- The state in which the operation begins. -/
def begun (w : World T n) (t : Fin n) (op : Op T) : World T n :=
  { w with history := w.history ++ [Event.invoke t op] }.goto t (World.entry op)

/-- The operation stands at its first access. -/
theorem begun_pc : (begun w t op).pc t = World.entry op := Function.update_self t _ _

/-- A thread that is not in a call can begin an operation. -/
theorem invoke_eq (ht : w.pc t = .idle) : w.step (.thread t (.invoke op)) = some (begun w t op) := by
  simp only [World.step, ht]
  rfl

/-- Nothing happens after the call has returned. -/
theorem eq_of_idle (h : Run World.step (fun _ a => a = .thread t .proceed) w₁ w₂)
    (ht : w₁.pc t = .idle) : w₂ = w₁ := by
  rcases h.eq_or_head with rfl | ⟨a, v, rfl, hs, -⟩
  · rfl
  · simp [World.step, World.proceed, ht] at hs

/-- The steps of one thread are determined. -/
theorem run_of_proceed (h : Run World.step (fun _ a => a = .thread t .proceed) w₁ w₂)
    (hs : w₁.proceed t = some v) :
    w₂ = w₁ ∨ Run World.step (fun _ a => a = .thread t .proceed) v w₂ := by
  rcases h.eq_or_head with rfl | ⟨a, v', rfl, hs', hr⟩
  · exact .inl rfl
  · have hv : v' = v := Option.some.inj (hs'.symm.trans hs)
    exact .inr (hv ▸ hr)

/-- A call that returns with its first access. -/
theorem returns_of_finish (ht : w.pc t = .idle)
    (hs : (begun w t op).proceed t = some ((begun w t op).finish t op res)) (res' : Res) :
    Returns w t op res' ↔ res' = res := by
  have hhist : ((begun w t op).finish t op res).history
      = w.history ++ [.invoke t op, .result t op res] := by
    show (w.history ++ [.invoke t op]) ++ [.result t op res] = _
    rw [List.append_assoc]
    rfl
  constructor
  · rintro ⟨w₁, w₂, hinv, hr, hres⟩
    rw [invoke_eq ht] at hinv
    cases hinv
    rcases run_of_proceed hr hs with rfl | hr
    · have hc := congrArg List.length hres
      simp [begun, World.goto] at hc
    · rw [eq_of_idle hr (Function.update_self t _ _), hhist] at hres
      have hevents := List.append_cancel_left hres
      simpa using hevents.symm
  · rintro rfl
    exact ⟨_, _, invoke_eq ht, .tail (.thread t .proceed) .refl rfl hs, hhist⟩

/-- `is_empty` says whether `newest` is null. -/
theorem returns_isEmpty (ht : w.pc t = .idle) (b : Bool) :
    Returns w t .isEmpty (.empty b) ↔ b = w.newest.isNone := by
  have hs : (begun w t .isEmpty).proceed t
      = some ((begun w t .isEmpty).finish t .isEmpty (.empty w.newest.isNone)) := by
    unfold World.proceed
    rw [begun_pc]
    rfl
  rw [returns_of_finish ht hs]
  simp

/-- `pop` returns `None` at once when `oldest` is null. -/
theorem returns_pop (ht : w.pc t = .idle) (hold : w.oldest = none) :
    Returns w t .pop (.popped none) := by
  have hs : (begun w t .pop).proceed t
      = some ((begun w t .pop).finish t .pop (.popped none)) := by
    have hold' : (begun w t .pop).oldest = none := hold
    unfold World.proceed
    rw [begun_pc]
    show some ((begun w t .pop).popIf t (fun _ => true) (begun w t .pop).oldest) = _
    rw [hold']
    rfl
  exact (returns_of_finish ht hs _).mpr rfl

/-- `iter` yields no entry when `oldest` is null, and the oldest entry when it is not
deleted. -/
theorem returns_iter (ht : w.pc t = .idle)
    (hlive : ∀ x, w.oldest = some x → w.heap.isDeleted x = false) :
    Returns w t .iter (.first none) ↔ w.oldest = none := by
  cases hold : w.oldest with
  | none =>
    have hs : (begun w t .iter).proceed t
        = some ((begun w t .iter).finish t .iter (.first none)) := by
      have hold' : (begun w t .iter).oldest = none := hold
      unfold World.proceed
      rw [begun_pc]
      simp only [World.entry, hold']
      rfl
    rw [returns_of_finish ht hs]
    simp
  | some x =>
    have hdead : (begun w t .iter).heap.isDeleted x = false := hlive x hold
    have hs : (begun w t .iter).proceed t
        = some ((begun w t .iter).goto t (.cleanDeleted .iter x)) := by
      have hold' : (begun w t .iter).oldest = some x := hold
      unfold World.proceed
      rw [begun_pc]
      simp only [World.entry, hold']
    have hs' : ((begun w t .iter).goto t (.cleanDeleted .iter x)).proceed t
        = some (((begun w t .iter).goto t (.cleanDeleted .iter x)).finish t .iter
          (.first (some x))) := by
      have hpc : ((begun w t .iter).goto t (.cleanDeleted .iter x)).pc t = .cleanDeleted .iter x :=
        Function.update_self t _ _
      have hdead' : ((begun w t .iter).goto t (.cleanDeleted .iter x)).heap.isDeleted x = false :=
        hdead
      unfold World.proceed
      rw [hpc]
      simp only [hdead']
      rfl
    constructor
    · rintro ⟨w₁, w₂, hinv, hr, hres⟩
      rw [invoke_eq ht] at hinv
      cases hinv
      have hlen := congrArg List.length hres
      rcases run_of_proceed hr hs with rfl | hr
      · simp [begun, World.goto] at hlen
      · rcases run_of_proceed hr hs' with rfl | hr
        · simp [begun, World.goto] at hlen
        · rw [eq_of_idle hr (Function.update_self t _ _)] at hres
          simp [World.finish, begun, World.goto] at hres
    · intro hc
      cases hc

end rest

/-- In every run in which null is written to `newest` only while `oldest` is null: when no call
is in progress, `is_empty` returns true if and only if `iter` yields no entry and `pop`
returns `None`. -/
theorem isEmpty_agrees {w : World T n} (h : Run World.step ResetsWhenEmpty World.init w)
    (hrest : ∀ t, w.pc t = .idle) (t : Fin n) :
    Returns w t .isEmpty (.empty true) ↔
      Returns w t .iter (.first none) ∧ Returns w t .pop (.popped none) := by
  have hinv : (∃ tgt, Inv w tgt) ∧ Roots w ∧ Pushing w := by
    refine h.invariant (fun w => (∃ tgt, Inv w tgt) ∧ Roots w ∧ Pushing w) ?_ ?_
    · refine ⟨⟨some, inv_init⟩, ⟨?_, ?_, ?_⟩, ?_⟩
      · exact fun _ hnew => absurd rfl hnew
      · intro x hx
        cases hx
      · intro x y hx
        cases hx
      · exact fun hold => absurd rfl hold
    · rintro x a x' ⟨⟨tgt, hinv⟩, hroots, hpush⟩ ha hs
      have hstep := roots_step hinv hroots hs
      exact ⟨inv_step hinv hs, hstep.1, hstep.2 ha hpush⟩
  obtain ⟨-, hroots, hpush⟩ := hinv
  -- At rest no thread is left that a deleted entry could wait for, so there is none.
  have hlive : ∀ x, w.oldest = some x → w.heap.isDeleted x = false := by
    intro x hx
    by_contra hdead
    rw [Bool.not_eq_false] at hdead
    obtain ⟨u, hu⟩ := hroots.oldest x hx hdead
    rw [hrest u] at hu
    cases hu
  -- In the same way the two words agree: who would have to repair them is gone.
  have hwords : w.newest = none ↔ w.oldest = none := by
    constructor
    · intro hnew
      by_contra hold
      obtain ⟨u, p, e, hu⟩ := hpush hold hnew
      rw [hrest u] at hu
      cases hu
    · intro hold
      by_contra hnew
      obtain ⟨u, hu⟩ := hroots.newest hold hnew
      rw [hrest u] at hu
      cases hu
  rw [returns_isEmpty (hrest t), returns_iter (hrest t) hlive, eq_comm, Option.isNone_iff_eq_none,
    hwords]
  exact ⟨fun hold => ⟨hold, returns_pop (hrest t) hold⟩, fun hold => hold.1⟩

/-- No thread is in a call. -/
def atRest (w : World T n) : Bool :=
  (List.finRange n).all fun t => match w.pc t with | .idle => true | _ => false

/-- What the test says. -/
theorem idle_of_atRest {w : World T n} (h : atRest w = true) (t : Fin n) : w.pc t = .idle := by
  have ht := List.all_eq_true.mp h t (List.mem_finRange t)
  split at ht
  · rename_i hpc
    exact hpc
  · cases ht

/-- Two threads push an entry each, and pop them. -/
theorem isEmpty_agrees_emptied : ∃ w : World Bool 2, w.attached = [0, 1] ∧ w.newest = none ∧
    (Returns w 0 .isEmpty (.empty true) ↔
      Returns w 0 .iter (.first none) ∧ Returns w 0 .pop (.popped none)) := by
  have h : (exec World.step (fun x a => match a with
        | .thread t .proceed => !writesNull x t || x.oldest.isNone
        | _ => true) World.init
      ([invoke 0 (.push true), invoke 1 (.push true)] ++ proceeds 0 2 ++ proceeds 1 2 ++
        proceeds 0 3 ++ proceeds 1 5 ++ [invoke 0 .pop] ++ proceeds 0 10 ++ [invoke 1 .pop] ++
        proceeds 1 9)).any (fun w : World Bool 2 =>
      w.attached == [0, 1] && w.newest == none && atRest w) = true := by
    decide +kernel
  obtain ⟨w, hr, hw⟩ := Run.of_exec_any h
  rw [Bool.and_eq_true, Bool.and_eq_true, beq_iff_eq, beq_iff_eq] at hw
  obtain ⟨⟨hatt, hnew⟩, hrest⟩ := hw
  have hr' : Run World.step ResetsWhenEmpty World.init w := by
    refine hr.mono fun x a hx t ha hnull => ?_
    rw [ha] at hx
    simpa [hnull] using hx
  exact ⟨w, hatt, hnew, isEmpty_agrees hr' (idle_of_atRest hrest) 0⟩

/-- The thread 0 pushes an entry and pops it, and stops before it resets `newest`. The thread
1 pushes another entry. Then the thread 0 resets `newest`: `is_empty` returns true, and the
queue has an entry. -/
theorem isEmpty_differs : ∃ w : World Bool 2, Run World.step (fun _ _ => True) World.init w ∧
    (∀ t, w.pc t = .idle) ∧ ¬(Returns w 0 .isEmpty (.empty true) ↔
      Returns w 0 .iter (.first none) ∧ Returns w 0 .pop (.popped none)) := by
  have h : (exec World.step (fun _ _ => true) World.init
      ([invoke 0 (.push true)] ++ proceeds 0 5 ++ [invoke 0 .pop] ++ proceeds 0 8 ++
        [invoke 1 (.push true)] ++ proceeds 1 7 ++ proceeds 0 1)).any
      (fun w : World Bool 2 => atRest w && w.newest == none && w.oldest == some 1 &&
        !w.heap.isDeleted 1) = true := by
    decide +kernel
  obtain ⟨w, hr, hw⟩ := Run.of_exec_any h
  simp only [Bool.and_eq_true, beq_iff_eq, Bool.not_eq_true'] at hw
  obtain ⟨⟨⟨hrest, hnew⟩, hold⟩, hlive⟩ := hw
  have hidle := idle_of_atRest hrest
  refine ⟨w, hr.mono fun _ _ _ => trivial, hidle, ?_⟩
  have hempty : Returns w 0 .isEmpty (.empty true) := by
    rw [returns_isEmpty (hidle 0), hnew]
    rfl
  have hiter : ¬Returns w 0 .iter (.first none) := by
    rw [returns_iter (hidle 0), hold]
    · simp
    · intro x hx
      rw [hold] at hx
      cases hx
      exact hlive
  exact fun hiff => hiter (hiff.mp hempty).1

end Sdd.Proofs.Queue
