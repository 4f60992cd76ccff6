import Sdd.Lib.Run
import Sdd.Proofs.Queue.Shared

/-!
# `Sdd.Proofs.Queue.Invariant`: the invariant of a queue

`Inv w tgt` is what holds in every state of a queue: `Shared`, and `PcOk` for each thread;
an entry that a thread holds is not released, and no two threads have created the same
entry.

A step of a thread is a write to the words of the queue and then a walk to the next atomic
access. `Others` is what the write leaves: all but the thread that moves are where they can
go on. The lemmas `evaluate_inv` to `cleaned_inv` follow the walk, one for each function of
the model, and `inv_step` puts them together. `inv_of_run` is the invariant of every run.
-/

set_option autoImplicit false

namespace Sdd.Proofs.Queue

open Sdd.Lib Sdd.Queue

variable {T : Type} {n : Nat} {w w' : World T n} {tgt tgt' : Addr → Option Addr} {t : Fin n}

structure Inv (w : World T n) (tgt : Addr → Option Addr) : Prop where
  shared : Shared w tgt
  ok : ∀ t, PcOk w tgt (w.pc t)
  held : ∀ t x, (w.pc t).holds x = true → w.heap.released x = false
  own : ∀ t u e, ownEntry (w.pc t) = some e → ownEntry (w.pc u) = some e → t = u

/-- All threads but `t` are where they can go on. -/
structure Others (w : World T n) (tgt : Addr → Option Addr) (t : Fin n) : Prop where
  shared : Shared w tgt
  ok : ∀ u, u ≠ t → PcOk w tgt (w.pc u)
  held : ∀ u, u ≠ t → ∀ x, (w.pc u).holds x = true → w.heap.released x = false
  own : ∀ u u', u ≠ t → u' ≠ t → ∀ e, ownEntry (w.pc u) = some e →
    ownEntry (w.pc u') = some e → u = u'

/-- The thread `t` can stand at `pc`. -/
structure Fits (w : World T n) (tgt : Addr → Option Addr) (t : Fin n) (pc : Pc T) : Prop where
  ok : PcOk w tgt pc
  held : ∀ x, pc.holds x = true → w.heap.released x = false
  own : ∀ e, ownEntry pc = some e → ∀ u, u ≠ t → ownEntry (w.pc u) ≠ some e

/-- The thread `t` is in a push. Its entry is its own. -/
structure Carries (w : World T n) (t : Fin n) (p : Push T) : Prop where
  ok : PushOk w p
  held : ∀ e, p.entry = some e → w.heap.released e = false
  own : ∀ e, p.entry = some e → ∀ u, u ≠ t → ownEntry (w.pc u) ≠ some e

/-- The thread `t` cleans up for `k`. -/
def CarriesClean (w : World T n) (t : Fin n) : Clean T → Prop
  | .push p => Carries w t p
  | .popped _ e => w.heap.released e = false
  | _ => True

section goto

/-- The thread goes to its next place. -/
theorem Others.goto (h : Others w tgt t) {pc : Pc T} (hf : Fits w tgt t pc) :
    Inv (w.goto t pc) tgt where
  shared := ⟨h.shared.heap, h.shared.list, h.shared.nodup, h.shared.roots, h.shared.unattached⟩
  ok u := by
    show PcOk w tgt (Function.update w.pc t pc u)
    -- Of the threads only t has moved, and its new program counter fits.
    by_cases hu : u = t
    · rw [hu, Function.update_self]
      exact hf.ok
    · rw [Function.update_of_ne hu]
      exact h.ok u hu
  held u x hx := by
    change (Function.update w.pc t pc u).holds x = true at hx
    by_cases hu : u = t
    · rw [hu, Function.update_self] at hx
      exact hf.held x hx
    · rw [Function.update_of_ne hu] at hx
      exact h.held u hu x hx
  own u u' e he he' := by
    change ownEntry (Function.update w.pc t pc u) = some e at he
    change ownEntry (Function.update w.pc t pc u') = some e at he'
    -- No entry belongs to two threads: t owns none that another owns.
    by_cases hu : u = t
    · by_cases hu' : u' = t
      · rw [hu, hu']
      · rw [hu, Function.update_self] at he
        rw [Function.update_of_ne hu'] at he'
        exact absurd he' (hf.own e he u' hu')
    · rw [Function.update_of_ne hu] at he
      by_cases hu' : u' = t
      · rw [hu', Function.update_self] at he'
        exact absurd he (hf.own e he' u hu)
      · rw [Function.update_of_ne hu'] at he'
        exact h.own u u' hu hu' e he he'

/-- A place without an entry of its own. -/
theorem Fits.of_none {pc : Pc T} (hok : PcOk w tgt pc)
    (hheld : ∀ x, pc.holds x = true → w.heap.released x = false) (hown : ownEntry pc = none) :
    Fits w tgt t pc where
  ok := hok
  held := hheld
  own e he := by
    rw [hown] at he
    cases he

/-- The call of the thread returns. -/
theorem Others.finish (h : Others w tgt t) (op : Op T) (res : Res) :
    Inv (w.finish t op res) tgt := by
  have h' : Others { w with history := w.history ++ [.result t op res] } tgt t :=
    ⟨⟨h.shared.heap, h.shared.list, h.shared.nodup, h.shared.roots, h.shared.unattached⟩,
      h.ok, h.held, h.own⟩
  refine h'.goto (.of_none trivial ?_ rfl)
  intro x hx
  cases hx

/-- The others can go on after a write. -/
theorem Inv.others (h : Inv w tgt) (hs : Shared w' tgt') {own : Option Addr}
    (hext : Ext w w' tgt tgt' own) (hpc : w'.pc = w.pc)
    (hrel : w'.heap.released = w.heap.released)
    (hown : ∀ e, own = some e → ownEntry (w.pc t) = some e) : Others w' tgt' t where
  shared := hs
  ok u hu := by
    rw [hpc]
    -- Another thread's private entry is not the one that was written, since no entry has two
    -- owners.
    refine (h.ok u).ext hext h.shared ?_
    intro e he hc
    exact hu (h.own u t e he (hown e hc))
  held u _ x hx := by
    rw [hpc] at hx
    rw [hrel]
    exact h.held u x hx
  own u u' _ _ e he he' := by
    rw [hpc] at he he'
    exact h.own u u' e he he'

/-- The others can go on when nothing is written. -/
theorem Inv.same (h : Inv w tgt) (t : Fin n) : Others w tgt t :=
  ⟨h.shared, fun u _ => h.ok u, fun u _ => h.held u, fun u u' _ _ => h.own u u'⟩

/-- A thread in a push has its own entry. -/
theorem Inv.carries (h : Inv w tgt) {p : Push T} (hok : PushOk w p)
    (hown : ownEntry (w.pc t) = p.entry)
    (hheld : ∀ e, p.entry = some e → (w.pc t).holds e = true) : Carries w t p where
  ok := hok
  held e he := h.held t e (hheld e he)
  own e he u hu hc := hu (h.own u t e hc (hown.trans he))

/-- The entry of a push is its own after a write. -/
theorem Carries.ext {p : Push T} (hp : Carries w t p) (hext : Ext w w' tgt tgt' none)
    (hpc : w'.pc = w.pc) (hrel : w'.heap.released = w.heap.released) : Carries w' t p where
  ok := hp.ok.ext hext fun _ _ => by simp
  held e he := by
    rw [hrel]
    exact hp.held e he
  own e he u hu := by
    rw [hpc]
    exact hp.own e he u hu

theorem CarriesClean.ext {k : Clean T} (hk : CarriesClean w t k)
    (hext : Ext w w' tgt tgt' none) (hpc : w'.pc = w.pc)
    (hrel : w'.heap.released = w.heap.released) : CarriesClean w' t k := by
  cases k with
  | push p => exact Carries.ext hk hext hpc hrel
  | popped cond e =>
    show w'.heap.released e = false
    rw [hrel]
    exact hk
  | retry cond => exact trivial
  | peek => exact trivial
  | iter => exact trivial

end goto

section walk

variable {p : Push T} {k : Clean T} {o : Option Addr}

/-- An entry that a push has created is allocated. -/
theorem ownEntry_lt {pc : Pc T} {e : Addr} (hpc : PcOk w tgt pc) (he : ownEntry pc = some e) :
    e < w.heap.nextAddr := by
  -- Only a push that has made its entry owns one, and it has it from alloc.
  cases pc with
  | loadNewest p => exact (hpc e he).1
  | loadOldest p => exact (hpc e he).1
  | traverse p current call => exact (hpc.1 e he).1
  | attach p e' newest =>
    cases he
    exact (hpc.1 e hpc.2.1).1
  | cleanLoad k =>
    cases k with
    | push p => exact (hpc e he).1
    | _ => cases he
  | cleanDeleted k x =>
    cases k with
    | push p => exact (hpc.1 e he).1
    | _ => cases he
  | cleanNext k x call =>
    cases k with
    | push p => exact (hpc.1 e he).1
    | _ => cases he
  | cleanExchange k x next =>
    cases k with
    | push p => exact (hpc.1 e he).1
    | _ => cases he
  | cleanReset k =>
    cases k with
    | push p => exact (hpc e he).1
    | _ => cases he
  | _ => cases he

/-- The others do not see the creation of an entry. -/
theorem Others.create (h : Others w tgt t) (val : T) :
    Others { w with heap := w.heap.alloc val } tgt t where
  shared := h.shared.create val
  ok u hu := (h.ok u hu).ext (ext_create val) h.shared fun _ _ => by simp
  held := h.held
  own := h.own

/-- The condition of `push_if` is evaluated. -/
theorem evaluate_inv (h : Others w tgt t) (hp : Carries w t p)
    (ho : ∀ l, o = some l → l ∈ w.attached) : Inv (w.evaluate t p o) tgt := by
  unfold World.evaluate
  -- The condition decides between an entry for the list and the answer at once.
  by_cases hcond : p.cond (o.bind w.heap.value) = true
  · rw [if_pos hcond]
    split
    · rename_i e he
      refine h.goto ⟨⟨hp.ok, he, ho, hcond⟩, ?_, fun e' he' => hp.own e' (he.trans he')⟩
      intro x hx
      have hex : e = x := by simpa [Pc.holds] using hx
      exact hp.held x (he.trans (congrArg some hex))
    · -- Nobody knows the new entry.
      have hnew : w.heap.nextAddr ∉ w.attached := fun hmem =>
        absurd (h.shared.heap.bound _ hmem) (Nat.lt_irrefl _)
      have hvalue : ∀ l, o = some l → (w.heap.alloc p.val).value l = w.heap.value l := by
        intro l hl
        have hext : Ext w _ tgt tgt none := ext_create p.val
        exact hext.value l (h.shared.heap.bound l (ho l hl))
      refine (h.create p.val).goto ⟨⟨?_, rfl, ho, ?_⟩, ?_, ?_⟩
      · intro e he
        have hen : w.heap.nextAddr = e := Option.some.inj he
        rw [← hen]
        refine ⟨Nat.lt_succ_self _, hnew, ?_⟩
        show Function.update w.heap.value w.heap.nextAddr _ w.heap.nextAddr = _
        rw [Function.update_self]
      · cases o with
        | none => exact hcond
        | some l =>
          show p.cond ((w.heap.alloc p.val).value l) = true
          rw [hvalue l rfl]
          exact hcond
      -- What has not been allocated yet has not been released.
      · intro x hx
        have hex : w.heap.nextAddr = x := by simpa [Pc.holds] using hx
        rw [← hex]
        by_contra hrel
        rw [Bool.not_eq_false] at hrel
        exact absurd (h.shared.heap.allocated _ hrel) (Nat.lt_irrefl _)
      -- An entry of another thread is older than the new one.
      · intro e he u hu hc
        have hen : w.heap.nextAddr = e := Option.some.inj he
        have hlt := ownEntry_lt (h.ok u hu) hc
        rw [← hen] at hlt
        exact absurd hlt (Nat.lt_irrefl _)
  · rw [if_neg hcond]
    exact h.finish _ _

/-- `traverse` begins. -/
theorem traverse_inv (h : Others w tgt t) (hp : Carries w t p)
    (ho : ∀ l, o = some l → l ∈ w.attached) : Inv (w.traverse t p o) tgt := by
  unfold World.traverse
  split
  · exact evaluate_inv h hp fun l hl => by cases hl
  · rename_i x
    refine h.goto ⟨⟨hp.ok, ho x rfl, callOk_start (ho x rfl) False.elim⟩, ?_, hp.own⟩
    intro y hy
    have hpy : p.entry = some y := by simpa [Pc.holds, NextPtr.start, NextPtr.holds] using hy
    exact hp.held y hpy

/-- `traverse` goes on. -/
theorem traversed_inv (h : Others w tgt t) (hp : Carries w t p) {current : Addr}
    {out : Outcome NextPtr (Ptr Addr)} (hcur : current ∈ w.attached)
    (hout : CallAfter (view w tgt) False current out)
    (hheld : ∀ call x, out = .running call → call.holds = some x → w.heap.released x = false) :
    Inv (w.traversed t p current out) tgt := by
  unfold World.traversed
  split
  · rename_i call
    refine h.goto ⟨⟨hp.ok, hcur, hout⟩, ?_, hp.own⟩
    intro x hx
    have hor : p.entry = some x ∨ call.holds = some x := by simpa [Pc.holds] using hx
    -- What the thread holds is its entry and what the traversal holds.
    rcases hor with hx | hx
    · exact hp.held x hx
    · exact hheld call x rfl hx
  · rename_i next
    split
    · refine evaluate_inv h hp fun l hl => ?_
      rw [← Option.some.inj hl]
      exact hcur
    · rename_i x hx
      have hatt : x ∈ w.attached := (hout.att x hx).1
      exact traverse_inv h hp fun l hl => Option.some.inj hl ▸ hatt

/-- `pop_if` goes on. -/
theorem popIf_inv (h : Others w tgt t) {cond : T → Bool}
    (ho : ∀ x, o = some x → x ∈ w.attached ∧ OldOrDead w x) : Inv (w.popIf t cond o) tgt := by
  unfold World.popIf
  split
  · exact h.finish _ _
  · rename_i x
    refine h.goto (.of_none (ho x rfl) ?_ rfl)
    intro y hy
    cases hy

/-- `peek` goes on. -/
theorem peek_inv (h : Others w tgt t)
    (ho : ∀ x, o = some x → x ∈ w.attached ∧ OldOrDead w x) : Inv (w.peek t o) tgt := by
  unfold World.peek
  split
  · exact h.finish _ _
  · rename_i x
    refine h.goto (.of_none (ho x rfl) ?_ rfl)
    intro y hy
    cases hy

/-- `cleanup_oldest` returns. -/
theorem cleaned_inv (h : Others w tgt t) (hk : CarriesClean w t k)
    (ho : ∀ x, o = some x → x ∈ w.attached ∧ OldOrDead w x) : Inv (w.cleaned t k o) tgt := by
  unfold World.cleaned
  cases k with
  | popped cond e => exact h.finish _ _
  | retry cond => exact popIf_inv h ho
  | peek => exact peek_inv h ho
  | push p => exact traverse_inv h hk fun l hl => (ho l hl).1
  | iter => exact h.finish _ _

/-- A thread that cleans up can go on to any place of `cleanup_oldest`. -/
theorem CarriesClean.fits (hk : CarriesClean w t k) {pc : Pc T} (hok : CleanOk w k → PcOk w tgt pc)
    (hheld : ∀ x, pc.holds x = true → k.holds = some x ∨ w.heap.released x = false)
    (hown : ownEntry pc = ownEntry (.cleanLoad k)) : Fits w tgt t pc where
  ok := by
    refine hok ?_
    -- A clean-up carries the push it works for, or the entry that was popped, or nothing.
    cases k with
    | push p => exact hk.ok
    | _ => exact trivial
  held x hx := by
    rcases hheld x hx with hx | hx
    · cases k with
      | push p => exact hk.held x hx
      | popped cond e =>
        have hex : e = x := Option.some.inj hx
        exact hex ▸ hk
      | _ => cases hx
    · exact hx
  own e he := by
    rw [hown] at he
    cases k with
    | push p => exact hk.own e he
    | _ => cases he

end walk

section step

/-- A thread that cleans up for a push has its own entry, and one that has deleted an entry
holds it. -/
theorem Inv.carriesClean (h : Inv w tgt) {k : Clean T} (hok : CleanOk w k)
    (hown : ownEntry (w.pc t) = ownEntry (.cleanLoad k))
    (hheld : ∀ e, k.holds = some e → (w.pc t).holds e = true) : CarriesClean w t k := by
  cases k with
  | push p => exact h.carries hok hown hheld
  | popped cond e => exact h.held t e (hheld e rfl)
  | retry cond => exact trivial
  | peek => exact trivial
  | iter => exact trivial

/-- An entry read from a root. -/
theorem Inv.root (h : Inv w tgt) {x : Addr} (hx : w.oldest = some x) :
    x ∈ w.attached ∧ OldOrDead w x :=
  ⟨(h.shared.roots x (.inl hx)).1, .inr hx⟩

/-- The compare-and-exchange that attaches an entry. -/
theorem attach_inv (h : Inv w tgt) {p : Push T} {e : Addr} {newest : Option Addr}
    (hpc : w.pc t = .attach p e newest) : Inv (w.attach t p e newest) tgt := by
  have hok := h.ok t
  rw [hpc] at hok
  obtain ⟨hp, hentry, hmem, -⟩ := hok
  have hown : ownEntry (w.pc t) = some e := by rw [hpc]; rfl
  have hcarries : Carries w t p := by
    refine h.carries hp (hown.trans hentry.symm) fun e' he' => ?_
    have hee : e = e' := Option.some.inj (hentry.symm.trans he')
    rw [hpc, Pc.holds, hee, beq_self_eq_true]
  obtain ⟨hlt, hnot, -⟩ := hp e hentry
  have hrel := hcarries.held e hentry
  -- Where the entry is attached, the program counter moves on and the entry stays held.
  have hatt : ∀ {w' : World T n}, w'.attached = w.attached ++ [e] →
      w'.heap.released = w.heap.released → Others w' tgt t →
      Inv (w'.goto t (.swapNewest p e)) tgt := by
    intro w' hatt hrel' h'
    refine h'.goto (.of_none ?_ ?_ rfl)
    · show e ∈ w'.attached
      rw [hatt]
      exact List.mem_append_right _ List.mem_cons_self
    · intro x hx
      have hex : e = x := by simpa [Pc.holds] using hx
      rw [hrel', ← hex]
      exact hrel
  unfold World.attach
  split
  · rename_i l
    -- The exchange on the link of the last entry first: it is null, the entry is deleted, or
    -- another push was first.
    have hl := hmem l rfl
    split
    · rename_i hnull
      have hs := h.shared.attachNewest hnot hl hnull hlt hrel
      refine hatt rfl rfl (h.others hs (ext_attachNewest hnull) rfl rfl ?_)
      intro e' he'
      exact hown.trans he'
    · split
      · refine (h.same t).goto ⟨hp, ?_, ?_⟩
        · intro x hx
          have hpx : p.entry = some x := by simpa [Pc.holds, Clean.holds] using hx
          exact hcarries.held x hpx
        · exact hcarries.own
      · split
        · exact (h.same t).goto ⟨hp, fun x hx => hcarries.held x (by simpa [Pc.holds] using hx),
            hcarries.own⟩
        · exact traverse_inv (h.same t) hcarries fun y hy => (h.shared.heap.links l y hl hy).1
  · split
    -- Then the exchange on oldest, for a list that was empty.
    · rename_i hold
      have hs := h.shared.attachOldest hnot hlt hrel hold
      refine hatt rfl rfl (h.others hs (ext_attachOldest hold) rfl rfl ?_)
      intro e' he'
      exact hown.trans he'
    · exact traverse_inv (h.same t) hcarries fun y hy => (h.root hy).1

/-- The compare-and-exchange on `oldest`. -/
theorem cleanExchange_inv (h : Inv w tgt) {k : Clean T} {x : Addr} {next : Option Addr}
    (hpc : w.pc t = .cleanExchange k x next) : Inv (w.cleanExchange t k x next) tgt := by
  have hok := h.ok t
  rw [hpc] at hok
  obtain ⟨hk, hmem, hdead, hret⟩ := hok
  have hcarries : CarriesClean w t k := by
    refine h.carriesClean hk ?_ ?_
    · rw [hpc]
      cases k <;> rfl
    · intro e he
      rw [hpc, Pc.holds, he]
      simp
  unfold World.cleanExchange
  split
  · rename_i hold
    -- What next_shared returned is attached, and this thread holds it.
    have hnext : ∀ y, next = some y → y ∈ w.attached ∧ w.heap.released y = false := by
      intro y hy
      refine ⟨(hret.att y hy).1, h.held t y ?_⟩
      rw [hpc, Pc.holds, hy]
      simp
    have htgt : next.bind tgt = w.oldest.bind tgt := by
      rw [hold]
      exact hret.tgt trivial
    have hs := h.shared.setOldest hnext htgt
    have hext : Ext w { w with oldest := next } tgt tgt none := ext_setOldest hold hdead
    have hothers : Others { w with oldest := next } tgt t :=
      h.others hs hext rfl rfl fun e he => by cases he
    have hcarries' := hcarries.ext hext rfl rfl
    -- The list is empty now, or oldest refers to the entry that was found.
    split
    · refine hothers.goto (hcarries'.fits id (fun y hy => .inl ?_) ?_)
      · simpa [Pc.holds] using hy
      · cases k <;> rfl
    · rename_i y
      refine cleaned_inv hothers hcarries' fun z hz => ?_
      exact ⟨(hnext z hz).1, .inr hz⟩
  · exact cleaned_inv (h.same t) hcarries fun y hy => h.root hy

/-- An access of `next_ptr` in `traverse`. -/
theorem traverseStep_inv (h : Inv w tgt) {p : Push T} {current : Addr} {call : NextPtr}
    (hpc : w.pc t = .traverse p current call) :
    Inv ({ w with heap := (call.step w.heap).1 }.traversed t p current (call.step w.heap).2)
      tgt := by
  have hok := h.ok t
  rw [hpc] at hok
  obtain ⟨hp, hcur, hcall⟩ := hok
  have hheld : ∀ x, (Pc.traverse p current call).holds x = true → w.heap.released x = false :=
    fun x hx => h.held t x (hpc ▸ hx)
  -- The call writes at most the link of one entry, and only over deleted ones.
  have hclean := nextPtr_cleans hcall fun x hx => hheld x (by simp [Pc.holds, hx])
  have hrel : (call.step w.heap).1.released = w.heap.released := hclean.fields.2.1
  have hcarries : Carries w t p :=
    h.carries hp (by rw [hpc]; rfl) fun e he => by rw [hpc]; simp [Pc.holds, he]
  have hext := ext_clean hclean
  refine traversed_inv (h.others (h.shared.clean hclean) hext rfl hrel fun e he => by cases he)
    (hcarries.ext hext rfl hrel) hcur ?_ ?_
  · rw [view_eq hclean.isDeleted_eq]
    exact nextPtr_ok h.shared.heap hcall
  · intro call' x hcall' hx
    show (call.step w.heap).1.released x = false
    rw [hrel]
    exact nextPtr_holds hcall' hx

/-- An access of `next_shared` in `cleanup_oldest`. -/
theorem cleanNextStep_inv (h : Inv w tgt) {k : Clean T} {x : Addr} {call : NextShared}
    (hpc : w.pc t = .cleanNext k x call) :
    Inv ({ w with heap := (call.step w.heap).1 }.cleanNext t k x (call.step w.heap).2) tgt := by
  have hok := h.ok t
  rw [hpc] at hok
  obtain ⟨hk, hmem, hdead, hcall⟩ := hok
  have hheld : ∀ y, (Pc.cleanNext k x call).holds y = true → w.heap.released y = false :=
    fun y hy => h.held t y (hpc ▸ hy)
  -- The call writes at most the link of one entry, and only over deleted ones.
  have hclean := nextShared_cleans hcall fun y hy => hheld y (by simp [Pc.holds, hy])
  have hrel : (call.step w.heap).1.released = w.heap.released := hclean.fields.2.1
  have hcarries : CarriesClean w t k := by
    refine h.carriesClean hk ?_ fun e he => by rw [hpc]; simp [Pc.holds, he]
    rw [hpc]
    cases k <;> rfl
  have hext := ext_clean hclean
  have hothers : Others _ tgt t :=
    h.others (h.shared.clean hclean) hext rfl hrel fun e he => by cases he
  have hcarries' := hcarries.ext hext rfl hrel
  have hafter := nextShared_ok h.shared.heap (fun _ => h.shared.dead_of_released) hcall
  have hdead' : (call.step w.heap).1.isDeleted x = true := by
    rw [hclean.isDeleted_eq]
    exact hdead
  rw [← view_eq hclean.isDeleted_eq] at hafter
  unfold World.cleanNext
  split
  · rename_i call' heq
    rw [heq] at hafter
    refine hothers.goto (hcarries'.fits (fun hk' => ⟨hk', hmem, hdead', hafter⟩) ?_ ?_)
    · intro y hy
      -- Held are what the clean-up carries and what the walk holds.
      have hor : k.holds = some y ∨ call'.holds = some y := by simpa [Pc.holds] using hy
      refine hor.imp_right fun hy => ?_
      show (call.step w.heap).1.released y = false
      rw [hrel]
      exact nextShared_holds heq hy
    · cases k <;> rfl
  · rename_i next heq
    rw [heq] at hafter
    refine hothers.goto (hcarries'.fits (fun hk' => ⟨hk', hmem, hdead', hafter⟩) ?_ ?_)
    · intro y hy
      have hor : k.holds = some y ∨ next = some y := by simpa [Pc.holds] using hy
      refine hor.imp_right fun hy => ?_
      show (call.step w.heap).1.released y = false
      rw [hrel]
      rw [hy] at heq
      exact nextShared_result heq
    · cases k <;> rfl

/-- An access of the destructor. -/
theorem dropStep_inv (h : Inv w tgt) {call : NextPtr} (hpc : w.pc t = .drop call)
    (hw : w.proceed t = some w') : Inv w' tgt := by
  have hok := h.ok t
  rw [hpc] at hok
  obtain ⟨b, hcall⟩ := hok
  have hheld : ∀ x, (Pc.drop call : Pc T).holds x = true → w.heap.released x = false :=
    fun x hx => h.held t x (hpc ▸ hx)
  -- The guard that is dropped looks for the next entry in the same way.
  have hclean := nextPtr_cleans hcall fun x hx => hheld x (by simp [Pc.holds, hx])
  have hrel : (call.step w.heap).1.released = w.heap.released := hclean.fields.2.1
  have hothers : Others { w with heap := (call.step w.heap).1 } tgt t :=
    h.others (h.shared.clean hclean) (ext_clean hclean) rfl hrel fun e he => by cases he
  have hafter := nextPtr_ok h.shared.heap hcall
  rw [← view_eq hclean.isDeleted_eq] at hafter
  unfold World.proceed at hw
  rw [hpc] at hw
  simp only at hw
  split at hw
  · rename_i call' heq
    cases hw
    rw [heq] at hafter
    refine hothers.goto (.of_none ⟨b, hafter⟩ (fun x hx => ?_) rfl)
    have hx' : call'.holds = some x := by simpa [Pc.holds] using hx
    show (call.step w.heap).1.released x = false
    rw [hrel]
    exact nextPtr_holds heq hx'
  · cases hw
    refine hothers.goto (.of_none trivial (fun x hx => ?_) rfl)
    cases hx

/-- `pop_if` deletes an entry, or finds it deleted. -/
theorem popDelete_inv (h : Inv w tgt) {cond : T → Bool} {x : Addr}
    (hpc : w.pc t = .popDelete cond x) : ∃ tgt', Inv (w.popDelete t cond x) tgt' := by
  have hok := h.ok t
  rw [hpc] at hok
  obtain ⟨hmem, -, -⟩ := hok
  unfold World.popDelete
  cases hlive : w.heap.isDeleted x with
  | false =>
    -- The first deletion of the entry: from here on what leads to it leads past it.
    have hdel := deleteSelf_eq hlive
    have hs := h.shared.kill hmem hlive
    have hext : Ext w _ tgt _ _ := ext_kill hlive
    rw [hdel] at hs hext ⊢
    refine ⟨_, (h.others hs hext rfl rfl fun e he => by cases he).goto (.of_none trivial ?_ rfl)⟩
    intro y hy
    have hxy : x = y := by simpa [Pc.holds, Clean.holds] using hy
    -- The popper holds what it deletes.
    have hheld : (w.pc t).holds x = true := by rw [hpc]; simp [Pc.holds]
    rw [← hxy]
    exact h.held t x hheld
  | true =>
    rw [deleteSelf_dead hlive]
    refine ⟨tgt, (h.same t).goto (.of_none trivial ?_ rfl)⟩
    intro y hy
    cases hy

/-- A step of a call keeps the invariant. -/
theorem proceed_inv (h : Inv w tgt) (hw : w.proceed t = some w') : ∃ tgt', Inv w' tgt' := by
  have hok := h.ok t
  have hheld := h.held t
  unfold World.proceed at hw
  cases hpc : w.pc t with
  | idle =>
    rw [hpc] at hw
    cases hw
  | loadNewest p =>
    rw [hpc] at hw hok hheld
    have hp : Carries w t p :=
      h.carries hok (by rw [hpc]; rfl) fun e he => by rw [hpc]; simp [Pc.holds, he]
    simp only at hw
    split at hw
    · cases hw
      exact ⟨tgt, (h.same t).goto ⟨hok, fun x hx => hheld x hx, hp.own⟩⟩
    · rename_i x hx
      cases hw
      refine ⟨tgt, traverse_inv (h.same t) hp fun l hl => ?_⟩
      exact (h.shared.roots l (.inr (hx.trans hl))).1
  | loadOldest p =>
    rw [hpc] at hw hok
    have hp : Carries w t p :=
      h.carries hok (by rw [hpc]; rfl) fun e he => by rw [hpc]; simp [Pc.holds, he]
    cases hw
    exact ⟨tgt, traverse_inv (h.same t) hp fun l hl => (h.root hl).1⟩
  | traverse p current call =>
    rw [hpc] at hw
    cases hw
    exact ⟨tgt, traverseStep_inv h hpc⟩
  | attach p e newest =>
    rw [hpc] at hw
    cases hw
    exact ⟨tgt, attach_inv h hpc⟩
  | swapNewest p e =>
    rw [hpc] at hw hok hheld
    cases hw
    -- The entry that goes into newest is attached and still held by its push.
    have hs : Shared { w with newest := some e } tgt := h.shared.setNewest fun x hx => by
      cases hx
      exact ⟨hok, hheld e (by simp [Pc.holds])⟩
    refine ⟨tgt, (h.others hs (ext_setNewest _) rfl rfl fun e he => by cases he).goto ?_⟩
    exact .of_none hok (fun x hx => hheld x hx) rfl
  | checkOldest p e =>
    rw [hpc] at hw hok hheld
    simp only at hw
    split at hw
    · cases hw
      exact ⟨tgt, (h.same t).goto (.of_none hok (fun x hx => hheld x hx) rfl)⟩
    · cases hw
      exact ⟨tgt, (h.same t).finish _ _⟩
  | resetNewest p e =>
    rw [hpc] at hw
    cases hw
    -- A null newest says nothing about the list.
    have hs : Shared { w with newest := none } tgt := h.shared.setNewest fun x hx => by cases hx
    exact ⟨tgt, (h.others hs (ext_setNewest _) rfl rfl fun e he => by cases he).finish _ _⟩
  | cleanLoad k =>
    rw [hpc] at hw hok
    have hk : CarriesClean w t k := by
      refine h.carriesClean hok (by rw [hpc]) fun e he => ?_
      rw [hpc]
      simp [Pc.holds, he]
    simp only at hw
    split at hw
    · cases hw
      exact ⟨tgt, cleaned_inv (h.same t) hk fun x hx => by cases hx⟩
    · rename_i x hx
      cases hw
      refine ⟨tgt, (h.same t).goto (hk.fits (fun hk' => ⟨hk', h.root hx⟩) (fun y hy => ?_) ?_)⟩
      -- What was held before is held now; oldest is not an entry of this thread.
      · exact .inl (by simpa [Pc.holds] using hy)
      · cases k <;> rfl
  | cleanDeleted k x =>
    rw [hpc] at hw hok
    obtain ⟨hk', hmem, hold⟩ := hok
    have hk : CarriesClean w t k := by
      refine h.carriesClean hk' ?_ fun e he => ?_
      · rw [hpc]
        cases k <;> rfl
      · rw [hpc]
        simp [Pc.holds, he]
    simp only at hw
    split at hw
    · rename_i hdead
      cases hw
      have hcall := sharedOk_start (v := view w tgt) hmem hdead
      refine ⟨tgt, (h.same t).goto (hk.fits (fun hk' => ⟨hk', hmem, hdead, hcall⟩) ?_ ?_)⟩
      -- The walk starts without an entry of its own.
      · intro y hy
        refine .inl ?_
        simpa [Pc.holds, NextShared.start, NextShared.holds, NextPtr.start, NextPtr.holds] using hy
      · cases k <;> rfl
    · cases hw
      refine ⟨tgt, cleaned_inv (h.same t) hk fun y hy => ?_⟩
      exact Option.some.inj hy ▸ ⟨hmem, hold⟩
  | cleanNext k x call =>
    rw [hpc] at hw
    cases hw
    exact ⟨tgt, cleanNextStep_inv h hpc⟩
  | cleanExchange k x next =>
    rw [hpc] at hw
    cases hw
    exact ⟨tgt, cleanExchange_inv h hpc⟩
  | cleanReset k =>
    rw [hpc] at hw hok
    cases hw
    have hk : CarriesClean w t k := by
      refine h.carriesClean hok ?_ fun e he => ?_
      · rw [hpc]
        cases k <;> rfl
      · rw [hpc]
        simp [Pc.holds, he]
    have hs : Shared { w with newest := none } tgt := h.shared.setNewest fun x hx => by cases hx
    have hext : Ext w { w with newest := none } tgt tgt none := ext_setNewest _
    refine ⟨tgt, cleaned_inv (h.others hs hext rfl rfl fun e he => by cases he)
      (hk.ext hext rfl rfl) fun x hx => by cases hx⟩
  | popLoad cond =>
    rw [hpc] at hw
    cases hw
    exact ⟨tgt, popIf_inv (h.same t) fun x hx => h.root hx⟩
  | popGetShared cond x =>
    rw [hpc] at hw hok
    simp only at hw
    split at hw
    · cases hw
      exact ⟨tgt, (h.same t).goto (.of_none trivial (fun y hy => by cases hy) rfl)⟩
    · rename_i hrel
      cases hw
      refine ⟨tgt, (h.same t).goto (.of_none hok (fun y hy => ?_) rfl)⟩
      have hxy : x = y := by simpa [Pc.holds] using hy
      rw [← hxy]
      -- get_shared succeeds only on an entry that is not released.
      exact Bool.not_eq_true _ ▸ hrel
  | popDeleted cond x =>
    rw [hpc] at hw hok hheld
    cases hw
    unfold World.popDeleted
    split
    · exact ⟨tgt, (h.same t).finish _ _⟩
    · rename_i hcond
      refine ⟨tgt, (h.same t).goto (.of_none ⟨hok.1, hok.2, ?_⟩ (fun y hy => hheld y hy) rfl)⟩
      -- The entry is deleted or the condition holds of it, otherwise the call would have returned.
      by_contra hno
      rw [not_or, Bool.not_eq_true, Bool.not_eq_true] at hno
      exact hcond (by rw [hno.1, hno.2]; rfl)
  | popDelete cond x =>
    rw [hpc] at hw
    cases hw
    exact popDelete_inv h hpc
  | peekLoad =>
    rw [hpc] at hw
    cases hw
    exact ⟨tgt, peek_inv (h.same t) fun x hx => h.root hx⟩
  | peekDeleted x =>
    rw [hpc] at hw
    simp only at hw
    split at hw
    · cases hw
      exact ⟨tgt, (h.same t).goto (.of_none trivial (fun y hy => by cases hy) rfl)⟩
    · cases hw
      exact ⟨tgt, (h.same t).finish _ _⟩
  | isEmpty =>
    rw [hpc] at hw
    cases hw
    exact ⟨tgt, (h.same t).finish _ _⟩
  | drop call => exact ⟨tgt, dropStep_inv h hpc hw⟩

/-- A thread that is not in a call can begin an operation. -/
theorem fits_entry (op : Op T) : Fits w tgt t (World.entry op) := by
  cases op with
  | pushIf val cond =>
    refine .of_none (fun e he => by cases he) (fun x hx => ?_) rfl
    simp [World.entry, Pc.holds] at hx
  | popIf cond => exact .of_none trivial (fun x hx => by cases hx) rfl
  | peek => exact .of_none trivial (fun x hx => by cases hx) rfl
  | isEmpty => exact .of_none trivial (fun x hx => by cases hx) rfl
  | iter => exact .of_none trivial (fun x hx => by cases hx) rfl

/-- The release of an entry. -/
theorem release_inv (h : Inv w tgt) {x : Addr} (hx : w.unowned x = true) :
    Inv { w with heap := w.heap.release x } tgt := by
  refine ⟨h.shared.release hx, fun t => ?_, fun t y hy => ?_, h.own⟩
  · exact (h.ok t).ext (ext_release x) h.shared fun _ _ => by simp
  -- An entry that is released is held by no thread.
  · have hyx : y ≠ x := by
      intro hc
      unfold World.unowned at hx
      simp only [Bool.and_eq_true] at hx
      have hnone := List.all_eq_true.mp hx.2 t (List.mem_finRange t)
      change (w.pc t).holds y = true at hy
      rw [← hc, hy] at hnone
      cases hnone
    show Function.update w.heap.released x true y = false
    rw [Function.update_of_ne hyx]
    exact h.held t y hy

/-- Every action keeps the invariant. -/
theorem inv_step (h : Inv w tgt) {a : Action T n} (hw : w.step a = some w') :
    ∃ tgt', Inv w' tgt' := by
  unfold World.step at hw
  split at hw
  · rename_i t op
    split at hw
    · cases hw
      have h' : Others { w with history := w.history ++ [.invoke t op] } tgt t :=
        ⟨⟨h.shared.heap, h.shared.list, h.shared.nodup, h.shared.roots, h.shared.unattached⟩,
          fun u _ => h.ok u, fun u _ => h.held u, fun u u' _ _ => h.own u u'⟩
      exact ⟨tgt, h'.goto (fits_entry op)⟩
    · cases hw
  · exact proceed_inv h hw
  · rename_i t x
    split at hw
    · rename_i y hpc hrel hy
      cases hw
      -- Only an attached entry is linked to another one.
      have hx : x ∈ w.attached := by
        by_contra hnot
        rw [h.shared.unattached x hnot] at hy
        cases hy
      have hatt := (h.shared.heap.links x y hx hy).1
      refine ⟨tgt, (h.same t).goto (.of_none ⟨y, callOk_start hatt False.elim⟩ (fun z hz => ?_) rfl)⟩
      cases hz
    · cases hw
  · rename_i x
    split at hw
    · rename_i hx
      cases hw
      exact ⟨tgt, release_inv h hx⟩
    · cases hw

end step

/-- The invariant of a new queue. -/
theorem inv_init : Inv (World.init : World T n) some where
  shared :=
    { heap :=
        { skip := ⟨fun _ _ => rfl, fun x hx => by cases hx⟩
          dead := rfl
          tags := fun _ => nofun
          links := fun x y hx => by cases hx
          owned := fun x y _ hy => by cases hy
          fresh := fun _ _ => rfl
          bound := fun x hx => by cases hx
          allocated := fun x hx => by cases hx
          trans := fun _ _ _ => before_trans
          wf := before_wf _ _ _ }
      list := rfl
      nodup := List.nodup_nil
      roots := fun x hx => by rcases hx with hx | hx <;> cases hx
      unattached := fun _ _ => rfl }
  ok _ := trivial
  held t x hx := by cases hx
  own t u e he := by cases he

/-- The invariant holds in every run. -/
theorem inv_of_run {P : World T n → Action T n → Prop} (h : Run World.step P World.init w) :
    ∃ tgt, Inv w tgt := by
  refine h.invariant (fun w => ∃ tgt, Inv w tgt) ⟨some, inv_init⟩ ?_
  intro x a x' hx _ hs
  obtain ⟨tgt, hx⟩ := hx
  exact inv_step hx hs

end Sdd.Proofs.Queue
