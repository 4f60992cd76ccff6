import Sdd.Proofs.Queue.Invariant

/-!
# `Sdd.Proofs.Queue.Answers`: the answers of a queue and the moments that justify them

The history says between which events an operation takes place. `During P w t Q` says that
`Q` holds in some state between the invocation of the call of `t` and the state `w`, and
`AttachedDuring` that the call has attached an entry in between, while its condition held of
the newest undeleted entry.

`Justified` says what each answer of an operation promises: `push_if` returns `Ok` with an
entry that it has attached, and `None` is returned when the queue was empty at some moment.
`push_if` returns `Err` when its condition was false of the newest undeleted entry at some
moment, or when its traversal has ended on a deleted entry (`endsOnDeleted`). `Past` is what
a thread remembers of its own past for this, and `justified_of_run` is the result.
-/

set_option autoImplicit false

namespace Sdd.Proofs.Queue

open Sdd.Lib Sdd.Lib.Linearize Sdd.Queue

variable {T : Type} {n : Nat}

/-- A step of a run that is given step by step. -/
def invoke (t : Fin n) (op : Op T) : Action T n := .thread t (.invoke op)

/-- `k` steps of a run that is given step by step. -/
def proceeds (t : Fin n) (k : Nat) : List (Action T n) :=
  List.replicate k (.thread t .proceed)

/-- The instance of the newest undeleted entry. -/
def last (w : World T n) : Option T := w.contents.getLast?.bind w.heap.value

/-- The invocations and results of a thread. -/
def eventsOf (t : Fin n) (w : World T n) : List (Event (Fin n) (Op T) Res) :=
  w.history.filter fun e => decide (e.thread = t)

/-- The next step of the thread ends a traversal of `push_if` on a deleted entry for which
the condition is false. -/
def endsOnDeleted (w : World T n) (t : Fin n) : Bool :=
  match w.pc t with
  | .traverse p current call =>
    match (call.step w.heap).2 with
    | .done next => next.isNull && w.heap.isDeleted current && !p.cond (w.heap.value current)
    | .running _ => false
  | _ => false

section

variable (P : World T n → Action T n → Prop)

/-- `Q` holds at some moment of the call that the thread `t` is in. -/
def During (w : World T n) (t : Fin n) (Q : World T n → Prop) : Prop :=
  ∃ u, Run World.step P World.init u ∧ Run World.step P u w ∧ eventsOf t u = eventsOf t w ∧ Q u

/-- The call of the thread `t` has attached the entry `e`, and `cond` held of the newest
undeleted entry at that moment. -/
def AttachedDuring (w : World T n) (t : Fin n) (e : Addr) (cond : Option T → Bool) : Prop :=
  ∃ u u', Run World.step P World.init u ∧ u.step (.thread t .proceed) = some u' ∧
    Run World.step P u' w ∧ eventsOf t u = eventsOf t w ∧ u'.attached = u.attached ++ [e] ∧
    cond (last u) = true

/-- What an answer given in the state `w` promises. -/
def Justified (w : World T n) (t : Fin n) : Op T → Res → Prop
  | .pushIf _ cond, .pushed e => AttachedDuring P w t e cond
  | .pushIf _ cond, .rejected =>
    During P w t (fun u => cond (last u) = false) ∨ endsOnDeleted w t = true
  | .popIf _, .popped none | .peek, .peeked none => During P w t fun u => u.contents = []
  | _, _ => True

/-- What a thread remembers. -/
def Past (w : World T n) (t : Fin n) : Pc T → Prop
  | .swapNewest p e | .checkOldest p e | .resetNewest p e => AttachedDuring P w t e p.cond
  | .cleanReset _ => During P w t fun u => u.contents = []
  | _ => True

/-- A thread steps from `x` to `w'`: to a place whose past it has, or it returns with an
answer that is justified. `w` has the places and the history of `x`. -/
inductive Lands (x w : World T n) (t : Fin n) (w' : World T n) : Prop where
  | goto (pc : Pc T) (hpc : w'.pc = Function.update w.pc t pc) (hist : w'.history = w.history)
      (h : Past P w' t pc)
  | finish (op : Op T) (res : Res) (hpc : w'.pc = Function.update w.pc t .idle)
      (hist : w'.history = w.history ++ [.result t op res]) (h : Justified P x t op res)

end

section

variable {P : World T n → Action T n → Prop} {w w' x : World T n} {tgt : Addr → Option Addr}
  {t : Fin n} {p : Push T} {k : Clean T} {o : Option Addr} {Q : World T n → Prop}

/-- The present moment. -/
theorem During.now (h : Run World.step P World.init w) (hq : Q w) : During P w t Q :=
  ⟨w, h, .refl, rfl, hq⟩

/-- A moment of the call is one still after a step without an event of the thread. -/
theorem During.step (h : During P w t Q) {a : Action T n} (hp : P w a)
    (hs : w.step a = some w') (hev : eventsOf t w' = eventsOf t w) : During P w' t Q := by
  obtain ⟨u, hu, hw, hevu, hq⟩ := h
  exact ⟨u, hu, .tail a hw hp hs, hevu.trans hev.symm, hq⟩

theorem AttachedDuring.step {e : Addr} {cond : Option T → Bool}
    (h : AttachedDuring P w t e cond) {a : Action T n} (hp : P w a)
    (hs : w.step a = some w') (hev : eventsOf t w' = eventsOf t w) :
    AttachedDuring P w' t e cond := by
  obtain ⟨u, u', hu, hstep, hw, hevu, hatt⟩ := h
  exact ⟨u, u', hu, hstep, .tail a hw hp hs, hevu.trans hev.symm, hatt⟩

theorem Past.step {pc : Pc T} (h : Past P w t pc) {a : Action T n} (hp : P w a)
    (hs : w.step a = some w') (hev : eventsOf t w' = eventsOf t w) : Past P w' t pc := by
  cases pc with
  | swapNewest p e => exact AttachedDuring.step h hp hs hev
  | checkOldest p e => exact AttachedDuring.step h hp hs hev
  | resetNewest p e => exact AttachedDuring.step h hp hs hev
  | cleanReset k => exact During.step h hp hs hev
  | _ => exact trivial

/-- The condition of `push_if` is evaluated. -/
theorem evaluate_lands
    (h : p.cond (o.bind w.heap.value) = false → Justified P x t (.pushIf p.val p.cond) .rejected) :
    Lands P x w t (w.evaluate t p o) := by
  unfold World.evaluate
  by_cases hcond : p.cond (o.bind w.heap.value) = true
  · rw [if_pos hcond]
    split
    · exact .goto _ rfl rfl trivial
    · exact .goto _ rfl rfl trivial
  · rw [if_neg hcond]
    exact .finish _ _ rfl rfl (h (Bool.not_eq_true _ ▸ hcond))

/-- `traverse` begins. It ends at once when the queue is empty. -/
theorem traverse_lands (h : o = none → During P x t fun u => u.contents = []) :
    Lands P x w t (w.traverse t p o) := by
  unfold World.traverse
  split
  · refine evaluate_lands fun hcond => .inl ?_
    obtain ⟨u, hu, hx, hev, hnil⟩ := h rfl
    refine ⟨u, hu, hx, hev, ?_⟩
    show p.cond (u.contents.getLast?.bind u.heap.value) = false
    rw [hnil]
    exact hcond
  · exact .goto _ rfl rfl trivial

theorem popIf_lands {cond : T → Bool} (h : o = none → During P x t fun u => u.contents = []) :
    Lands P x w t (w.popIf t cond o) := by
  unfold World.popIf
  split
  · exact .finish _ _ rfl rfl (h rfl)
  · exact .goto _ rfl rfl trivial

theorem peek_lands (h : o = none → During P x t fun u => u.contents = []) :
    Lands P x w t (w.peek t o) := by
  unfold World.peek
  split
  · exact .finish _ _ rfl rfl (h rfl)
  · exact .goto _ rfl rfl trivial

/-- `cleanup_oldest` returns. -/
theorem cleaned_lands (h : o = none → During P x t fun u => u.contents = []) :
    Lands P x w t (w.cleaned t k o) := by
  unfold World.cleaned
  cases k with
  | popped cond e => exact .finish _ _ rfl rfl trivial
  | retry cond => exact popIf_lands h
  | peek => exact peek_lands h
  | push p => exact traverse_lands h
  | iter => exact .finish _ _ rfl rfl trivial

/-- `traverse` goes on after one access. When it ends on an undeleted entry, this is the
newest one. -/
theorem traversed_lands (h : Inv w tgt) (hr : Run World.step P World.init w) {current : Addr}
    {call : NextPtr} (hpc : w.pc t = .traverse p current call) :
    Lands P w { w with heap := (call.step w.heap).1 } t
      ({ w with heap := (call.step w.heap).1 }.traversed t p current (call.step w.heap).2) := by
  have hok := h.ok t
  rw [hpc] at hok
  obtain ⟨-, hcur, hcall⟩ := hok
  have hclean := nextPtr_cleans hcall fun y hy => h.held t y (by rw [hpc]; simp [Pc.holds, hy])
  unfold World.traversed
  split
  · exact .goto _ rfl rfl trivial
  · rename_i next hdone
    split
    · rename_i hnull
      refine evaluate_lands fun hcond => ?_
      change p.cond ((call.step w.heap).1.value current) = false at hcond
      rw [hclean.fields.1] at hcond
      cases hlive : w.heap.isDeleted current with
      | false =>
        have hmem : current ∈ w.contents := Shared.mem_contents.mpr ⟨hcur, hlive⟩
        obtain ⟨front, hfront⟩ := h.shared.list.last hmem (nextPtr_null hcall hdone hnull)
        refine .inl (.now hr ?_)
        show p.cond (w.contents.getLast?.bind w.heap.value) = false
        rw [hfront, List.getLast?_append]
        exact hcond
      | true =>
        refine .inr ?_
        unfold endsOnDeleted
        rw [hpc]
        simp [hdone, Ptr.isNull, hnull, hlive, hcond]
    · exact .goto _ rfl rfl trivial

/-- The entry of a push is attached: its condition holds of the newest undeleted entry. -/
theorem attach_lands (h : Inv w tgt) (hr : Run World.step P World.init w) {e : Addr}
    {newest : Option Addr} (hpc : w.pc t = .attach p e newest)
    (hw : w.step (.thread t .proceed) = some (w.attach t p e newest)) :
    Lands P w w t (w.attach t p e newest) := by
  have hok := h.ok t
  rw [hpc] at hok
  obtain ⟨-, -, hmem, hcond⟩ := hok
  have hstep : ∀ w', w.step (.thread t .proceed) = some w' → w'.history = w.history →
      w'.attached = w.attached ++ [e] → p.cond (last w) = true → AttachedDuring P w' t e p.cond := by
    intro w' hw' hhist hatt hlast
    refine ⟨w, w', hr, hw', .refl, ?_, hatt, hlast⟩
    unfold eventsOf
    rw [hhist]
  unfold World.attach at hw ⊢
  split at hw
  · rename_i l
    have hl := hmem l rfl
    split at hw
    · rename_i hnull
      rw [if_pos hnull]
      refine .goto _ rfl rfl (hstep _ hw rfl rfl ?_)
      obtain ⟨front, hfront⟩ := contents_last h.shared hl hnull
      show p.cond (w.contents.getLast?.bind w.heap.value) = true
      rw [hfront, List.getLast?_append]
      exact hcond
    · rename_i hnull
      rw [if_neg hnull]
      split
      · exact .goto _ rfl rfl trivial
      · split
        · exact .goto _ rfl rfl trivial
        · rename_i hne
          refine traverse_lands fun hnone => absurd ?_ hne
          rw [Ptr.isNull, hnone]
          rfl
  · split at hw
    · rename_i hold
      rw [if_pos hold]
      refine .goto _ rfl rfl (hstep _ hw rfl rfl ?_)
      have hnil : w.contents = [] := h.shared.contents_nil (by rw [hold]; rfl)
      show p.cond (w.contents.getLast?.bind w.heap.value) = true
      rw [hnil]
      exact hcond
    · rename_i hold
      rw [if_neg hold]
      exact traverse_lands fun hnone => absurd hnone hold

/-- A step of a call. -/
theorem proceed_lands (h : Inv w tgt) (hr : Run World.step P World.init w)
    (hp : P w (.thread t .proceed)) (hpast : Past P w t (w.pc t))
    (hw : w.step (.thread t .proceed) = some w') : ∃ w₁ : World T n, w₁.pc = w.pc ∧
      w₁.history = w.history ∧ Lands P w w₁ t w' := by
  have hok := h.ok t
  have hempty : w.oldest = none → During P w t fun u => u.contents = [] :=
    fun hold => .now hr (h.shared.contents_nil (by rw [hold]; rfl))
  have hkeep : ∀ w'', w.step (.thread t .proceed) = some w'' → w''.history = w.history →
      ∀ {pc : Pc T}, Past P w t pc → Past P w'' t pc := by
    intro w'' hw'' hhist pc hpc
    refine hpc.step hp hw'' ?_
    unfold eventsOf
    rw [hhist]
  have hproceed : w.proceed t = some w' := hw
  unfold World.proceed at hproceed
  cases hpc : w.pc t with
  | idle =>
    rw [hpc] at hproceed
    cases hproceed
  | loadNewest p =>
    rw [hpc] at hproceed
    simp only at hproceed
    split at hproceed
    · cases hproceed
      exact ⟨w, rfl, rfl, .goto _ rfl rfl trivial⟩
    · cases hproceed
      exact ⟨w, rfl, rfl, traverse_lands fun hc => by cases hc⟩
  | loadOldest p =>
    rw [hpc] at hproceed
    cases hproceed
    exact ⟨w, rfl, rfl, traverse_lands hempty⟩
  | traverse p current call =>
    rw [hpc] at hproceed
    cases hproceed
    exact ⟨{ w with heap := (call.step w.heap).1 }, rfl, rfl, traversed_lands h hr hpc⟩
  | attach p e newest =>
    rw [hpc] at hproceed
    cases hproceed
    exact ⟨w, rfl, rfl, attach_lands h hr hpc hw⟩
  | swapNewest p e =>
    rw [hpc] at hproceed hpast
    cases hproceed
    exact ⟨w, rfl, rfl, .goto _ rfl rfl (hkeep _ hw rfl hpast)⟩
  | checkOldest p e =>
    rw [hpc] at hproceed hpast
    simp only at hproceed
    split at hproceed
    · cases hproceed
      exact ⟨w, rfl, rfl, .goto _ rfl rfl (hkeep _ hw rfl hpast)⟩
    · cases hproceed
      exact ⟨w, rfl, rfl, .finish _ _ rfl rfl hpast⟩
  | resetNewest p e =>
    rw [hpc] at hproceed hpast
    cases hproceed
    exact ⟨w, rfl, rfl, .finish _ _ rfl rfl hpast⟩
  | cleanLoad k =>
    rw [hpc] at hproceed
    simp only at hproceed
    split at hproceed
    · rename_i hold
      cases hproceed
      exact ⟨w, rfl, rfl, cleaned_lands fun _ => hempty hold⟩
    · cases hproceed
      exact ⟨w, rfl, rfl, .goto _ rfl rfl trivial⟩
  | cleanDeleted k x =>
    rw [hpc] at hproceed
    simp only at hproceed
    split at hproceed
    · cases hproceed
      exact ⟨w, rfl, rfl, .goto _ rfl rfl trivial⟩
    · cases hproceed
      exact ⟨w, rfl, rfl, cleaned_lands fun hc => by cases hc⟩
  | cleanNext k x call =>
    rw [hpc] at hproceed
    cases hproceed
    refine ⟨w, rfl, rfl, ?_⟩
    unfold World.cleanNext
    split
    · exact .goto _ rfl rfl trivial
    · exact .goto _ rfl rfl trivial
  | cleanExchange k x next =>
    rw [hpc] at hproceed hok
    obtain ⟨-, -, -, hret⟩ := hok
    cases hproceed
    unfold World.cleanExchange at hw ⊢
    split at hw
    · rename_i hold
      rw [if_pos hold]
      split at hw
      · -- `oldest` leads nowhere, and is set to null.
        refine ⟨w, rfl, rfl, .goto _ rfl rfl (hkeep _ hw rfl (.now hr ?_))⟩
        refine h.shared.contents_nil ?_
        rw [hold]
        exact (hret.tgt trivial).symm
      · rename_i y
        exact ⟨{ w with oldest := some y }, rfl, rfl, cleaned_lands fun hc => by cases hc⟩
    · rename_i hold
      rw [if_neg hold]
      exact ⟨w, rfl, rfl, cleaned_lands hempty⟩
  | cleanReset k =>
    rw [hpc] at hproceed hpast
    cases hproceed
    exact ⟨{ w with newest := none }, rfl, rfl, cleaned_lands fun _ => hpast⟩
  | popLoad cond =>
    rw [hpc] at hproceed
    cases hproceed
    exact ⟨w, rfl, rfl, popIf_lands hempty⟩
  | popGetShared cond x =>
    rw [hpc] at hproceed
    simp only at hproceed
    split at hproceed
    · cases hproceed
      exact ⟨w, rfl, rfl, .goto _ rfl rfl trivial⟩
    · cases hproceed
      exact ⟨w, rfl, rfl, .goto _ rfl rfl trivial⟩
  | popDeleted cond x =>
    rw [hpc] at hproceed
    cases hproceed
    refine ⟨w, rfl, rfl, ?_⟩
    unfold World.popDeleted
    split
    · exact .finish _ _ rfl rfl trivial
    · exact .goto _ rfl rfl trivial
  | popDelete cond x =>
    rw [hpc] at hproceed
    cases hproceed
    refine ⟨w, rfl, rfl, ?_⟩
    unfold World.popDelete
    split
    · exact .goto _ rfl rfl trivial
    · exact .goto _ rfl rfl trivial
  | peekLoad =>
    rw [hpc] at hproceed
    cases hproceed
    exact ⟨w, rfl, rfl, peek_lands hempty⟩
  | peekDeleted x =>
    rw [hpc] at hproceed
    simp only at hproceed
    split at hproceed
    · cases hproceed
      exact ⟨w, rfl, rfl, .goto _ rfl rfl trivial⟩
    · cases hproceed
      exact ⟨w, rfl, rfl, .finish _ _ rfl rfl trivial⟩
  | isEmpty =>
    rw [hpc] at hproceed
    cases hproceed
    exact ⟨w, rfl, rfl, .finish _ _ rfl rfl trivial⟩
  | drop call =>
    rw [hpc] at hproceed
    simp only at hproceed
    split at hproceed
    · cases hproceed
      exact ⟨w, rfl, rfl, .goto _ rfl rfl trivial⟩
    · cases hproceed
      exact ⟨w, rfl, rfl, .goto _ rfl rfl trivial⟩

/-- The events of a thread do not change when another one steps. -/
theorem eventsOf_append {e : Event (Fin n) (Op T) Res} (hhist : w'.history = w.history ++ [e])
    (ht : e.thread ≠ t) : eventsOf t w' = eventsOf t w := by
  unfold eventsOf
  rw [hhist, List.filter_append, List.filter_cons_of_neg (by simpa using ht), List.filter_nil,
    List.append_nil]

/-- Each thread remembers its past, and every answer is justified. -/
theorem past_step (h : Inv w tgt) (hr : Run World.step P World.init w)
    (hpast : ∀ t, Past P w t (w.pc t)) {a : Action T n} (hp : P w a) (hs : w.step a = some w') :
    ∀ t, Past P w' t (w'.pc t) := by
  have hsame : ∀ t, eventsOf t w' = eventsOf t w → w'.pc t = w.pc t → Past P w' t (w'.pc t) := by
    intro t hev hpc
    rw [hpc]
    exact (hpast t).step hp hs hev
  have hothers : ∀ t e pc, e.thread = t → w'.history = w.history ++ [e] →
      w'.pc = Function.update w.pc t pc → Past P w' t pc → ∀ u, Past P w' u (w'.pc u) := by
    intro t e pc he hhist hpc hnew u
    by_cases hu : u = t
    · rw [hu, hpc, Function.update_self]
      exact hnew
    · refine hsame u (eventsOf_append hhist (he ▸ Ne.symm hu)) ?_
      rw [hpc, Function.update_of_ne hu]
  have hgoto : ∀ t pc, w'.history = w.history → w'.pc = Function.update w.pc t pc →
      Past P w' t pc → ∀ u, Past P w' u (w'.pc u) := by
    intro t pc hhist hpc hnew u
    by_cases hu : u = t
    · rw [hu, hpc, Function.update_self]
      exact hnew
    · refine hsame u (by unfold eventsOf; rw [hhist]) ?_
      rw [hpc, Function.update_of_ne hu]
  have hw := hs
  unfold World.step at hw
  split at hw
  · rename_i t op
    split at hw
    · cases hw
      refine hothers t (.invoke t op) _ rfl rfl rfl ?_
      cases op <;> exact trivial
    · cases hw
  · rename_i t
    obtain ⟨w₁, hpc₁, hhist₁, hlands⟩ := proceed_lands h hr hp (hpast t) hs
    rcases hlands with ⟨pc, hpc, hhist, hnew⟩ | ⟨op, res, hpc, hhist, -⟩
    · exact hgoto t pc (hhist.trans hhist₁) (by rw [hpc, hpc₁]) hnew
    · exact hothers t _ .idle rfl (by rw [hhist, hhist₁]) (by rw [hpc, hpc₁]) trivial
  · rename_i t x
    split at hw
    · cases hw
      exact hgoto t _ rfl rfl trivial
    · cases hw
  · split at hw
    · cases hw
      exact fun t => hsame t rfl rfl
    · cases hw

/-- In every run, the answer that a step gives is justified. -/
theorem justified_of_run (hr : Run World.step P World.init w) (hp : P w (.thread t .proceed))
    (hs : w.step (.thread t .proceed) = some w') {op : Op T} {res : Res}
    (hres : w'.history = w.history ++ [.result t op res]) : Justified P w t op res := by
  have hpast : (∃ tgt, Inv w tgt) ∧ ∀ t, Past P w t (w.pc t) := by
    clear hp hs hres
    induction hr with
    | refl => exact ⟨⟨some, inv_init⟩, fun _ => trivial⟩
    | tail a hr hp hs ih =>
      obtain ⟨⟨tgt, hinv⟩, hpast⟩ := ih
      exact ⟨inv_step hinv hs, past_step hinv hr hpast hp hs⟩
  obtain ⟨⟨tgt, hinv⟩, hpast⟩ := hpast
  obtain ⟨w₁, -, hhist₁, hlands⟩ := proceed_lands hinv hr hp (hpast t) hs
  rcases hlands with ⟨pc, -, hhist, -⟩ | ⟨op', res', -, hhist, hjust⟩
  · rw [hhist₁] at hhist
    rw [hhist] at hres
    simp at hres
  · rw [hhist₁] at hhist
    have hevent := List.append_cancel_left (hhist.symm.trans hres)
    cases hevent
    exact hjust

end

end Sdd.Proofs.Queue
