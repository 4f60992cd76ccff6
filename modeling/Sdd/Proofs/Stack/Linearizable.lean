import Sdd.Proofs.Stack.Answers

/-!
# `Sdd.Proofs.Stack.Linearizable`: the stack is linearizable

`stack_linearizable` is about runs of `push`, `pop_if`, `peek` and `is_empty`: the conditions
of the pushes always hold, so that every access agrees with them (`PlainWorld`). The history
is a run of the sequential stack when effects are added, and every answer is justified by a
moment of its call.
-/

set_option autoImplicit false

namespace Sdd.Proofs.Stack

open Sdd.Lib Sdd.Lib.Linearize Sdd.Stack

variable {T : Type} {n : Nat} {P : World T n → Action T n → Prop} {w w' : World T n}

/-- The history of a run whose actions agree with the conditions of the pushes is linearizable.
`J` is an invariant that shows that they agree. -/
theorem linear_of_run {J : World T n → Prop} (h₀ : J World.init)
    (hstep : ∀ x a x', J x → P x a → x.step a = some x' → J x')
    (hagrees : ∀ x a, J x → P x a → agreesAction x a = true)
    (h : Run World.step P World.init w) : (∃ tgt, Inv w tgt) ∧ Linear w := by
  have hall : ((∃ tgt, Inv w tgt) ∧ (∀ t, Wanted w.mem (w.pc t)) ∧ Linear w) ∧ J w := by
    refine h.invariant
      (fun w => ((∃ tgt, Inv w tgt) ∧ (∀ t, Wanted w.mem (w.pc t)) ∧ Linear w) ∧ J w) ?_ ?_
    · refine ⟨⟨⟨some, inv_init⟩, fun _ => trivial, [], ⟨[], []⟩, .nil, rfl, ⟨rfl, rfl, ?_⟩, ?_, ?_⟩,
        h₀⟩
      · exact nofun
      · exact nofun
      · exact nofun
    · intro x a x' hx hp hs
      obtain ⟨⟨⟨tgt, hinv⟩, hwant, hlin⟩, hj⟩ := hx
      refine ⟨⟨inv_step hinv hs, wanted_step hinv hwant hs, ?_⟩, hstep x a x' hj hp hs⟩
      exact linear_step hinv hlin hwant (hagrees x a hj hp) hs
  exact ⟨hall.1.1, hall.1.2.2⟩

/-- The operations other than a `push_if` with a condition that can be false. -/
def Plain : Op T → Prop
  | .pushIf _ cond => ∀ o, cond o = true
  | .popIf _ | .peek | .isEmpty => True

/-- An action of a run without conditional pushes. -/
def PlainAction (_ : World T n) (a : Action T n) : Prop :=
  ∀ t op, a = .thread t (.invoke op) → Plain op

/-- All the conditions of pushes always hold. -/
structure PlainWorld (w : World T n) : Prop where
  cond : ∀ e o, w.mem.cond e o = true
  op : ∀ t call, w.pc t = .call call → Plain call.op

/-- A call records the conditions of pushes. -/
theorem cond_call {m : Mem T} {call : Call T} (hop : Plain call.op)
    (hm : ∀ e o, m.cond e o = true) : ∀ e o, (m.step call).1.cond e o = true := by
  have hcleaned : ∀ {m' : Mem T} (k : Clean T) (o : Option Addr), m'.cond = m.cond →
      ∀ e o', (m'.cleaned k o).1.cond e o' = true := by
    intro m' k o hcond e o'
    rw [cleaned_frame]
    show m'.cond e o' = true
    rw [hcond]
    exact hm e o'
  have hcleanup : ∀ {m' : Mem T} (k : Clean T) (o : Option Addr), m'.cond = m.cond →
      ∀ e o', (m'.cleanup k o).1.cond e o' = true := by
    intro m' k o hcond e o'
    rw [cleanup_frame]
    show m'.cond e o' = true
    rw [hcond]
    exact hm e o'
  cases call with
  | loadNewest k => exact hcleanup k _ rfl
  | cleanDeleted k x =>
    simp only [Mem.step]
    split
    · exact hm
    · exact hcleaned k _ rfl
  | cleanNext k x call =>
    simp only [Mem.step]
    cases (call.step m.heap).2 with
    | running call' => exact hm
    | done next => exact hm
  | cleanExchange k x next =>
    simp only [Mem.step]
    split
    · exact hcleanup k _ rfl
    · exact hcleanup k _ rfl
  | swapLink p e newest => exact hm
  | attach p e newest =>
    simp only [Mem.step]
    split
    · intro e' o
      show Function.update m.cond e p.cond e' o = true
      by_cases he : e' = e
      · rw [he, Function.update_self]
        exact hop o
      · rw [Function.update_of_ne he]
        exact hm e' o
    · exact hcleanup _ _ rfl
  | popGetShared cond x =>
    simp only [Mem.step]
    split
    · exact hm
    · exact hm
  | popDeleted cond x =>
    simp only [Mem.step]
    split
    · exact hm
    · exact hm
  | popDelete cond x =>
    simp only [Mem.step]
    split
    · exact hm
    · exact hm

/-- The conditions of a run without conditional pushes. -/
theorem plain_step (h : PlainWorld w) {a : Action T n} (ha : PlainAction w a)
    (hw : w.step a = some w') : PlainWorld w' := by
  -- The thread that moves comes to a place of a plain operation.
  have hgoto : ∀ {m : Mem T} {hist : List (Event (Fin n) (Op T) Res)} {t : Fin n} {pc : Pc T},
      (∀ e o, m.cond e o = true) → (∀ call, pc = .call call → Plain call.op) →
      PlainWorld (World.goto ⟨m, w.pc, hist⟩ t pc) := by
    intro m hist t pc hm hpc
    refine ⟨hm, fun u call hu => ?_⟩
    change Function.update w.pc t pc u = .call call at hu
    by_cases hut : u = t
    · rw [hut, Function.update_self] at hu
      exact hpc call hu
    · rw [Function.update_of_ne hut] at hu
      exact h.op u call hu
  cases stepped hw with
  | invoke t op hpc =>
    refine hgoto h.cond fun call hcall => ?_
    cases hcall
    have hplain := ha t op rfl
    cases op with
    | _ => exact hplain
  | call t call hpc =>
    have hop := h.op t call hpc
    have hcond := cond_call hop h.cond
    have hrun : ∀ call', (w.mem.step call).2 = .running call' → Plain call'.op := by
      intro call' hout
      rw [(step_running hout).1]
      exact hop
    generalize w.mem.step call = r at hcond hrun
    obtain ⟨m', out⟩ := r
    cases out with
    | running call' =>
      refine hgoto hcond fun c hc => ?_
      cases hc
      exact hrun call' rfl
    | done res => exact hgoto hcond fun c hc => by cases hc
  | dropping t call call' hpc hout => exact hgoto h.cond fun c hc => by cases hc
  | dropped t call hpc => exact hgoto h.cond fun c hc => by cases hc
  | drop t x y hpc hy => exact hgoto (m := w.mem) h.cond fun c hc => by cases hc
  | release x hx => exact ⟨h.cond, h.op⟩

/-- Conditions that always hold agree with everything. -/
theorem PlainWorld.agrees (h : PlainWorld w) (a : Action T n) : agreesAction w a = true := by
  unfold agreesAction
  split
  · rename_i t
    split
    · rename_i call hpc
      have hop := h.op t call hpc
      unfold Stack.agrees
      split
      · rename_i p e newest
        have hcond : p.cond (top w.mem) = true := hop _
        rw [hcond, Bool.or_true]
      · rename_i cond x
        cases around x w.mem.contents with
        | none => exact Bool.or_true _
        | some b =>
          show (w.mem.heap.isDeleted x || w.mem.cond b.1 (b.2.bind w.mem.heap.value)) = true
          rw [h.cond, Bool.or_true]
      · rfl
    · rfl
    · rfl
  · rfl

/-- The history of every run of `push`, `pop_if`, `peek` and `is_empty` is a run of the
sequential stack when effects are added. The entries that its pops return are distinct, and
the other entries are in the stack. `pop_if` returns an entry that was the newest one at some
moment of the call, and for which its condition holds, and the other answers are justified in
the same way. `P` can describe the run further. -/
theorem stack_linearizable (hP : ∀ x a, P x a → PlainAction x a)
    (h : Run World.step P World.init w) :
    (∃ L c, Trace Lifo.Step (.start ⟨[], []⟩) L c ∧ L.filter Event.visible = w.history ∧
      c.state.pushed = w.mem.attached ∧ c.state.stack.map Prod.fst = w.mem.contents ∧
      (Lifo.popped L ++ w.mem.contents).Perm w.mem.attached ∧ w.mem.attached.Nodup) ∧
    ∀ t w' op res, w.step (.thread t .proceed) = some w' →
      w'.history = w.history ++ [.result t op res] → Justified P w t op res := by
  constructor
  · obtain ⟨⟨tgt, hinv⟩, L, q, he⟩ := linear_of_run (J := PlainWorld)
      ⟨fun _ _ => rfl, nofun⟩ (fun x a x' hx hp => plain_step hx (hP x a hp))
      (fun x a hx _ => hx.agrees a) h
    refine ⟨L, _, he.trace, he.history, he.same.pushed, he.same.stack, ?_, hinv.one.nodup⟩
    rw [← he.same.stack, ← he.same.pushed]
    exact Lifo.popped_perm he.trace
  · exact fun t w' op res hs hres => justified_of_run h hs hres

/-- The thread is about to return the entry 0 from `pop`, on which the entry 1 lies. -/
def popsBuried (w : World Nat 2) (t : Fin 2) : Bool :=
  match w.pc t with
  | .call (.cleanDeleted (.popped _ 0) 1) => !w.mem.heap.isDeleted 1
  | _ => false

/-- The thread 1 is about to delete the first entry when the thread 0 pushes another one. It
deletes the first one, which is buried then, and returns it. -/
theorem stack_linearizable_buried : ∃ (w w' : World Nat 2) (op : Op Nat),
    w.step (.thread 1 .proceed) = some w' ∧
    w'.history = w.history ++ [.result 1 op (.popped (some 0))] ∧ w.mem.contents = [1] ∧
    Linearizable Lifo.Step ⟨[], []⟩ w.history ∧ Justified PlainAction w 1 op (.popped (some 0)) := by
  have h : (exec World.step (fun _ _ => true) World.init
      ([invoke 0 (.push 5)] ++ proceeds 0 3 ++ [invoke 1 .pop] ++ proceeds 1 4 ++
        [invoke 0 (.push 7)] ++ proceeds 0 4 ++ proceeds 1 4)).any (fun w : World Nat 2 =>
      w.mem.contents == [1] && popsBuried w 1) = true := by
    decide +kernel
  obtain ⟨w, hr, hw⟩ := Run.of_forall (P := PlainAction) h fun a ha x t op hop => by
    subst hop
    simp only [List.mem_append, List.mem_cons, List.not_mem_nil, or_false, invoke, proceeds,
      List.mem_replicate, Action.thread.injEq, Act.invoke.injEq, reduceCtorEq, and_false] at ha
    rcases ha with (⟨-, rfl⟩ | ⟨-, rfl⟩) | ⟨-, rfl⟩
    · exact fun _ => rfl
    · exact trivial
    · exact fun _ => rfl
  rw [Bool.and_eq_true, beq_iff_eq] at hw
  obtain ⟨hcont, hw⟩ := hw
  unfold popsBuried at hw
  split at hw
  · rename_i cond hpc
    rw [Bool.not_eq_true'] at hw
    have hlive : ¬w.mem.heap.isDeleted 1 = true := by
      rw [hw]
      decide
    have hstep : w.step (.thread 1 .proceed)
        = some (w.called 1 (.popIf cond) (w.mem, .done (.popped (some 0)))) := by
      simp only [World.step, World.proceed, hpc, Mem.step, if_neg hlive, Mem.cleaned, Call.op,
        Clean.op]
    obtain ⟨⟨L, c, htrace, hL, -⟩, hall⟩ := stack_linearizable (fun _ _ hx => hx) hr
    have hjust := hall 1 _ (.popIf cond) (.popped (some 0)) hstep rfl
    exact ⟨w, _, .popIf cond, hstep, rfl, hcont, ⟨L, c, htrace, hL⟩, hjust⟩
  · cases hw

end Sdd.Proofs.Stack
