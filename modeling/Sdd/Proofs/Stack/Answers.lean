import Sdd.Proofs.Stack.Linear

/-!
# `Sdd.Proofs.Stack.Answers`: the answers of a stack and the moments that justify them

`Head P w t o` says that the newest undeleted entry was `o` at some moment of the call that
the thread `t` is in. `Justified` says what each answer promises: `pop_if` returns the entry
that was the newest one at some moment of the call, and for which its condition holds, and
the other operations answer for such an entry as well. `Past` is what a thread remembers for
this, and `justified_of_run` is the result.
-/

set_option autoImplicit false

namespace Sdd.Proofs.Stack

open Sdd.Lib Sdd.Lib.Linearize Sdd.Stack

variable {T : Type} {n : Nat}

/-- A step of a run that is given step by step. -/
def invoke (t : Fin n) (op : Op T) : Action T n := .thread t (.invoke op)

/-- `k` steps of a run that is given step by step. -/
def proceeds (t : Fin n) (k : Nat) : List (Action T n) :=
  List.replicate k (.thread t .proceed)

/-- The invocations and results of a thread. -/
def eventsOf (t : Fin n) (w : World T n) : List (Event (Fin n) (Op T) Res) :=
  w.history.filter fun e => decide (e.thread = t)

section

variable (P : World T n → Action T n → Prop) (w : World T n) (t : Fin n)

/-- The newest undeleted entry was `o` at some moment of the call that the thread is in. -/
def Head (o : Option Addr) : Prop :=
  During World.step P World.init (eventsOf t) w fun u => u.mem.contents.head? = o

/-- The entry `e` was the newest undeleted one at some moment of the call, and `cond` holds
for it. -/
def Popped (cond : T → Bool) (e : Addr) : Prop :=
  e ∈ w.mem.attached ∧ Head P w t (some e) ∧ (w.mem.heap.value e).any cond = true

/-- What an answer promises. -/
def Justified : Op T → Res → Prop
  | .popIf cond, .popped (some e) => Popped P w t cond e
  | .popIf cond, .refused e => Head P w t (some e) ∧ (w.mem.heap.value e).any cond = false
  | .popIf _, .popped none => Head P w t none
  | .pushIf _ cond, .rejected => ∃ o, Head P w t o ∧ cond (o.bind w.mem.heap.value) = false
  | .peek, .peeked o => Head P w t o
  | .isEmpty, .empty b => ∃ o, Head P w t o ∧ o.isNone = b
  | _, _ => True

/-- What a thread remembers: the entry that it has found in `newest` was the newest one,
unless it is deleted, and an entry that it has deleted was. -/
structure Past (pc : Pc T) : Prop where
  seen : ∀ x, seen pc = some x → w.mem.heap.isDeleted x = false → Head P w t (some x)
  popped : ∀ cond e, status pc = .decided (.popIf cond) (.popped (some e)) → Popped P w t cond e

/-- A call of `op` lands in a place whose past it has, or it returns with an answer that is
justified. -/
def Lands (op : Op T) : Mem T × Outcome (Call T) Res → Prop
  | (m, .running call) =>
    (∀ x, callSeen call = some x → m.heap.isDeleted x = false → Head P w t (some x)) ∧
      ∀ cond e, callStatus call = .decided (.popIf cond) (.popped (some e)) → Popped P w t cond e
  | (_, .done res) => Justified P w t op res

end

section walk

variable {P : World T n → Action T n → Prop} {w w' : World T n} {t : Fin n} {m : Mem T}
  {p : Push T} {k : Clean T} {o : Option Addr} {tgt : Addr → Option Addr}

/-- The condition of `push_if` is evaluated. -/
theorem evaluate_lands (ho : Head P w t o) (hval : m.heap.value = w.mem.heap.value) :
    Lands P w t (.pushIf p.val p.cond) (m.evaluate p o) := by
  unfold Mem.evaluate
  by_cases hcond : p.cond (o.bind m.heap.value) = true
  · rw [if_pos hcond]
    split
    · exact ⟨nofun, nofun⟩
    · exact ⟨nofun, nofun⟩
  · rw [if_neg hcond, hval] at *
    exact ⟨o, ho, Bool.not_eq_true _ ▸ hcond⟩

/-- `cleanup_newest` returns. -/
theorem cleaned_lands (ho : Head P w t o) (hval : m.heap.value = w.mem.heap.value)
    (hk : ∀ cond e, k = .popped cond e → Popped P w t cond e) :
    Lands P w t k.op (m.cleaned k o) := by
  unfold Mem.cleaned
  cases k with
  | push p => exact evaluate_lands ho hval
  | popIf cond =>
    cases o with
    | none => exact ho
    | some x =>
      refine ⟨fun y hy _ => ?_, nofun⟩
      exact Option.some.inj hy ▸ ho
  | popped cond e => exact hk cond e rfl
  | peek => exact ho
  | isEmpty => exact ⟨o, ho, rfl⟩

/-- One turn of the loop of `cleanup_newest`. -/
theorem cleanup_lands (hr : Run World.step P World.init w) (hs : One m tgt)
    (hcont : m.contents = w.mem.contents) (hval : m.heap.value = w.mem.heap.value)
    (hk : ∀ cond e, k = .popped cond e → Popped P w t cond e) :
    Lands P w t k.op (m.cleanup k m.newest) := by
  have hhead : Head P w t m.contents.head? := by
    rw [hcont]
    exact .now hr rfl
  cases hnewest : m.newest with
  | none =>
    refine cleaned_lands ?_ hval hk
    rw [hs.contents_nil hnewest] at hhead
    exact hhead
  | some x =>
    refine ⟨fun y hy hlive => ?_, fun cond e he => ?_⟩
    · have hxy : x = y := Option.some.inj hy
      subst hxy
      have htgt : tgt x = some x := hs.heap.skip.live x hlive
      rw [hs.head_eq, hnewest, Option.bind_some, htgt] at hhead
      exact hhead
    · cases k with
      | popped cond' e' =>
        obtain ⟨rfl, rfl⟩ : cond' = cond ∧ e' = e := by
          simpa [callStatus, cleanStatus] using he
        exact hk cond' e' rfl
      | _ => cases he

/-- One access of a call. -/
theorem call_lands (h : Inv w tgt) (hr : Run World.step P World.init w) {call : Call T}
    (hpc : w.pc t = .call call) (hpast : Past P w t (w.pc t)) (hwant : Wanted w.mem (w.pc t)) :
    Lands P w t call.op (w.mem.step call) := by
  have hok := h.ok t
  rw [hpc] at hok hpast hwant
  have hheld : ∀ x, call.holds x = true → w.mem.heap.released x = false := fun x hx =>
    h.held t x (by rw [hpc]; exact hx)
  have hs := h.one
  have hk : ∀ k : Clean T, callStatus call = cleanStatus k →
      ∀ cond e, k = .popped cond e → Popped P w t cond e := by
    intro k hcall cond e hk
    refine hpast.popped cond e ?_
    rw [hk] at hcall
    exact hcall
  cases call with
  | loadNewest k => exact cleanup_lands hr hs rfl rfl (hk k rfl)
  | cleanDeleted k x =>
    simp only [Mem.step]
    by_cases hdead : w.mem.heap.isDeleted x = true
    · rw [if_pos hdead]
      exact ⟨(fun _ hx => by cases hx), hpast.popped⟩
    · rw [if_neg hdead]
      exact cleaned_lands (hpast.seen x rfl (Bool.not_eq_true _ ▸ hdead)) rfl (hk k rfl)
  | cleanNext k x call =>
    show Lands P w t k.op
      ({ w.mem with heap := (call.step w.mem.heap).1 }.cleanNext k x (call.step w.mem.heap).2)
    cases (call.step w.mem.heap).2 with
    | running call' => exact ⟨(fun _ hx => by cases hx), hpast.popped⟩
    | done next => exact ⟨(fun _ hx => by cases hx), hpast.popped⟩
  | cleanExchange k x next =>
    simp only [Mem.step]
    by_cases hnewest : w.mem.newest = some x
    · rw [if_pos hnewest]
      have hs' : One { w.mem with newest := next } tgt :=
        .of_update (Stacks.exchange hs rfl hok hheld hnewest)
      exact cleanup_lands hr hs' rfl rfl (hk k rfl)
    · rw [if_neg hnewest]
      exact cleanup_lands hr hs rfl rfl (hk k rfl)
  | swapLink p e newest => exact ⟨(fun _ hx => by cases hx), fun _ _ he => by cases he⟩
  | attach p e newest =>
    simp only [Mem.step]
    by_cases heq : w.mem.newest = newest
    · rw [if_pos heq]
      exact trivial
    · rw [if_neg heq]
      have hlands : Lands P w t (Clean.push p).op (w.mem.cleanup (.push p) w.mem.newest) :=
        cleanup_lands hr hs rfl rfl (by simp)
      exact hlands
  | popGetShared cond x =>
    simp only [Mem.step]
    split
    · exact ⟨hpast.seen, fun _ _ he => by cases he⟩
    · exact ⟨hpast.seen, fun _ _ he => by cases he⟩
  | popDeleted cond x =>
    simp only [Mem.step]
    split
    · rename_i hc
      rw [Bool.and_eq_true, Bool.not_eq_true', Bool.not_eq_true'] at hc
      exact ⟨hpast.seen x rfl hc.1, hc.2⟩
    · exact ⟨hpast.seen, fun _ _ he => by cases he⟩
  | popDelete cond x =>
    have hatt : x ∈ w.mem.attached := hok
    simp only [Mem.step]
    cases hlive : w.mem.heap.isDeleted x with
    | true =>
      rw [deleteSelf_dead hlive]
      refine ⟨fun y hy hyl => ?_, fun _ _ he => by cases he⟩
      rw [← Option.some.inj hy, hlive] at hyl
      cases hyl
    | false =>
      have hvalue : (w.mem.heap.value x).any cond = true := by
        rcases hwant with hdead | hvalue
        · rw [hlive] at hdead
          cases hdead
        · exact hvalue
      have hdel : w.mem.heap.deleteSelf x = ((w.mem.heap.deleteSelf x).1, true) := by
        rw [deleteSelf_eq hlive]
      have hdead := isDeleted_deleteSelf hlive
      rw [hdel]
      refine ⟨fun y hy hyl => ?_, fun cond' e he => ?_⟩
      · rw [← Option.some.inj hy] at hyl
        change (w.mem.heap.deleteSelf x).1.isDeleted x = false at hyl
        rw [hdead, Function.update_self] at hyl
        cases hyl
      · obtain ⟨rfl, rfl⟩ : cond = cond' ∧ x = e := by
          simpa [callStatus, cleanStatus] using he
        exact ⟨hatt, hpast.seen x rfl hlive, hvalue⟩

end walk

section run

variable {P : World T n → Action T n → Prop} {w w' : World T n} {t : Fin n}
  {tgt : Addr → Option Addr}

theorem Head.step {o : Option Addr} (h : Head P w t o) {a : Action T n} (hp : P w a)
    (hs : w.step a = some w') (hev : eventsOf t w' = eventsOf t w) : Head P w' t o :=
  During.later h hp hs hev

theorem Popped.step {cond : T → Bool} {e : Addr} (h : Popped P w t cond e) {a : Action T n}
    (hp : P w a) (hs : w.step a = some w') (hev : eventsOf t w' = eventsOf t w)
    (hm : Later w.mem w'.mem) : Popped P w' t cond e := by
  obtain ⟨hatt, hhead, hvalue⟩ := h
  refine ⟨hm.att e hatt, hhead.step hp hs hev, ?_⟩
  rw [hm.value e hatt]
  exact hvalue

/-- A thread remembers its past when another one moves. -/
theorem Past.step {pc : Pc T} (h : Past P w t pc) {a : Action T n} (hp : P w a)
    (hs : w.step a = some w') (hev : eventsOf t w' = eventsOf t w) (hm : Later w.mem w'.mem) :
    Past P w' t pc where
  seen x hx hlive := by
    refine (h.seen x hx ?_).step hp hs hev
    by_contra hdead
    rw [Bool.not_eq_false] at hdead
    rw [hm.dead x hdead] at hlive
    cases hlive
  popped cond e he := (h.popped cond e he).step hp hs hev hm

/-- A step without an event of the thread. -/
theorem eventsOf_append {m : Mem T} {pc : Fin n → Pc T} {e : Event (Fin n) (Op T) Res}
    (he : e.thread ≠ t) : eventsOf t ⟨m, pc, w.history ++ [e]⟩ = eventsOf t w := by
  unfold eventsOf
  rw [List.filter_append, List.filter_cons_of_neg (by simpa using he), List.filter_nil,
    List.append_nil]

/-- Only the thread of an action has events. -/
theorem eventsOf_step {a : Action T n} (hw : w.step a = some w') (ht : actor a ≠ some t) :
    eventsOf t w' = eventsOf t w := by
  have hne : ∀ u, actor a = some u → u ≠ t := fun u hu hc => ht (hc ▸ hu)
  cases stepped hw with
  | call u call hpc =>
    generalize w.mem.step call = r
    obtain ⟨m', out⟩ := r
    cases out with
    | running call' => rfl
    | done res => exact eventsOf_append (hne u rfl)
  | invoke u op hpc => exact eventsOf_append (hne u rfl)
  | dropping u call call' hpc hout => rfl
  | dropped u call hpc => rfl
  | drop u x y hpc hy => rfl
  | release x hx => rfl

/-- Every thread remembers its past, in every step. -/
theorem past_step (h : Inv w tgt) (hr : Run World.step P World.init w)
    (hwant : ∀ t, Wanted w.mem (w.pc t)) (hpast : ∀ t, Past P w t (w.pc t)) {a : Action T n}
    (hp : P w a) (hw : w.step a = some w') (u : Fin n) : Past P w' u (w'.pc u) := by
  have hm := later_step h hw
  by_cases hu : actor a = some u
  · have hgoto : ∀ {w₁ : World T n} {pc : Pc T}, seen pc = none →
        (∀ cond e, status pc ≠ .decided (.popIf cond) (.popped (some e))) →
        Past P w₁ u ((w.goto u pc).pc u) := by
      intro w₁ pc hsn hst
      show Past P w₁ u (Function.update w.pc u pc u)
      rw [Function.update_self]
      refine ⟨fun x hx => ?_, fun cond e he => absurd he (hst cond e)⟩
      rw [hsn] at hx
      cases hx
    cases stepped hw with
    | call t call hpc =>
      cases hu
      have hlands := call_lands h hr hpc (hpast u) (hwant u)
      generalize hstep : w.mem.step call = r at hlands hw hm
      obtain ⟨m', out⟩ := r
      cases out with
      | running call' =>
        have hev : eventsOf u (w.called u call.op (m', .running call')) = eventsOf u w := rfl
        show Past P _ u (Function.update w.pc u (.call call') u)
        rw [Function.update_self]
        refine ⟨fun x hx hlive => ?_, fun cond e he => ?_⟩
        · exact (hlands.1 x hx hlive).step hp hw hev
        · exact (hlands.2 cond e he).step hp hw hev hm
      | done res => exact hgoto rfl nofun
    | invoke t op hpc =>
      cases hu
      cases op with
      | _ => exact hgoto rfl nofun
    | dropping t call call' hpc hout =>
      cases hu
      exact hgoto rfl nofun
    | dropped t call hpc =>
      cases hu
      exact hgoto rfl nofun
    | drop t x y hpc hy =>
      cases hu
      exact hgoto rfl nofun
    | release x hx => cases hu
  · rw [pc_step hw hu]
    exact (hpast u).step hp hw (eventsOf_step hw hu) hm

/-- What holds in every run. -/
theorem past_of_run (h : Run World.step P World.init w) :
    (∃ tgt, Inv w tgt) ∧ (∀ t, Wanted w.mem (w.pc t)) ∧ ∀ t, Past P w t (w.pc t) := by
  induction h with
  | refl => exact ⟨⟨some, inv_init⟩, fun _ => trivial, fun _ => ⟨nofun, nofun⟩⟩
  | tail a hr hp hs ih =>
    obtain ⟨⟨tgt, hinv⟩, hwant, hpast⟩ := ih
    exact ⟨inv_step hinv hs, wanted_step hinv hwant hs, past_step hinv hr hwant hpast hp hs⟩

/-- An operation that returns has an answer that is justified. -/
theorem justified_of_run (h : Run World.step P World.init w)
    (hs : w.step (.thread t .proceed) = some w') {op : Op T} {res : Res}
    (hres : w'.history = w.history ++ [.result t op res]) : Justified P w t op res := by
  obtain ⟨⟨tgt, hinv⟩, hwant, hpast⟩ := past_of_run h
  have hne : w.history ≠ w.history ++ [.result t op res] := by
    intro hc
    have hlen := congrArg List.length hc
    simp at hlen
  generalize ha : Action.thread t .proceed = a at hs
  cases stepped hs with
  | call u call hpc =>
    cases ha
    have hlands := call_lands hinv h hpc (hpast t) (hwant t)
    generalize w.mem.step call = r at hlands hres
    obtain ⟨m', out⟩ := r
    cases out with
    | running call' => exact absurd hres hne
    | done res' =>
      have hlast : [Event.result t call.op res'] = [.result t op res] :=
        List.append_cancel_left hres
      cases hlast
      exact hlands
  | dropping u call call' hpc hout => exact absurd hres hne
  | dropped u call hpc => exact absurd hres hne
  | invoke u op' hpc => cases ha
  | drop u x y hpc hy => cases ha
  | release x hx => cases ha

end run

end Sdd.Proofs.Stack
