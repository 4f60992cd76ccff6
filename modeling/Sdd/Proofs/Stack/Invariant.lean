import Sdd.Lib.Run
import Sdd.Proofs.Stack.Calls

/-!
# `Sdd.Proofs.Stack.Invariant`: the invariant of a stack

A stack by itself is a family of one stack. `Inv w tgt` is what holds in every state of it:
`Stacks`, and `CallInv` for the call of each thread; an entry that a thread holds is not
released, and no two threads have created the same entry. `inv_step` says that every action
keeps it, and `inv_of_run` that it holds in every run.
-/

set_option autoImplicit false

namespace Sdd.Proofs.Stack

open Sdd.Lib Sdd.Lib.Linearize Sdd.Stack

variable {T : Type} {n : Nat} {w w' : World T n} {m' : Mem T} {tgt tgt' : Addr → Option Addr}
  {t : Fin n}

/-- The words of a stack by itself. -/
def One (m : Mem T) (tgt : Addr → Option Addr) : Prop :=
  Stacks m.heap m.attached (fun _ => ()) (fun _ => m.newest) tgt

/-- The word of the only stack is changed. -/
theorem One.of_update {m : Mem T} {owner : Addr → Unit}
    (h : Stacks m'.heap m'.attached owner (Function.update (fun _ => m.newest) () m'.newest) tgt) :
    One m' tgt := by
  have howner : owner = fun _ => () := Subsingleton.elim _ _
  have hword : Function.update (fun _ => m.newest) () m'.newest = fun _ : Unit => m'.newest := by
    funext j
    exact Function.update_self () _ _
  rw [howner, hword] at h
  exact h

section contents

variable {m : Mem T}

/-- The undeleted entries of a stack by itself are those of the family. -/
theorem one_entries : entries m.heap m.attached (fun _ => ()) () = m.contents := by
  unfold entries Mem.contents
  simp

theorem mem_contents {x : Addr} :
    x ∈ m.contents ↔ x ∈ m.attached ∧ m.heap.isDeleted x = false := by
  simp [Mem.contents]

/-- The first undeleted entry is where `newest` leads to. -/
theorem One.head_eq (hs : One m tgt) : m.contents.head? = m.newest.bind tgt := by
  rw [← one_entries]
  exact Stacks.head_eq hs ()

/-- The stack is empty when `newest` is null. -/
theorem One.contents_nil (hs : One m tgt) (hnone : m.newest = none) : m.contents = [] := by
  rw [← List.head?_eq_none_iff, hs.head_eq, hnone]
  rfl

end contents

/-- What a thread knows. -/
def PcOk (m : Mem T) (tgt : Addr → Option Addr) : Pc T → Prop
  | .idle => True
  | .call call => CallInv m.heap m.attached tgt call
  | .drop call => ∃ b, CallOk (listView m.attached m.heap.isDeleted tgt) False b call

/-- The entry that a thread has created and not attached yet. -/
def pcEntry : Pc T → Option Addr
  | .call call => ownEntry call
  | .idle | .drop _ => none

structure Inv (w : World T n) (tgt : Addr → Option Addr) : Prop where
  one : One w.mem tgt
  ok : ∀ t, PcOk w.mem tgt (w.pc t)
  held : ∀ t x, (w.pc t).holds x = true → w.mem.heap.released x = false
  own : ∀ t u e, pcEntry (w.pc t) = some e → pcEntry (w.pc u) = some e → t = u

/-- The thread can go on from `pc`, which it has come to from the place `pc₀` in `m`. -/
structure Fits (m m' : Mem T) (tgt' : Addr → Option Addr) (pc₀ pc : Pc T) : Prop where
  ok : PcOk m' tgt' pc
  held : ∀ x, pc.holds x = true → m'.heap.released x = false
  own : ∀ e, pcEntry pc = some e → pcEntry pc₀ = some e ∨ m.heap.nextAddr ≤ e

theorem PcOk.ext {m : Mem T} {own : Option Addr} {pc : Pc T} (h : PcOk m tgt pc)
    (he : Ext m.heap m'.heap m.attached m'.attached tgt tgt' own)
    (hown : ∀ e, pcEntry pc = some e → own ≠ some e) : PcOk m' tgt' pc := by
  cases pc with
  | idle => exact trivial
  | call call => exact CallInv.ext h he hown
  | drop call =>
    obtain ⟨b, hcall⟩ := h
    exact ⟨b, he.later.callOk hcall⟩

/-- The entry that a thread has created is allocated. -/
theorem PcOk.entry_lt {m : Mem T} {pc : Pc T} {e : Addr} (h : PcOk m tgt pc)
    (he : pcEntry pc = some e) : e < m.heap.nextAddr := by
  cases pc with
  | call call => exact (CallInv.unattached h he).1
  | idle => cases he
  | drop call => cases he

/-- A thread moves, and the others keep what they know. -/
theorem Inv.moves (h : Inv w tgt) {pc : Pc T} {hist : List (Event (Fin n) (Op T) Res)}
    (hone : One m' tgt')
    (hext : Ext w.mem.heap m'.heap w.mem.attached m'.attached tgt tgt' (pcEntry (w.pc t)))
    (hrel : m'.heap.released = w.mem.heap.released) (hf : Fits w.mem m' tgt' (w.pc t) pc) :
    Inv (World.goto ⟨m', w.pc, hist⟩ t pc) tgt' where
  one := hone
  ok u := by
    show PcOk m' tgt' (Function.update w.pc t pc u)
    by_cases hu : u = t
    · rw [hu, Function.update_self]
      exact hf.ok
    · rw [Function.update_of_ne hu]
      exact (h.ok u).ext hext fun e he hc => hu (h.own u t e he hc)
  held u x hx := by
    change (Function.update w.pc t pc u).holds x = true at hx
    show m'.heap.released x = false
    by_cases hu : u = t
    · rw [hu, Function.update_self] at hx
      exact hf.held x hx
    · rw [Function.update_of_ne hu] at hx
      rw [hrel]
      exact h.held u x hx
  own := by
    -- The entry of the thread is its old one or a new one, and nobody else has it.
    have hnew : ∀ u e, u ≠ t → pcEntry (w.pc u) = some e → pcEntry pc ≠ some e := by
      intro u e hu he hc
      rcases hf.own e hc with hold | hfresh
      · exact hu (h.own u t e he hold)
      · exact absurd (PcOk.entry_lt (h.ok u) he) (Nat.not_lt.mpr hfresh)
    intro u u' e he he'
    change pcEntry (Function.update w.pc t pc u) = some e at he
    change pcEntry (Function.update w.pc t pc u') = some e at he'
    by_cases hu : u = t
    · by_cases hu' : u' = t
      · rw [hu, hu']
      · rw [hu, Function.update_self] at he
        rw [Function.update_of_ne hu'] at he'
        exact absurd he (hnew u' e hu' he')
    · rw [Function.update_of_ne hu] at he
      by_cases hu' : u' = t
      · rw [hu', Function.update_self] at he'
        exact absurd he' (hnew u e hu he)
      · rw [Function.update_of_ne hu'] at he'
        exact h.own u u' e he he'

/-- A place that a thread comes to without an entry of its own. -/
theorem Fits.of_none {m : Mem T} {pc₀ pc : Pc T} (hok : PcOk m' tgt' pc)
    (hheld : ∀ x, pc.holds x = true → m'.heap.released x = false) (hown : pcEntry pc = none) :
    Fits m m' tgt' pc₀ pc where
  ok := hok
  held := hheld
  own e he := by
    rw [hown] at he
    cases he

/-- One access of a call. -/
theorem call_inv (h : Inv w tgt) {call : Call T} (hpc : w.pc t = .call call) (op : Op T) :
    ∃ tgt', Inv (w.called t op (w.mem.step call)) tgt' := by
  have hok := h.ok t
  rw [hpc] at hok
  have hheld : ∀ x, call.holds x = true → w.mem.heap.released x = false := fun x hx =>
    h.held t x (by rw [hpc]; exact hx)
  obtain ⟨owner', tgt', -, hmoved⟩ := step_steps (i := ()) h.one rfl hok hheld
  have hown : pcEntry (w.pc t) = ownEntry call := by
    rw [hpc]
    rfl
  have hone : One (w.mem.step call).1 tgt' := .of_update hmoved.words
  have hext := hmoved.ext
  rw [← hown] at hext
  refine ⟨tgt', ?_⟩
  have hout := hmoved.outcome
  have hfresh := hmoved.own
  rw [← hown] at hfresh
  cases hstep : w.mem.step call with
  | mk m' out =>
    rw [hstep] at hone hext hout hfresh
    have hrel : m'.heap.released = w.mem.heap.released := by
      have := hmoved.released
      rw [hstep] at this
      exact this
    cases out with
    | running call' =>
      exact h.moves hone hext hrel ⟨hout.1, hout.2, fun e he => hfresh call' e rfl he⟩
    | done res =>
      refine h.moves hone hext hrel (.of_none trivial ?_ rfl)
      intro x hx
      cases hx

/-- What an action can do. -/
inductive Stepped (w : World T n) : Action T n → World T n → Prop where
  | invoke (t : Fin n) (op : Op T) (hpc : w.pc t = .idle) :
      Stepped w (.thread t (.invoke op))
        (World.goto { w with history := w.history ++ [.invoke t op] } t (.call (.start op)))
  | call (t : Fin n) (call : Call T) (hpc : w.pc t = .call call) :
      Stepped w (.thread t .proceed) (w.called t call.op (w.mem.step call))
  | dropping (t : Fin n) (call call' : NextPtr) (hpc : w.pc t = .drop call)
      (hout : (call.step w.mem.heap).2 = .running call') :
      Stepped w (.thread t .proceed) (World.goto
        { w with mem := { w.mem with heap := (call.step w.mem.heap).1 } } t (.drop call'))
  | dropped (t : Fin n) (call : NextPtr) (hpc : w.pc t = .drop call) :
      Stepped w (.thread t .proceed) (World.goto
        { w with mem := { w.mem with heap := (call.step w.mem.heap).1 } } t .idle)
  | drop (t : Fin n) (x y : Addr) (hpc : w.pc t = .idle) (hy : next w.mem.heap x = some y) :
      Stepped w (.thread t (.drop x)) (w.goto t (.drop (.start y)))
  | release (x : Addr) (hx : w.unowned x = true) :
      Stepped w (.release x) { w with mem := { w.mem with heap := w.mem.heap.release x } }

theorem stepped {a : Action T n} (hw : w.step a = some w') : Stepped w a w' := by
  unfold World.step at hw
  split at hw
  · rename_i t op
    split at hw
    · rename_i hpc
      cases hw
      exact .invoke t op hpc
    · cases hw
  · rename_i t
    unfold World.proceed at hw
    split at hw
    · cases hw
    · rename_i call hpc
      cases hw
      exact .call t call hpc
    · rename_i call hpc
      simp only at hw
      split at hw
      · rename_i call' hout
        cases hw
        exact .dropping t call call' hpc hout
      · cases hw
        exact .dropped t call hpc
  · rename_i t x
    split at hw
    · rename_i y hpc hrel hy
      cases hw
      exact .drop t x y hpc hy
    · cases hw
  · rename_i x
    split at hw
    · rename_i hx
      cases hw
      exact .release x hx
    · cases hw

/-- The write of a destructor. -/
theorem Inv.drop_cleans (h : Inv w tgt) {call : NextPtr} (hpc : w.pc t = .drop call) :
    Cleans (listView w.mem.attached w.mem.heap.isDeleted tgt) w.mem.heap
      (call.step w.mem.heap).1 := by
  have hok := h.ok t
  rw [hpc] at hok
  obtain ⟨b, hcall⟩ := hok
  exact nextPtr_cleans hcall fun x hx => h.held t x (by rw [hpc]; simp [Pc.holds, hx])

/-- A step of a destructor. -/
theorem drop_inv (h : Inv w tgt) {call : NextPtr} (hpc : w.pc t = .drop call) {pc : Pc T}
    (hf : ∀ m', m'.heap = (call.step w.mem.heap).1 → m'.attached = w.mem.attached →
      Fits w.mem m' tgt (w.pc t) pc) :
    Inv (World.goto { w with mem := { w.mem with heap := (call.step w.mem.heap).1 } } t pc)
      tgt := by
  have hclean := h.drop_cleans hpc
  have hext : Ext w.mem.heap (call.step w.mem.heap).1 w.mem.attached w.mem.attached tgt tgt
      (pcEntry (w.pc t)) := (ext_clean hclean).of_none
  exact h.moves (h.one.clean hclean) hext hclean.fields.2.1 (hf _ rfl rfl)

/-- The release of an entry that nothing refers to. -/
theorem release_inv (h : Inv w tgt) {x : Addr} (hx : w.unowned x = true) :
    Inv { w with mem := { w.mem with heap := w.mem.heap.release x } } tgt := by
  unfold World.unowned at hx
  simp only [Bool.and_eq_true, decide_eq_true_eq, bne_iff_ne, ne_eq] at hx
  obtain ⟨⟨⟨hlt, hnewest⟩, hun⟩, hheld⟩ := hx
  refine ⟨h.one.release hlt hun fun _ => hnewest, ?_, ?_, h.own⟩
  · exact fun u => (h.ok u).ext (ext_release x) fun _ _ => by simp
  · intro u y hy
    have hyx : y ≠ x := by
      rintro rfl
      have hnot := List.all_eq_true.mp hheld u (List.mem_finRange u)
      rw [Bool.not_eq_true'] at hnot
      change (w.pc u).holds y = true at hy
      rw [hnot] at hy
      cases hy
    show Function.update w.mem.heap.released x true y = false
    rw [Function.update_of_ne hyx]
    exact h.held u y hy

/-- Every action keeps the invariant. -/
theorem inv_step (h : Inv w tgt) {a : Action T n} (hw : w.step a = some w') :
    ∃ tgt', Inv w' tgt' := by
  cases stepped hw with
  | invoke t op hpc =>
    refine ⟨tgt, h.moves h.one (.refl _ _ _ _) rfl ⟨callInv_start op, ?_, ?_⟩⟩
    · intro x hx
      cases op <;> cases hx
    · intro e he
      cases op <;> cases he
  | call t call hpc => exact call_inv h hpc call.op
  | dropping t call call' hpc hout =>
    have hclean := h.drop_cleans hpc
    have hok := h.ok t
    rw [hpc] at hok
    obtain ⟨b, hcall⟩ := hok
    have hafter := nextPtr_ok h.one.heap hcall
    rw [hout] at hafter
    refine ⟨tgt, drop_inv h hpc fun m' hheap hatt => .of_none ?_ ?_ rfl⟩
    · refine ⟨b, ?_⟩
      rw [hheap, hatt]
      exact (ext_clean hclean).later.callOk hafter
    · intro x hx
      rw [hheap, hclean.fields.2.1]
      exact nextPtr_holds hout (by simpa [Pc.holds] using hx)
  | dropped t call hpc =>
    refine ⟨tgt, drop_inv h hpc fun m' _ _ => .of_none trivial ?_ rfl⟩
    intro x hx
    cases hx
  | drop t x y hpc hy =>
    have hatt : y ∈ w.mem.attached := h.one.leads x y hy
    refine ⟨tgt, h.moves h.one (.refl _ _ _ _) rfl (.of_none ?_ ?_ rfl)⟩
    · exact ⟨y, callOk_start hatt False.elim⟩
    · intro z hz
      cases hz
  | release x hx => exact ⟨tgt, release_inv h hx⟩

/-- What remains of the entries in every step: an attached one stays attached and keeps its
instance, and a deleted one stays deleted. -/
structure Later (m m' : Mem T) : Prop where
  att : ∀ x ∈ m.attached, x ∈ m'.attached
  dead : ∀ x, m.heap.isDeleted x = true → m'.heap.isDeleted x = true
  value : ∀ x ∈ m.attached, m'.heap.value x = m.heap.value x

theorem Later.refl (m : Mem T) : Later m m := ⟨fun _ h => h, fun _ h => h, fun _ _ => rfl⟩

/-- A clean-up changes no entry. -/
theorem later_clean {v : View} {m : Mem T} {h' : Heap T} (hc : Cleans v m.heap h') :
    Later m { m with heap := h' } where
  att _ hx := hx
  dead x hx := by
    show h'.isDeleted x = true
    rw [hc.isDeleted_eq]
    exact hx
  value x _ := congrFun hc.fields.1 x

theorem later_step (h : Inv w tgt) {a : Action T n} (hw : w.step a = some w') :
    Later w.mem w'.mem := by
  cases stepped hw with
  | invoke t op hpc => exact .refl _
  | call t call hpc =>
    have hok := h.ok t
    rw [hpc] at hok
    obtain ⟨owner', tgt', -, hmoved⟩ := step_steps (i := ()) h.one rfl hok fun x hx =>
      h.held t x (by rw [hpc]; exact hx)
    have hlater : Later w.mem (w.mem.step call).1 :=
      ⟨hmoved.ext.later.att, hmoved.ext.later.dead, fun x hx => hmoved.value x (h.one.heap.bound x hx)⟩
    generalize w.mem.step call = r at hlater
    obtain ⟨m', out⟩ := r
    cases out with
    | running call' => exact hlater
    | done res => exact hlater
  | dropping t call call' hpc hout => exact later_clean (h.drop_cleans hpc)
  | dropped t call hpc => exact later_clean (h.drop_cleans hpc)
  | drop t x y hpc hy => exact .refl _
  | release x hx => exact ⟨fun _ hy => hy, fun _ hy => hy, fun _ _ => rfl⟩

/-- The thread of an action. -/
def actor : Action T n → Option (Fin n)
  | .thread t _ => some t
  | .release _ => none

/-- The other threads stay where they are. -/
theorem pc_step {a : Action T n} (hw : w.step a = some w') {u : Fin n} (hu : actor a ≠ some u) :
    w'.pc u = w.pc u := by
  have hne : ∀ t, actor a = some t → u ≠ t := fun t ht hc => hu (hc ▸ ht)
  cases stepped hw with
  | call t call hpc =>
    generalize w.mem.step call = r
    obtain ⟨m', out⟩ := r
    cases out with
    | running call' => exact Function.update_of_ne (hne t rfl) _ _
    | done res => exact Function.update_of_ne (hne t rfl) _ _
  | invoke t op hpc => exact Function.update_of_ne (hne t rfl) _ _
  | dropping t call call' hpc hout => exact Function.update_of_ne (hne t rfl) _ _
  | dropped t call hpc => exact Function.update_of_ne (hne t rfl) _ _
  | drop t x y hpc hy => exact Function.update_of_ne (hne t rfl) _ _
  | release x hx => rfl

/-- The first state. -/
theorem inv_init : Inv (World.init : World T n) some where
  one :=
    { heap :=
        { skip := ⟨fun _ _ => rfl, fun _ hx => by cases hx⟩
          dead := rfl
          tags := fun _ => nofun
          links := fun _ _ hx => by cases hx
          owned := fun _ _ _ hy => by cases hy
          fresh := fun _ _ => rfl
          bound := fun _ hx => by cases hx
          allocated := fun _ hx => by cases hx
          trans := fun _ _ _ => before_trans
          wf := before_wf _ _ _ }
      list := fun _ => rfl
      nodup := .nil
      roots := fun _ _ hx => by cases hx
      unattached := fun _ _ => rfl
      leads := fun _ _ hy => by cases hy }
  ok _ := trivial
  held _ _ hx := by cases hx
  own _ _ _ he := by cases he

/-- The invariant holds in every run. -/
theorem inv_of_run {P : World T n → Action T n → Prop} (h : Run World.step P World.init w) :
    ∃ tgt, Inv w tgt := by
  refine h.invariant (fun w => ∃ tgt, Inv w tgt) ⟨some, inv_init⟩ ?_
  intro x a x' hx _ hs
  obtain ⟨tgt, hinv⟩ := hx
  exact inv_step hinv hs

end Sdd.Proofs.Stack
