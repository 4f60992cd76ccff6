import Sdd.Proofs.Bag.Observers
import Sdd.Proofs.Stacks.Handover

/-!
# `Sdd.Proofs.Bag.PopNone`: what `pop` has seen when it returns `None`

`pop` looks at one storage of the stack, the one that it has got from `peek_with`, and then at the
primary storage. It does not look at the storages below, and the two looks are two moments.
`pop_misses` is a run in which `pop` returns `None` although a lower storage has had a valid
slot all the time: another call of `pop` owns the only valid slot of the storage on top.

`Undisturbed` excludes the two things that can go wrong: the storage on top has no valid slot while
another one in the stack has, and a storage is attached after `pop` has gone past the stack.
`pop_reports_empty` is the main result: otherwise the bag is empty at some moment of the call.

The step lemma is `stackEmpty_step`: only an `attach` ends the time in which no storage in the stack
has a valid slot.
-/

set_option autoImplicit false

namespace Sdd.Proofs.Bag

open Sdd.Lib
open Sdd.Lib.Linearize (Event)
open Sdd.Bag (Mem Call Pc Op Res World Action)
open Sdd.Proofs.Stack (mem_entries)
open Sdd.Proofs.Stacks (FamilyInv Contents contents_iff contents_delete)

variable {bits n len : Nat} {T : Type} {m m' : Mem bits T n} {pc : Fin n → Pc bits T} {t : Fin n}
  {c : Call bits T} {fails : Bool}

/-- No storage in the stack has a valid slot. A deleted entry is not in the stack any more. -/
def StackEmpty (len : Nat) (m : Mem bits T n) : Prop :=
  ∃ l, Contents m.family none l ∧ ∀ x ∈ l, Dead len (m.storage x)

/-- No storage of the bag has a valid slot. -/
def BagEmpty (len : Nat) (m : Mem bits T n) : Prop := Dead len m.primary ∧ StackEmpty len m

/-- With its next access the thread `t`, in `pop` of the storage that it has got from the stack,
finds no valid slot. -/
def GivesUp (len : Nat) (t : Fin n) (w : World bits T n) (a : Action T n) : Prop :=
  (∃ fails, a = .thread t (.proceed fails)) ∧
    ∃ x call, w.pc t = .call (.popStorage x call) ∧
      (call = .load ∨ ∃ metadata index, call = .exchange metadata index) ∧
      Dead len (w.mem.storage x)

/-- A new storage goes on the stack. -/
def Attaches (w : World bits T n) (a : Action T n) : Prop :=
  ∃ u fails val q e, a = .thread u (.proceed fails) ∧
    w.pc u = .call (.pushNew val (.attach q e (w.mem.family.newest none)))

/-- Nothing gets past `pop` of the thread `t`. -/
def Undisturbed (len : Nat) (t : Fin n) (w : World bits T n) (a : Action T n) : Prop :=
  (GivesUp len t w a → StackEmpty len w.mem) ∧
    (Attaches w a → (∃ call, w.pc t = .call (.popPrimary call)) → Dead len w.mem.primary)

section stack

/-- The stack keeps at most the entries that it has, and they stay dead. -/
theorem StackEmpty.keeps (he : StackEmpty len m)
    (hl : ∀ l, Contents m.family none l → ∃ l', Contents m'.family none l' ∧ l' ⊆ l)
    (hd : ∀ l, Contents m.family none l → ∀ x ∈ l, Dead len (m.storage x) →
      Dead len (m'.storage x)) : StackEmpty len m' := by
  obtain ⟨l, hcontents, hdead⟩ := he
  obtain ⟨l', hcontents', hsub⟩ := hl l hcontents
  exact ⟨l', hcontents', fun x hx => hd l hcontents x (hsub hx) (hdead x (hsub hx))⟩

/-- A write to a storage without valid slots that leaves it so. -/
theorem StackEmpty.setStorage (he : StackEmpty len m) {x : Addr} {s : Storage bits T}
    (hd : Dead len (m.storage x) → Dead len s) : StackEmpty len (m.setStorage x s) := by
  refine he.keeps (fun l hl => ⟨l, hl.congr rfl rfl, List.Subset.refl l⟩) fun l _ y _ hy => ?_
  rw [storage_setStorage]
  split
  · rename_i hyx
    exact hd (hyx ▸ hy)
  · exact hy

/-- A step that does not change the storages. -/
theorem StackEmpty.setFamily (he : StackEmpty len m)
    {f : Sdd.Stacks.Family (Storage bits T) (Option (Fin n))}
    (hl : ∀ l, Contents m.family none l → ∃ l', Contents f none l' ∧ l' ⊆ l)
    (hvalue : ∀ l, Contents m.family none l → ∀ x ∈ l, f.heap.value x = m.family.heap.value x) :
    StackEmpty len (m.setFamily f) := by
  refine he.keeps hl fun l hcontents x hx hd => ?_
  rw [storage_congr (m := m) (hvalue l hcontents x hx)]
  exact hd

/-- A stack whose word is null is empty. -/
theorem stackEmpty_of_null (hnewest : m.family.newest none = none) : StackEmpty len m := by
  refine ⟨[], ⟨[], ?_, rfl⟩, fun x hx => by cases hx⟩
  rw [hnewest]
  rfl

variable (hlen : ArrayLen bits len) (h : Inv len m pc)
include hlen h

omit hlen in
/-- The undeleted entries of the stack are attached. -/
theorem attached_of_contents {l : List Addr} (hl : Contents m.family none l) :
    ∀ x ∈ l, x ∈ m.family.attached := by
  obtain ⟨owner, tgt, hf⟩ := h.family
  intro x hx
  rw [(contents_iff hf.words).mp hl] at hx
  exact (mem_entries.mp hx).1

omit hlen in
/-- An access of a call on the stack `i` that does not attach an entry. -/
theorem stackEmpty_access {call : Stack.Call (Storage bits T)} (hpc : pc t = .call c)
    (hplace : callPlace c = .call call) (i : Option (Fin n))
    (hnot : ∀ q e, call ≠ .attach q e (m.family.newest i)) (he : StackEmpty len m) :
    StackEmpty len (m.setFamily (m.family.setMem i ((m.family.mem i).step call).1)) := by
  obtain ⟨-, hvalue, -⟩ := stack_effect h hpc hplace i
  obtain ⟨owner, tgt, hf⟩ := h.family
  have hcall : (placeOf ∘ pc) t = .call call := by
    rw [Function.comp_apply, hpc]
    exact hplace
  exact he.setFamily (fun l hl => hl.access hf hcall hnot) fun l hl x hx =>
    hvalue x (attached_of_contents h hl x hx)

/-- An access of a call that does not attach a storage. -/
theorem stackEmpty_call (hpc : pc t = .call c)
    (hnot : ∀ val q e, c ≠ .pushNew val (.attach q e (m.family.newest none)))
    (he : StackEmpty len m) : StackEmpty len (c.step len fails t m).1 := by
  have hok : CallOk len m c := h.calls t c hpc
  -- A call of `peek` or `pop` does not attach.
  have hattach : ∀ {call : Stack.Call (Storage bits T)} {i q e},
      call.op = .peek ∨ call.op = .pop → call ≠ .attach q e (m.family.newest i) := by
    rintro call i q e hop rfl
    rcases hop with hop | hop <;> cases hop
  cases c with
  | pushPrimary tries val call => exact he
  | pushPeek val call =>
    exact stackEmpty_access h hpc rfl none (fun q e => hattach (.inl hok)) he
  | pushStorage val x call =>
    have hself : callClaims (some x) (.pushStorage val x call) = pushClaims val call := if_pos rfl
    exact he.setStorage (pushCall_dead hlen (hself ▸ knows_storage h hpc rfl) hok)
  | pushNew val call =>
    exact stackEmpty_access h hpc rfl none (fun q e hc => hnot val q e (by rw [hc])) he
  | popPeek call =>
    exact stackEmpty_access h hpc rfl none (fun q e => hattach (.inl hok)) he
  | popStorage x call =>
    have hself : callClaims (some x) (.popStorage x call) = popClaims call := if_pos rfl
    exact he.setStorage (popCall_dead hlen (hself ▸ knows_storage h hpc rfl) hok)
  | popDelete x val =>
    obtain ⟨owner, tgt, hf⟩ := h.family
    have hatt : x ∈ m.family.attached := by
      have hused : placeOf (pc t) = .uses x false := by
        rw [hpc]
        rfl
      exact h.used hused
    have hvalue : (m.family.heap.deleteSelf x).1.value = m.family.heap.value := by
      unfold Heap.deleteSelf
      split <;> rfl
    refine he.setFamily (fun l hl => ?_) fun l _ y _ => congrFun hvalue y
    cases hlive : m.family.heap.isDeleted x with
    | true =>
      rw [deleteSelf_dead hlive]
      exact ⟨l, hl, List.Subset.refl l⟩
    | false =>
      exact ⟨_, contents_delete hf.words hatt hlive ⟨rfl, rfl, rfl⟩ hl, List.erase_subset⟩
  | popPrimary call => exact he
  | allSwap =>
    refine stackEmpty_of_null ?_
    show Function.update (Function.update m.family.newest (some t) (m.family.newest none)) none none
      none = none
    exact Function.update_self ..
  | allPop acc call =>
    exact stackEmpty_access h hpc rfl (some t) (fun q e => hattach (.inr hok)) he
  | allStorage x call =>
    have hself : callClaims (some x) (.allStorage x call) = allClaims call := if_pos rfl
    exact he.setStorage (allCall_dead hlen (hself ▸ knows_storage h hpc rfl) hok.1)
  | allPrimary call => exact he

end stack

section call

/-- What `pop` has seen. -/
def Passed (len : Nat) (m : Mem bits T n) : Call bits T → Prop
  | .popDelete _ val => val.isSome = true
  | .popPrimary _ => StackEmpty len m
  | _ => True

/-- `pop` of a storage returns a value, or the storage has no valid slot. -/
theorem popCall_done (hlen : ArrayLen bits len) {s : Storage bits T} {call : PopCall bits T}
    {val : Option T} {empty : Bool} (hout : (call.step len fails s).2 = .done (val, empty)) :
    val.isSome = true ∨ val = none ∧ empty = false ∧ (call.step len fails s).1 = s ∧ Dead len s ∧
      (call = .load ∨ ∃ metadata index, call = .exchange metadata index) := by
  cases call with
  | load =>
    obtain ⟨hval, hd⟩ := popLoop_done hlen hout
    cases hval
    exact .inr ⟨rfl, rfl, rfl, hd, .inl rfl⟩
  | exchange metadata index =>
    simp only [PopCall.step] at hout ⊢
    split at hout
    · cases hout
    · rename_i hne
      obtain ⟨hval, hd⟩ := popLoop_done hlen hout
      cases hval
      rw [if_neg hne]
      exact .inr ⟨rfl, rfl, rfl, hd, .inr ⟨_, _, rfl⟩⟩
  | read index =>
    simp only [PopCall.step] at hout
    split at hout <;> cases hout
  | clear inst index =>
    cases hout
    exact .inl rfl
  | uninit => cases hout

variable (hlen : ArrayLen bits len) (h : Inv len m pc)
include hlen h

/-- One access of `pop`. -/
theorem passed_call (fails : Bool) (hpc : pc t = .call c) (hp : Passed len m c)
    (hgives : ∀ x call, c = .popStorage x call →
      (call = .load ∨ ∃ metadata index, call = .exchange metadata index) →
      Dead len (m.storage x) → StackEmpty len m) :
    outcome (Passed len (c.step len fails t m).1) (fun _ => True) (c.step len fails t m).2 := by
  have hop := (call_after hlen h hpc fails).op
  -- Only `pop` goes on to the primary storage or deletes an entry.
  have hother : c.op ≠ .pop → outcome (Passed len (c.step len fails t m).1) (fun _ => True)
      (c.step len fails t m).2 := by
    intro hne
    generalize c.step len fails t m = r at hop
    obtain ⟨m', out⟩ := r
    cases out with
    | done res => exact trivial
    | running c' =>
      cases c' with
      | popDelete x val => exact absurd hop.symm hne
      | popPrimary call => exact absurd hop.symm hne
      | _ => exact trivial
  cases c with
  | popPeek call =>
    obtain ⟨heffect, -⟩ := stack_effect h hpc rfl none
    have hquiet := heffect.quiet_of (.inl (h.calls t _ hpc))
    simp only [Call.step]
    cases hout : ((m.family.mem none).step call).2 with
    | running call' => exact trivial
    | done res =>
      have hanswer := hquiet.done res hout
      rw [show call.op = .peek from h.calls t _ hpc] at hanswer
      obtain ⟨o, rfl⟩ := hanswer.of_peek
      cases o with
      | some x => exact trivial
      | none =>
        refine stackEmpty_of_null ?_
        show Function.update m.family.newest none _ none = none
        rw [Function.update_self]
        exact hanswer.2
  | popStorage x call =>
    have hfound := @popCall_done _ _ _ fails hlen (m.storage x) call
    simp only [Call.step]
    generalize call.step len fails (m.storage x) = r at hfound
    obtain ⟨s', out⟩ := r
    cases out with
    | running call' => exact trivial
    | done res =>
      obtain ⟨val, empty⟩ := res
      rcases hfound rfl with hval | ⟨rfl, rfl, rfl, hd, hlooks⟩
      · obtain ⟨v, rfl⟩ := Option.isSome_iff_exists.mp hval
        cases empty with
        | true => exact hval
        | false => exact trivial
      · exact (hgives x call rfl hlooks hd).setStorage id
  | popDelete x val =>
    obtain ⟨v, rfl⟩ := Option.isSome_iff_exists.mp hp
    exact trivial
  | popPrimary call =>
    have hempty : StackEmpty len (m.setPrimary (call.step len fails m.primary).1) := hp
    simp only [Call.step]
    cases (call.step len fails m.primary).2 with
    | running call' => exact hempty
    | done res => exact trivial
  | pushPrimary tries val call => exact hother fun hc => by cases tries <;> cases hc
  | _ => exact hother fun hc => by cases hc

/-- `pop` returns `None` only if it has found no valid slot in the primary storage. -/
theorem empty_of_none (fails : Bool) (hpc : pc t = .call c) (hp : Passed len m c)
    (hout : (c.step len fails t m).2 = .done (.popped none)) : BagEmpty len m := by
  have hans := (call_after hlen h hpc fails).op
  rw [hout] at hans
  cases c with
  | popPrimary call =>
    simp only [Call.step] at hout
    cases hstep : (call.step len fails m.primary).2 with
    | running call' =>
      rw [hstep] at hout
      cases hout
    | done res =>
      obtain ⟨val, empty⟩ := res
      rw [hstep] at hout
      cases hout
      rcases popCall_done hlen hstep with hval | ⟨-, -, -, hd, -⟩
      · cases hval
      · exact ⟨hd, hp⟩
  | popPeek call =>
    simp only [Call.step, Call.popPeeked] at hout
    split at hout <;> cases hout
  | popStorage x call =>
    simp only [Call.step] at hout
    cases hstep : (call.step len fails (m.storage x)).2 with
    | running call' =>
      rw [hstep] at hout
      cases hout
    | done res =>
      obtain ⟨val, empty⟩ := res
      rw [hstep] at hout
      rcases popCall_done hlen hstep with hval | ⟨rfl, rfl, -⟩
      · obtain ⟨v, rfl⟩ := Option.isSome_iff_exists.mp hval
        cases empty <;> cases hout
      · cases hout
  | popDelete x val =>
    obtain ⟨v, rfl⟩ := Option.isSome_iff_exists.mp hp
    cases hout
  | pushPrimary tries val call => cases tries <;> exact hans.elim
  | _ => exact hans.elim

end call

section run

variable {w w' w₁ w₂ w₃ w₄ : World bits T n} {a : Action T n} {P : World bits T n → Action T n → Prop}

/-- Only an `attach` ends the time in which no storage in the stack has a valid slot. -/
theorem stackEmpty_step (hlen : ArrayLen bits len) (h : Inv len w.mem w.pc)
    (hs : w.step len a = some w') (hnot : ¬Attaches w a) (he : StackEmpty len w.mem) :
    StackEmpty len w'.mem := by
  cases stepped hs with
  | invoke u op hpc => exact he
  | drop u x y hpc hy => exact he
  | release x hx =>
    exact he.setFamily (fun l hl => ⟨l, hl.congr rfl rfl, List.Subset.refl l⟩) fun _ _ _ _ => rfl
  | clean u c fails p hpc hp =>
    obtain ⟨owner, tgt, hf⟩ := h.family
    have hplace : (placeOf ∘ w.pc) u = .drop c := congrArg placeOf hpc
    have hclean := hf.drop_cleans hplace
    have hstacks := hf.words.clean hclean
    refine he.setFamily (fun l hl => ⟨l, ?_, List.Subset.refl l⟩)
      fun l _ x _ => congrFun hclean.fields.1 x
    exact hl.write hf.words hstacks hclean.isDeleted_eq ⟨rfl, rfl, rfl⟩
  | call u c fails hpc =>
    rw [(called_eq (w := w) (t := u) c.op (c.step len fails u w.mem)).1]
    refine stackEmpty_call hlen h hpc (fun val q e hc => hnot ?_) he
    exact ⟨u, fails, val, q, e, rfl, hpc.trans (congrArg _ hc)⟩

/-- What a run keeps of the call of `pop` of the thread `t`, as long as nothing gets past it. -/
structure Watched (len : Nat) (t : Fin n) (w : World bits T n) : Prop where
  inv : Inv len w.mem w.pc
  passed : ∀ c, w.pc t = .call c → Passed len w.mem c

theorem Watched.step (hlen : ArrayLen bits len) (h : Watched len t w)
    (hs : w.step len a = some w') (ha : Undisturbed len t w a) (hne : ¬BagEmpty len w.mem) :
    Watched len t w' := by
  refine ⟨inv_step hlen h.inv hs, ?_⟩
  -- A step of another thread.
  have hother : w'.pc t = w.pc t → ∀ c, w'.pc t = .call c → Passed len w'.mem c := by
    intro hsame c hc
    rw [hsame] at hc
    have hp := h.passed c hc
    cases c with
    | popPrimary call =>
      refine stackEmpty_step hlen h.inv hs (fun hatt => hne ?_) hp
      exact ⟨ha.2 hatt ⟨call, hc⟩, hp⟩
    | _ => exact hp
  cases stepped hs with
  | release x hx => exact hother rfl
  | invoke u op hpc =>
    by_cases hu : t = u
    · subst hu
      intro c hc
      change Function.update w.pc t _ t = .call c at hc
      rw [Function.update_self] at hc
      cases hc
      cases op <;> exact trivial
    · exact hother (Function.update_of_ne hu ..)
  | drop u x y hpc hy =>
    by_cases hu : t = u
    · subst hu
      intro c hc
      change Function.update w.pc t _ t = .call c at hc
      rw [Function.update_self] at hc
      cases hc
    · exact hother (Function.update_of_ne hu ..)
  | clean u c fails p hpc hp =>
    by_cases hu : t = u
    · subst hu
      intro c hc
      change Function.update w.pc t _ t = .call c at hc
      rw [Function.update_self] at hc
      rcases hp with ⟨c', -, rfl⟩ | ⟨q, -, rfl⟩ <;> cases hc
    · exact hother (Function.update_of_ne hu ..)
  | call u c fails hpc =>
    obtain ⟨hmem, hpc'⟩ := called_eq (w := w) (t := u) c.op (c.step len fails u w.mem)
    rw [hmem] at hother ⊢
    rw [hpc'] at hother ⊢
    by_cases hu : t = u
    · subst hu
      have hpassed := passed_call hlen h.inv fails hpc (h.passed c hpc)
        fun x call hc hlooks hd =>
          ha.1 ⟨⟨fails, rfl⟩, x, call, hpc.trans (congrArg _ hc), hlooks, hd⟩
      rw [Function.update_self]
      intro c' hc'
      cases hout : (c.step len fails t w.mem).2 with
      | running c'' =>
        rw [hout] at hc' hpassed
        cases hc'
        exact hpassed
      | done res =>
        rw [hout] at hc'
        cases hc'
    · exact hother (Function.update_of_ne hu ..)

/-- The step in which `pop` returns `None`. -/
theorem Watched.popped_none (hlen : ArrayLen bits len) (h : Watched len t w)
    (hs : w.step len a = some w')
    (hres : w'.history = w.history ++ [.result t .pop (.popped none)]) : BagEmpty len w.mem := by
  have hself : ∀ {e : Event (Fin n) (Op T) (Res T)}, w.history ≠ w.history ++ [e] :=
    fun hc => absurd (congrArg List.length hc) (by simp)
  cases stepped hs with
  | invoke u op hpc => cases List.append_cancel_left hres
  | clean u c fails p hpc hp => exact absurd hres hself
  | drop u x y hpc hy => exact absurd hres hself
  | release x hx => exact absurd hres hself
  | call u c fails hpc =>
    have hnone := empty_of_none hlen h.inv fails hpc
    generalize c.step len fails u w.mem = r at hnone hres
    obtain ⟨m', out⟩ := r
    cases out with
    | running c' => exact absurd hres hself
    | done res =>
      obtain ⟨hev⟩ := List.cons.inj (List.append_cancel_left hres)
      injection hev with hu hop hres'
      subst hu hres'
      exact hnone (h.passed c hpc) rfl

/-- `pop` returns `None` only when the bag is empty at some moment of the call, if nothing gets past
it: if it is not empty in any state of the call before the last one, it is empty in the last one. -/
theorem pop_reports_empty (hlen : ArrayLen bits len)
    (h₁ : Run (World.step len) P (World.init : World bits T n) w₁)
    (hinv : w₁.step len (.thread t (.invoke .pop)) = some w₂)
    (h₂ : Run (World.step len)
      (fun w a => Undisturbed len t w a ∧ w.pc t ≠ .idle ∧ ¬BagEmpty len w.mem) w₂ w₃)
    (hs : w₃.step len a = some w₄)
    (hres : w₄.history = w₃.history ++ [.result t .pop (.popped none)]) : BagEmpty len w₃.mem := by
  have hi := inv_of_run hlen h₁
  have hbegins : Watched len t w₂ := by
    refine ⟨inv_step hlen hi hinv, fun c hc => ?_⟩
    cases stepped hinv with
    | invoke u op hpc =>
      change Function.update w₁.pc t _ t = .call c at hc
      rw [Function.update_self] at hc
      cases hc
      exact trivial
  have hends := h₂.invariant (Watched len t) hbegins fun _ _ _ h hp hs =>
    h.step hlen hs hp.1 hp.2.2
  exact hends.popped_none hlen hs hres

/-- The next access of the thread is the one with which `pop` returns `None`, for the concrete
runs. -/
def popsNone (len : Nat) (t : Fin n) (w : World bits T n) : Bool :=
  match w.pc t with
  | .call (.popPrimary call) => match (call.step len false w.mem.primary).2 with
    | .done (none, _) => true
    | _ => false
  | _ => false

theorem popsNone_step (h : popsNone len t w = true) (hs : w.step len (.thread t (.proceed false)) =
    some w') : w'.history = w.history ++ [.result t .pop (.popped none)] := by
  unfold popsNone at h
  split at h
  · rename_i call hpc
    split at h
    · rename_i empty hout
      cases (proceed_eq hpc).symm.trans hs
      simp only [Call.step]
      rw [hout]
      rfl
    · cases h
  · cases h

/-- No thread uses a storage in the stack or pushes a new one, for the concrete runs. -/
def offStack (w : World bits T n) : Bool := (List.finRange n).all fun t => match w.pc t with
  | .call (.popStorage _ _) | .call (.pushNew _ _) => false
  | _ => true

theorem undisturbed_of_offStack (h : offStack w = true) : Undisturbed len t w a := by
  have hall := fun u => List.all_eq_true.mp h u (List.mem_finRange u)
  constructor
  · rintro ⟨-, x, call, hpc, -⟩
    have hoff := hall t
    rw [hpc] at hoff
    cases hoff
  · rintro ⟨u, fails, val, q, e, -, hpc⟩
    have hoff := hall u
    rw [hpc] at hoff
    cases hoff

/-- The thread is in a call, for the concrete runs. -/
def busy (t : Fin n) (w : World bits T n) : Bool := match w.pc t with
  | .idle => false
  | _ => true

theorem ne_idle_of_busy (h : busy t w = true) : w.pc t ≠ .idle := by
  intro hpc
  unfold busy at h
  rw [hpc] at h
  cases h

/-- A value is in the primary storage. Another call of `pop` takes it after the first one has gone
past the stack. -/
theorem pop_reports_empty_taken : ∃ w₃ w₄ : World 64 Nat 2,
    w₃.step 1 (.thread 0 (.proceed false)) = some w₄ ∧
      w₄.history = w₃.history ++ [.result 0 .pop (.popped none)] ∧ BagEmpty 1 w₃.mem := by
  have hex : (exec (World.step 1) (fun _ _ => true) (World.init : World 64 Nat 2)
      (call 0 (.push 5) 4)).any (fun w₁ => (w₁.step 1 (.thread 0 (.invoke .pop))).any fun w₂ =>
        (exec (World.step 1)
          (fun w _ => offStack w && (busy 0 w && valid 1 w.mem.primary.metadata 0)) w₂
          (.thread 0 (.proceed false) :: call 1 .pop 3)).any fun w₃ =>
            popsNone 1 0 w₃ && (w₃.step 1 (.thread 0 (.proceed false))).isSome) = true := by
    decide +kernel
  obtain ⟨w₁, h₁, hw₁⟩ := Run.of_exec_any hex
  obtain ⟨w₂, hinv, hw₂⟩ := (Option.any_eq_true _ _).mp hw₁
  obtain ⟨w₃, h₂, hw₃⟩ := Run.of_exec_any hw₂
  rw [Bool.and_eq_true] at hw₃
  obtain ⟨w₄, hs⟩ := Option.isSome_iff_exists.mp hw₃.2
  have hres := popsNone_step hw₃.1 hs
  refine ⟨w₃, w₄, hs, hres, ?_⟩
  refine pop_reports_empty ⟨by decide, by decide, by decide⟩ h₁ hinv (h₂.mono fun w a hw => ?_) hs
    hres
  simp only [Bool.and_eq_true] at hw
  obtain ⟨hoff, hbusy, hvalid⟩ := hw
  refine ⟨undisturbed_of_offStack hoff, ne_idle_of_busy hbusy, fun hempty => ?_⟩
  rw [hempty.1 0 (by decide)] at hvalid
  cases hvalid

/-- The second storage in the stack has a valid slot. -/
theorem not_empty_of_second {x y : Addr} (hx : m.family.newest none = some x)
    (hy : (m.family.heap.link x).addr = some y) (hlive : m.family.heap.isDeleted y = false) {i : Nat}
    (hi : i < len) (hvalid : valid len (m.storage y).metadata i = true) : ¬BagEmpty len m := by
  rintro ⟨-, l, ⟨chain, hlinked, rfl⟩, hdead⟩
  rw [hx] at hlinked
  obtain ⟨chain', rfl, hlinked'⟩ := hlinked.eq_cons
  rw [show Proofs.next m.family.heap x = some y from hy] at hlinked'
  obtain ⟨rest, rfl, -⟩ := hlinked'.eq_cons
  have hmem : y ∈ (x :: y :: rest).filter fun x => !m.family.heap.isDeleted x := by
    simp [hlive]
  rw [hdead y hmem i hi] at hvalid
  cases hvalid

/-- The entry `1` is above the entry `0` in the stack, and the latter has a value, for the
concrete run. -/
def second (w : World 64 Nat 2) : Bool :=
  decide (w.mem.family.newest none = some 1 ∧ (w.mem.family.heap.link 1).addr = some 0 ∧
    w.mem.family.heap.isDeleted 0 = false ∧ valid 1 (w.mem.storage 0).metadata 0 = true)

theorem not_empty_of_check {w : World 64 Nat 2} (h : second w = true) : ¬BagEmpty 1 w.mem := by
  obtain ⟨hx, hy, hlive, hvalid⟩ := of_decide_eq_true h
  exact not_empty_of_second hx hy hlive (by decide) hvalid

/-- The thread `1` goes past the stack when the bag is empty. The thread `0` pushes three values:
the primary storage and two storages in the stack are full. The thread `1` takes the value in the
primary storage. In its next call it has claimed the value in the storage on top when `pop` of the
thread `0` looks there, and then at the primary storage, and returns `None`. -/
theorem pop_misses : ∃ w₁ w₂ w₃ w₄ : World 64 Nat 2,
    Run (World.step 1) (fun _ _ => True) World.init w₁ ∧
      w₁.step 1 (.thread 0 (.invoke .pop)) = some w₂ ∧
      Run (World.step 1) (fun w _ => w.pc 0 ≠ .idle ∧ ¬BagEmpty 1 w.mem) w₂ w₃ ∧
      w₃.step 1 (.thread 0 (.proceed false)) = some w₄ ∧
      w₄.history = w₃.history ++ [.result 0 .pop (.popped none)] ∧
      ¬BagEmpty 1 w₃.mem ∧ ¬BagEmpty 1 w₄.mem := by
  have hex : (exec (World.step 1) (fun _ _ => true) (World.init : World 64 Nat 2)
      (call 1 .pop 1 ++ (call 0 (.push 5) 4 ++ (call 0 (.push 6) 5 ++ (call 0 (.push 7) 8 ++
        (List.replicate 4 (.thread 1 (.proceed false)) ++ call 1 .pop 4)))))).any (fun w₁ =>
      (w₁.step 1 (.thread 0 (.invoke .pop))).any fun w₂ =>
        (exec (World.step 1) (fun w _ => busy 0 w && second w) w₂
          (List.replicate 3 (.thread 0 (.proceed false)))).any fun w₃ =>
            (popsNone 1 0 w₃ && second w₃) &&
              (w₃.step 1 (.thread 0 (.proceed false))).any second) = true := by
    decide +kernel
  obtain ⟨w₁, h₁, hw₁⟩ := Run.of_exec_any hex
  obtain ⟨w₂, hinv, hw₂⟩ := (Option.any_eq_true _ _).mp hw₁
  obtain ⟨w₃, h₂, hw₃⟩ := Run.of_exec_any hw₂
  rw [Bool.and_eq_true, Bool.and_eq_true] at hw₃
  obtain ⟨⟨hpops, hsecond⟩, hlast⟩ := hw₃
  obtain ⟨w₄, hs, hsecond'⟩ := (Option.any_eq_true _ _).mp hlast
  refine ⟨w₁, w₂, w₃, w₄, h₁.mono fun _ _ _ => trivial, hinv, h₂.mono fun w a hw => ?_, hs,
    popsNone_step hpops hs, not_empty_of_check hsecond, not_empty_of_check hsecond'⟩
  rw [Bool.and_eq_true] at hw
  exact ⟨ne_idle_of_busy hw.1, not_empty_of_check hw.2⟩

end run

end Sdd.Proofs.Bag
