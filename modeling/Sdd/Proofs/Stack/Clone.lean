import Sdd.Proofs.Stack.Invariant
import Sdd.Proofs.Stacks.Alone
import Sdd.Proofs.Stacks.Effects
import Sdd.StackClone

/-!
# `Sdd.Proofs.Stack.Clone`: what the copies of a stack hold

`Holding t vals w` says that the thread `t` is in no call, and that the undeleted entries of the
stack hold the instances `vals`. A `pop` that runs alone takes the first one (`pops_of_holding`):
`Pops` is what its accesses keep.

`clone` leaves the stack `Unchanged`, and puts the instances of the entries `Behind` the one where
it begins into the copy, which has no deleted entry (`Copied`). `stack_copies_iff` is the result:
the copy is right unless the head is deleted.
-/

set_option autoImplicit false

namespace Sdd.Proofs.Stack

open Sdd.Lib Sdd.Stack Sdd.StackClone
open Sdd.Lib.Linearize (Event)
open Sdd.Proofs.Stacks (Going Effect Answer deleted step_effect stackCall_ends)

variable {T : Type} {n : Nat} {w w' : World T n} {m : Mem T} {tgt : Addr → Option Addr} {t : Fin n}

section instances

/-- The condition is asked, and a new entry may be created. -/
theorem evaluate_grows (p : Push T) (o : Option Addr) : Grows m.heap (m.evaluate p o).1.heap := by
  unfold Mem.evaluate
  split
  · split
    · exact .refl _
    · exact grows_alloc p.val
  · exact .refl _

/-- The same after a clean-up. -/
theorem cleaned_grows (k : Clean T) (o : Option Addr) : Grows m.heap (m.cleaned k o).1.heap := by
  unfold Mem.cleaned
  cases k with
  | push p => exact evaluate_grows p o
  | popIf cond => cases o <;> exact .refl _
  | popped cond e => exact .refl _
  | peek => exact .refl _
  | isEmpty => exact .refl _

/-- The same in the loop of the clean-up. -/
theorem cleanup_grows (k : Clean T) (o : Option Addr) : Grows m.heap (m.cleanup k o).1.heap := by
  cases o with
  | none => exact cleaned_grows k none
  | some x => exact .refl _

/-- One access of a call. -/
theorem step_grows {c : Call T} (hs : One m tgt) (hc : CallInv m.heap m.attached tgt c)
    (hheld : ∀ x, c.holds x = true → m.heap.released x = false) :
    Grows m.heap (m.step c).1.heap := by
  cases c with
  | loadNewest k => exact cleanup_grows k _
  | cleanDeleted k x =>
    simp only [Mem.step]
    split
    · exact .refl _
    · exact cleaned_grows k _
  | cleanNext k x call =>
    -- The walk writes links of deleted entries only, never a value.
    obtain ⟨hclean, call', hstep, -⟩ := cleanNext_outcome (m := m) hs hc hheld
    rw [hstep]
    exact grows_clean hclean
  | cleanExchange k x next =>
    simp only [Mem.step]
    split
    · exact cleanup_grows (m := { m with newest := next }) k _
    · exact cleanup_grows k _
  | swapLink p e newest => exact .of_eq rfl rfl
  | attach p e newest =>
    simp only [Mem.step]
    split
    · exact .refl _
    · exact cleanup_grows (.push p) _
  | popGetShared cond x =>
    simp only [Mem.step]
    split <;> exact .refl _
  | popDeleted cond x =>
    simp only [Mem.step]
    split <;> exact .refl _
  | popDelete cond x =>
    have hg := grows_deleteSelf (h := m.heap) x
    simp only [Mem.step]
    split
    · rename_i heq
      rw [heq] at hg
      exact hg
    · exact .refl _

end instances

section run

/-- What holds in every state of a run: the users have handles on attached entries, and each entry
holds an instance. -/
structure Steady (w : World T n) : Prop where
  inv : ∃ tgt, Inv w tgt
  attached : ∀ x, StackClone.pushed w x = true → x ∈ w.mem.attached
  valued : Valued w.mem.heap

/-- A call of a user that cleans up a link. -/
theorem clean_inv (h : Inv w tgt) {h' : Heap T}
    (hc : Cleans (listView w.mem.attached w.mem.heap.isDeleted tgt) w.mem.heap h') :
    Inv { w with mem := { w.mem with heap := h' } } tgt where
  one := h.one.clean hc
  ok u := (h.ok u).ext (ext_clean hc) fun _ _ => by simp
  held u y hy := by
    show h'.released y = false
    rw [hc.fields.2.1]
    exact h.held u y hy
  own := h.own

/-- A deletion through a handle. -/
theorem deleteSelf_inv (h : Inv w tgt) {x : Addr} (hx : x ∈ w.mem.attached) :
    ∃ tgt', Inv { w with mem := { w.mem with heap := (w.mem.heap.deleteSelf x).1 } } tgt' := by
  cases hlive : w.mem.heap.isDeleted x with
  | true =>
    rw [deleteSelf_dead hlive]
    exact ⟨tgt, h⟩
  | false =>
    refine ⟨_, h.one.kill hx hlive, fun u => ?_, fun u y hy => ?_, h.own⟩
    · exact (h.ok u).ext (ext_kill hx hlive) fun _ _ => by simp
    · show (w.mem.heap.deleteSelf x).1.released y = false
      rw [deleteSelf_eq hlive]
      exact h.held u y hy

/-- A new result of a call. -/
theorem pushed_result {pc : Fin n → Pc T} {op : Op T} {res : Res} {x : Addr}
    (hx : StackClone.pushed ⟨m, pc, w.history ++ [.result t op res]⟩ x = true) :
    StackClone.pushed w x = true ∨ res = .pushed x := by
  unfold StackClone.pushed at hx ⊢
  rw [List.any_append, Bool.or_eq_true] at hx
  refine hx.imp_right fun hx => ?_
  cases res with
  | pushed e =>
    have hex : e = x := by simpa using hx
    rw [hex]
  | _ => simp at hx

/-- A step of a run. -/
theorem steady_step (h : Steady w) {a : StackClone.Action T n}
    (hw : StackClone.step w a = some w') : Steady w' := by
  obtain ⟨tgt, hinv⟩ := h.inv
  cases a with
  | stack a =>
    have hinv' := inv_step hinv hw
    cases stepped hw with
    | invoke t op hpc =>
      -- What has been pushed so far is read off the returns, and an invocation adds none.
      refine ⟨hinv', fun x hx => h.attached x ?_, h.valued⟩
      change StackClone.pushed { w with history := w.history ++ [.invoke t op] } x = true at hx
      unfold StackClone.pushed at hx ⊢
      rw [List.any_append] at hx
      simpa using hx
    | call t call hpc =>
      have hok := hinv.ok t
      rw [hpc] at hok
      have hheld : ∀ x, call.holds x = true → w.mem.heap.released x = false := fun x hx =>
        hinv.held t x (by rw [hpc]; exact hx)
      -- Values and entries stay; the answer of a push names an entry that is attached.
      have hg := step_grows hinv.one hok hheld
      obtain ⟨owner', tgt', -, hmoved⟩ := step_steps (i := ()) hinv.one rfl hok hheld
      have hatt := hmoved.ext.later.att
      have hout := hmoved.outcome
      generalize w.mem.step call = r at hinv' hg hatt hout
      obtain ⟨m', out⟩ := r
      cases out with
      | running call' => exact ⟨hinv', fun x hx => hatt x (h.attached x hx), h.valued.grows hg⟩
      | done res =>
        refine ⟨hinv', fun x hx => ?_, h.valued.grows hg⟩
        rcases pushed_result hx with hx | rfl
        · exact hatt x (h.attached x hx)
        · exact hout
    | dropping t call call' hpc hout =>
      exact ⟨hinv', h.attached, h.valued.grows (grows_clean (hinv.drop_cleans hpc))⟩
    | dropped t call hpc =>
      exact ⟨hinv', h.attached, h.valued.grows (grows_clean (hinv.drop_cleans hpc))⟩
    | drop t x y hpc hy => exact ⟨hinv', h.attached, h.valued⟩
    | release x hx => exact ⟨hinv', h.attached, h.valued.grows (.of_eq rfl rfl)⟩
  | deleteSelf x =>
    unfold StackClone.step at hw
    simp only at hw
    split at hw
    · rename_i hx
      cases hw
      rw [Bool.and_eq_true] at hx
      -- The handle through which the entry is deleted came from a push that has returned.
      exact ⟨deleteSelf_inv hinv (h.attached x hx.1), h.attached,
        h.valued.grows (grows_deleteSelf x)⟩
    · cases hw
  | next t x =>
    unfold StackClone.step at hw
    simp only at hw
    split at hw
    · split at hw
      · rename_i hx
        cases hw
        refine ⟨⟨tgt, hinv.moves hinv.one (.refl _ _ _ _) rfl (.of_none ?_ (fun y hy => ?_) rfl)⟩,
          h.attached, h.valued⟩
        · exact ⟨x, callOk_start hx False.elim⟩
        · cases hy
      · cases hw
    · cases hw

/-- The invariant of every run. -/
theorem steady_of_run {P : World T n → StackClone.Action T n → Prop}
    (h : Run StackClone.step P World.init w) : Steady w := by
  refine h.invariant Steady ⟨⟨some, inv_init⟩, fun _ hx => (by cases hx), ?_⟩
    fun w a w' hw _ hs => steady_step hw hs
  exact fun _ hx => absurd hx (Nat.not_lt_zero _)

end run

section pop

/-- The words of the stack, as those of a family of one. -/
def family (w : World T n) : Stacks.Family T Unit :=
  ⟨fun _ => w.mem.newest, w.mem.heap, w.mem.attached, w.mem.cond⟩

/-- How far a call of `pop` has come in a stack that has had the contents `C`. -/
def Taking (C : List Addr) (m : Mem T) (c : Call T) : Prop :=
  c.op = .pop ∧ (deleted c = none ∧ m.contents = C ∨
    ∃ e, deleted c = some e ∧ C.head? = some e ∧ m.contents = C.tail)

/-- What a call of `pop` that runs alone relies on. -/
structure Pops (t : Fin n) (K : Nat) (C : List Addr) (w₀ w : World T n) (c : Call T) : Prop where
  inv : ∃ tgt, Inv w tgt
  pc : w.pc t = .call c
  going : Going () K (family w) c
  grows : Grows w₀.mem.heap w.mem.heap
  taking : Taking C w.mem c

/-- The deletion of the first entry. -/
theorem One.delete (h : One m tgt) {x : Addr} (hx : x ∈ m.attached) (hm : m.newest = some x)
    (hlive : m.heap.isDeleted x = false) : m.contents.head? = some x ∧
      Mem.contents { m with heap := (m.heap.deleteSelf x).1 } = m.contents.tail := by
  have hhead : m.contents.head? = some x := by
    rw [h.head_eq, hm]
    exact h.heap.skip.live x hlive
  refine ⟨hhead, ?_⟩
  rw [← one_entries, entries_kill h hx hlive, one_entries]
  cases hC : m.contents with
  | nil =>
    rw [hC] at hhead
    cases hhead
  | cons y C =>
    rw [hC] at hhead
    cases hhead
    exact List.erase_cons_head ..

/-- A single stack is a family with one member. -/
theorem family_setMem (w : World T n) (m : Mem T) (pc : Fin n → Pc T)
    (hist : List (Event (Fin n) (Op T) Res)) :
    family ⟨m, pc, hist⟩ = (family w).setMem () m := by
  have hword : (fun _ : Unit => m.newest) = Function.update (fun _ => w.mem.newest) () m.newest := by
    funext j
    cases j
    rw [Function.update_self]
  unfold family Stacks.Family.setMem
  rw [hword]

/-- The answer of `pop`. -/
theorem answer_pop {d : Option Addr} {res : Res} {C : List Addr} (h : Answer m d .pop res)
    (hone : One m tgt) (hv : Valued m.heap)
    (hd : d = none ∧ m.contents = C ∨ ∃ e, d = some e ∧ C.head? = some e ∧ m.contents = C.tail) :
    res = .popped C.head? ∧ m.contents = C.tail := by
  cases res with
  | popped o =>
    cases o with
    | none =>
      obtain ⟨cond, -, rfl, hm⟩ := h
      have hnil := hone.contents_nil hm
      rcases hd with ⟨-, hC⟩ | ⟨e, he, -⟩
      · rw [← hC, hnil]
        exact ⟨rfl, rfl⟩
      · cases he
    | some e =>
      obtain ⟨cond, -, rfl⟩ := h
      rcases hd with ⟨he, -⟩ | ⟨e', he, hhead, hC⟩
      · cases he
      · cases he
        exact ⟨by rw [hhead], hC⟩
  | refused e =>
    obtain ⟨cond, hop, hmem, hval⟩ := h
    cases hop
    -- The condition of `pop` holds of every instance.
    have hsome := hv e (hone.heap.bound e hmem)
    cases hx : m.heap.value e with
    | none =>
      rw [hx] at hsome
      cases hsome
    | some v =>
      rw [hx] at hval
      simp at hval
  | pushed e => exact h.elim
  | rejected =>
    obtain ⟨_, _, _, hop, -⟩ := h
    cases hop
  | peeked o =>
    cases o with
    | none => cases h.1
    | some e => cases h.1
  | empty b => cases h

/-- An access of `pop`. -/
theorem Pops.step {K : Nat} {C : List Addr} {w₀ : World T n} {c : Call T}
    (h : Pops t K C w₀ w c) (hv : Valued w₀.mem.heap) :
    (∀ c', (w.mem.step c).2 = .running c' →
      Pops t K C w₀ (World.goto { w with mem := (w.mem.step c).1 } t (.call c')) c') ∧
    ∀ res, (w.mem.step c).2 = .done res → res = .popped C.head? ∧
      (w.mem.step c).1.contents = C.tail ∧ Grows w₀.mem.heap (w.mem.step c).1.heap ∧
      ∃ tgt, Inv (w.called t c.op (w.mem.step c)) tgt := by
  obtain ⟨tgt, hinv⟩ := h.inv
  have hok := hinv.ok t
  rw [h.pc] at hok
  have hheld : ∀ x, c.holds x = true → w.mem.heap.released x = false := fun x hx =>
    hinv.held t x (by rw [h.pc]; exact hx)
  -- The call of the stack alone: its own step lemma says what it does to the contents.
  have hg := h.grows.trans (step_grows hinv.one hok hheld)
  have heffect := step_effect hinv.one hok hheld
  have hrun := h.going.step.1
  obtain ⟨_, _, -, -, hsolo⟩ := h.going.inv
  obtain ⟨hop, hd⟩ := h.taking
  have hinv' := call_inv hinv h.pc c.op
  rw [show (family w).mem () = w.mem from rfl] at hrun hsolo
  generalize w.mem.step c = r at hg heffect hrun hinv'
  have hnext : ∀ {c' : Call T}, r.2 = .running c' → Taking C r.1 c' →
      Pops t K C w₀ (World.goto { w with mem := r.1 } t (.call c')) c' := by
    intro c' hc' htaking
    obtain ⟨m', out⟩ := r
    cases hc'
    refine ⟨hinv', Function.update_self .., ?_, hg, htaking⟩
    show Going () K (family ⟨m', _, _⟩) c'
    rw [family_setMem w]
    exact (hrun c' rfl).1
  cases heffect with
  | attach p e hc =>
    subst hc
    cases hop
  | delete cond x hc hlive =>
    subst hc
    obtain ⟨hhead, htail⟩ := hinv.one.delete hok hsolo.1 hlive
    -- The entry this pop deletes was the first of the contents.
    rcases hd with ⟨-, rfl⟩ | ⟨e, he, -⟩
    · refine ⟨fun c' hc' => hnext hc' ?_, fun res hres => by cases hres⟩
      cases hc'
      cases hop
      exact ⟨rfl, .inr ⟨x, rfl, hhead, htail⟩⟩
    · cases he
  | quiet hq =>
    -- A quiet step deletes nothing and attaches nothing, so the contents are the same.
    have hC : r.1.contents = w.mem.contents := Stacks.contents_congr hq.attached hq.isDeleted
    rw [← hC] at hd
    refine ⟨fun c' hc' => hnext hc' ?_, fun res hres => ?_⟩
    · obtain ⟨hdel, hop'⟩ := hq.running c' hc'
      refine ⟨hop'.trans hop, ?_⟩
      rw [hdel]
      exact hd
    · have hanswer := hq.done res hres
      rw [hop] at hanswer
      obtain ⟨tgt', hone⟩ : ∃ tgt', One r.1 tgt' := by
        obtain ⟨tgt', hi⟩ := hinv'
        obtain ⟨m', out⟩ := r
        cases hres
        exact ⟨tgt', hi.one⟩
      obtain ⟨hres', htail⟩ := answer_pop hanswer hone (hv.grows hg) hd
      exact ⟨hres', htail, hg, hinv'⟩

end pop

section holding

variable {vals : List T}

/-- The thread is in no call, and the entries of the stack hold the instances. -/
structure Holding (t : Fin n) (vals : List T) (w : World T n) : Prop where
  inv : ∃ tgt, Inv w tgt
  valued : Valued w.mem.heap
  idle : w.pc t = .idle
  values : w.mem.contents.map w.mem.heap.value = vals.map some

/-- The release of an entry, which nothing refers to. -/
theorem release_cases (h : Inv w tgt) {x : Addr} (hx : w.step (.release x) = some w') :
    w' = { w with mem := { w.mem with heap := w.mem.heap.release x } } ∧ Inv w' tgt ∧
      x < w.mem.heap.nextAddr ∧ w.mem.heap.unlinked x = true ∧ w.mem.newest ≠ some x ∧
      ∀ u, (w.pc u).holds x = false := by
  unfold World.step at hx
  simp only at hx
  split at hx
  · rename_i hun
    cases hx
    have hinv := release_inv h hun
    unfold World.unowned at hun
    simp only [Bool.and_eq_true, decide_eq_true_eq, bne_iff_ne, ne_eq] at hun
    obtain ⟨⟨⟨hlt, hnewest⟩, hlink⟩, hheld⟩ := hun
    refine ⟨rfl, hinv, hlt, hlink, hnewest, fun u => ?_⟩
    have hu := List.all_eq_true.mp hheld u (List.mem_finRange u)
    exact Bool.not_eq_true' _ ▸ hu
  · cases hx

/-- Releases change nothing of what a thread sees. -/
theorem Holding.released (h : Holding t vals w)
    (hr : Relation.ReflTransGen StackClone.Releases w w') : Holding t vals w' := by
  refine env_invariant (fun w w' h he => ?_) hr h
  obtain ⟨tgt, hinv⟩ := h.inv
  obtain ⟨x, hx⟩ := he
  obtain ⟨rfl, hinv', -⟩ := release_cases hinv hx
  exact ⟨⟨tgt, hinv'⟩, h.valued.grows (.of_eq rfl rfl), h.idle, h.values⟩

/-- The state after the invocation of an operation. -/
def invoked (w : World T n) (t : Fin n) (op : Op T) : World T n :=
  { w with history := w.history ++ [Event.invoke t op] }.goto t (.call (.start op))

/-- An idle thread calls an operation. -/
theorem step_invoke (hidle : w.pc t = .idle) (op : Op T) :
    w.step (.thread t (.invoke op)) = some (invoked w t op) := by
  unfold World.step
  simp only [hidle]
  rfl

/-- The instances of the contents, when others have been created. -/
theorem Holding.grows (h : Holding t vals w) (hg : Grows w.mem.heap w'.mem.heap) :
    w.mem.contents.map w'.mem.heap.value = vals.map some := by
  obtain ⟨tgt, hinv⟩ := h.inv
  rw [← h.values]
  refine List.map_congr_left fun x hx => hg.value x (hinv.one.heap.bound x ?_)
  exact (mem_contents.mp hx).1

/-- `pop` takes the first entry. -/
theorem pops_of_holding (h : Holding t vals w) :
    (container t).Pops (fun o w' => o = vals.head? ∧ Holding t vals.tail w') w := by
  intro w₁ hr
  have h₁ := h.released hr
  obtain ⟨tgt, hinv⟩ := h₁.inv
  have hstep := step_invoke h₁.idle .pop
  refine ⟨_, hstep, ?_⟩
  obtain ⟨tgt', hinv'⟩ := inv_step hinv hstep
  have hgoing := Going.start (f := family (invoked w₁ t .pop)) (i := ()) hinv'.one .pop
  refine stackCall_ends family () _ (Pops t w₁.mem.contents.length w₁.mem.contents w₁)
    -- Another thread's handle may be dropped in between; what this call needs is held by it.
    (fun w' w'' c hp he => ?_) (fun w' c hp => ?_) ⟨⟨tgt', hinv'⟩, Function.update_self .., hgoing,
      .refl _, rfl, .inl ⟨rfl, rfl⟩⟩ hgoing
  · obtain ⟨tgt, hinv⟩ := hp.inv
    obtain ⟨x, hx⟩ := he
    obtain ⟨rfl, hinv'', hlt, hlink, hnewest, hheld⟩ := release_cases hinv hx
    have hx : c.holds x = false := by
      have hx := hheld t
      rw [hp.pc] at hx
      exact hx
    exact ⟨⟨⟨tgt, hinv''⟩, hp.pc, hp.going.release hlt hlink (fun _ => hnewest) hx,
      hp.grows.trans (.of_eq rfl rfl), hp.taking⟩, x, rfl, hlt, hlink, fun _ => hnewest, hx⟩
  · have hw : w'.proceed t = some (w'.called t c.op (w'.mem.step c)) := by
      unfold World.proceed
      rw [hp.pc]
    obtain ⟨hrun, hdone⟩ := hp.step h₁.valued
    have hop := hp.taking.1
    refine ⟨_, hw, ?_⟩
    rw [show (family w').mem () = w'.mem from rfl]
    generalize w'.mem.step c = r at hrun hdone
    obtain ⟨m', out⟩ := r
    refine ⟨fun c' hc' => ?_, fun res hres _ _ => ?_⟩
    · cases hc'
      exact ⟨hrun c' rfl, family_setMem w' ..⟩
    · cases hres
      obtain ⟨rfl, hC, hg, hinv'⟩ := hdone res rfl
      -- Values are never overwritten, so the contents read the same at the end.
      have hvalues : w₁.mem.contents.map m'.heap.value = vals.map some :=
        h₁.grows (show Grows _ (⟨m', w'.pc, w'.history⟩ : World T n).mem.heap from hg)
      have hidle : (w'.called t c.op (m', .done (.popped w₁.mem.contents.head?))).pc t = .idle :=
        Function.update_self ..
      refine .done ⟨vals.head?, ⟨hidle, w₁.mem.contents.head?, ?_, ?_⟩, rfl, hinv',
        h₁.valued.grows hg, hidle, ?_⟩
      · rw [hop]
        exact List.getLast?_concat
      · show w₁.mem.contents.head?.map m'.heap.value = _
        rw [← List.head?_map, ← List.head?_map, hvalues]
      · show m'.contents.map m'.heap.value = _
        rw [hC, List.map_tail, hvalues, List.map_tail]

/-- The stack yields the instances that it holds. -/
theorem Holding.yields (h : Holding t vals w) : (container t).Yields vals w :=
  .of_holds (Holding t) (fun _ _ h => pops_of_holding h) h

end holding

section copied

variable {copied : List T} {last : Option Addr}

/-- The copy, to which the clones have been attached. `last` is its last entry. -/
structure Copied (copied : List T) (last : Option Addr) (w : World T n) : Prop where
  one : One w.mem some
  idle : ∀ u, w.pc u = .idle
  valued : Valued w.mem.heap
  live : ∀ x, w.mem.heap.isDeleted x = false
  values : w.mem.attached.map w.mem.heap.value = copied.map some
  linked : ∀ l, last = some l → l ∈ w.mem.attached ∧ w.mem.heap.link l = .null
  empty : last = none → w.mem.newest = none ∧ w.mem.attached = []

/-- Without deletions all attached entries are in the stack. -/
theorem contents_of_live (h : ∀ x, m.heap.isDeleted x = false) : m.contents = m.attached := by
  unfold Mem.contents
  refine List.filter_eq_self.mpr fun x _ => ?_
  rw [h x]
  rfl

/-- A stack without deleted entries. -/
theorem One.of_live (hlive : ∀ x, m.heap.isDeleted x = false)
    (heap : HeapOk m.heap (listView m.attached m.heap.isDeleted some))
    (list : Threaded (next m.heap) some m.newest m.attached) (nodup : m.attached.Nodup)
    (roots : ∀ x, m.newest = some x → x ∈ m.attached ∧ m.heap.released x = false)
    (leads : ∀ x y, next m.heap x = some y → y ∈ m.attached) : One m some where
  heap := heap
  list _ := by
    rw [one_entries, contents_of_live hlive]
    exact list
  nodup := nodup
  roots _ := roots
  unattached x _ := hlive x
  leads := leads

/-- Without deletions the list goes through all attached entries. -/
theorem One.threaded (h : One m tgt) (hlive : ∀ x, m.heap.isDeleted x = false) :
    Threaded (next m.heap) tgt m.newest m.attached := by
  rw [← contents_of_live hlive, ← one_entries]
  exact h.list ()

/-- The copy is as good as any stack. -/
theorem Copied.inv (h : Copied copied last w) : Inv w some where
  one := h.one
  ok u := by
    rw [h.idle u]
    exact trivial
  held u x hx := by
    rw [h.idle u] at hx
    cases hx
  own u u' e he _ := by
    rw [h.idle u] at he
    cases he

/-- The copy holds the values in their order. -/
theorem Copied.holding (h : Copied copied last w) : Holding t copied w where
  inv := ⟨some, h.inv⟩
  valued := h.valued
  idle := h.idle t
  values := by
    rw [contents_of_live h.live]
    exact h.values

/-- The copy is not touched by the release of an entry. -/
theorem Copied.release (h : Copied copied last w) (hr : StackClone.Releases w w') :
    Copied copied last w' := by
  obtain ⟨x, hx⟩ := hr
  obtain ⟨rfl, -, hlt, hlink, hnewest, -⟩ := release_cases h.inv hx
  exact ⟨h.one.release hlt hlink fun _ => hnewest, h.idle, h.valued.grows (.of_eq rfl rfl), h.live,
    h.values, h.linked, h.empty⟩

section attach

variable {e l : Addr} (hs : One m some) (hlive : ∀ x, m.heap.isDeleted x = false)
  (he : e = m.heap.nextAddr)
include hs he

/-- A new entry is not attached, and not linked to anything. -/
theorem One.fresh : e ∉ m.attached ∧ m.heap.link e = .null ∧ m.heap.released e = false := by
  subst he
  refine ⟨fun hc => Nat.lt_irrefl _ (hs.heap.bound _ hc), hs.heap.fresh _ (Nat.le_refl _), ?_⟩
  by_contra hrel
  rw [Bool.not_eq_false] at hrel
  exact Nat.lt_irrefl _ (hs.heap.allocated _ hrel)

/-- The new entry comes behind the others. -/
theorem One.grow (val : T) : HeapOk (m.heap.alloc val)
    (listView (m.attached ++ [e]) (m.heap.alloc val).isDeleted some) := by
  obtain ⟨hnew, hnull, -⟩ := hs.fresh he
  refine (hs.heap.alloc val).grow rfl rfl ?_ ?_ (fun _ _ _ => before_trans) (before_wf _ _ _)
  · intro y z hy hz
    rcases List.mem_append.mp hy with hy | hy
    · obtain ⟨hz, hyz⟩ := hs.heap.links y z hy hz
      exact ⟨List.mem_append_left _ hz, before_append hyz⟩
    · rw [List.mem_singleton.mp hy] at hz
      change (m.heap.link e).addr = some z at hz
      rw [hnull] at hz
      cases hz
  · intro y hy
    rcases List.mem_append.mp hy with hy | hy
    · exact Nat.lt_succ_of_lt (hs.heap.bound y hy)
    · rw [List.mem_singleton.mp hy, he]
      exact Nat.lt_succ_self _

include hlive

/-- The first entry of the copy. -/
theorem One.attachFirst (val : T) (hatt : m.attached = []) :
    One { m with newest := some e, heap := m.heap.alloc val, attached := m.attached ++ [e] }
      some := by
  obtain ⟨-, hnull, hrel⟩ := hs.fresh he
  refine .of_live hlive (hs.grow he val) ?_ ?_ (fun x hx => ?_) fun x y hy => ?_
  · simp only [hatt, List.nil_append]
    refine ⟨rfl, ?_⟩
    show (m.heap.link e).addr.bind some = none
    rw [hnull]
    rfl
  · simp only [hatt, List.nil_append]
    exact List.nodup_singleton e
  · cases hx
    exact ⟨List.mem_append_right _ List.mem_cons_self, hrel⟩
  · exact List.mem_append_left _ (hs.leads x y hy)

/-- An entry is attached behind the last one. -/
theorem One.attachLast (val : T) (hl : l ∈ m.attached) (hnull : m.heap.link l = .null) :
    One { m with heap := (m.heap.alloc val).setLink l ⟨some e, .none⟩,
                 -- The new entry is not in the list, so it is not l.
                 attached := m.attached ++ [e] } some := by
  obtain ⟨hnew, henull, hrel⟩ := hs.fresh he
  have hle : e ≠ l := fun hc => hnew (hc ▸ hl)
  have hdel : ((m.heap.alloc val).setLink l ⟨some e, .none⟩).isDeleted = m.heap.isDeleted :=
    isDeleted_setLive (hlive l) (.inl rfl)
  have hnext : next ((m.heap.alloc val).setLink l ⟨some e, .none⟩)
      = Function.update (next m.heap) l (some e) := next_setLink ..
  refine .of_live (fun x => hdel ▸ hlive x) ?_ ?_ ?_ (fun x hx => ?_) fun x y hy => ?_
  · simp only [hdel]
    refine (hs.grow he val).setLive (Nat.lt_succ_of_lt (hs.heap.bound l hl)) (hlive l) (.inl rfl)
      (fun _ y hy => ?_) fun _ y hy => ?_
    · cases hy
      exact ⟨List.mem_append_right _ List.mem_cons_self, before_last hnew hl⟩
    · cases hy
      exact hrel
  · show Threaded (next ((m.heap.alloc val).setLink l ⟨some e, .none⟩)) some m.newest _
    rw [hnext]
    refine (hs.threaded hlive).append hs.nodup hl ?_ rfl ?_ hle
    · rw [next, hnull]
      rfl
    · rw [next, henull]
      rfl
  -- The new entry is in the list once.
  · refine List.nodup_append.mpr ⟨hs.nodup, List.nodup_singleton e, fun x hx y hy hc => ?_⟩
    rw [hc, List.mem_singleton.mp hy] at hx
    exact hnew hx
  · exact ⟨List.mem_append_left _ (hs.roots () x hx).1, (hs.roots () x hx).2⟩
  -- The link of l is the only one that has changed.
  · change next ((m.heap.alloc val).setLink l ⟨some e, .none⟩) x = some y at hy
    rw [hnext] at hy
    by_cases hxl : x = l
    · rw [hxl, Function.update_self] at hy
      cases hy
      exact List.mem_append_right _ List.mem_cons_self
    · rw [Function.update_of_ne hxl] at hy
      exact List.mem_append_left _ (hs.leads x y hy)

end attach

/-- One more entry. -/
theorem Copied.attachLast (h : Copied copied last w) (val : T) :
    Copied (copied ++ [val]) (some w.mem.heap.nextAddr)
      { w with mem := StackClone.attachLast w.mem last val } := by
  have hg : Grows w.mem.heap (w.mem.heap.alloc val) := grows_alloc val
  have hvalues : (w.mem.attached ++ [w.mem.heap.nextAddr]).map (w.mem.heap.alloc val).value
      = (copied ++ [val]).map some := by
    rw [List.map_append, List.map_append, ← h.values]
    congr 1
    · exact List.map_congr_left fun x hx => hg.value x (h.one.heap.bound x hx)
    · show [Function.update w.mem.heap.value w.mem.heap.nextAddr (some val) _] = _
      rw [Function.update_self]
      rfl
  have hnull : (w.mem.heap.alloc val).link w.mem.heap.nextAddr = .null := (h.one.fresh rfl).2.1
  -- A copy without an entry gets its first one; otherwise the new entry goes behind the last.
  cases last with
  | none =>
    obtain ⟨-, hatt⟩ := h.empty rfl
    refine ⟨h.one.attachFirst h.live rfl val hatt, h.idle, h.valued.grows hg, h.live, hvalues,
      fun l hl => ?_, fun hc => by cases hc⟩
    cases hl
    exact ⟨List.mem_append_right _ List.mem_cons_self, hnull⟩
  | some l =>
    obtain ⟨hl, hlnull⟩ := h.linked l rfl
    refine ⟨h.one.attachLast h.live rfl val hl hlnull, h.idle,
      h.valued.grows (hg.trans (.of_eq rfl rfl)), fun x => ?_, hvalues, fun l' hl' => ?_,
      fun hc => by cases hc⟩
    · have hdel : ((w.mem.heap.alloc val).setLink l ⟨some w.mem.heap.nextAddr, .none⟩).isDeleted
          = w.mem.heap.isDeleted := isDeleted_setLive (h.live l) (.inl rfl)
      show ((w.mem.heap.alloc val).setLink l ⟨some w.mem.heap.nextAddr, .none⟩).isDeleted x = false
      rw [hdel]
      exact h.live x
    · cases hl'
      have hne : w.mem.heap.nextAddr ≠ l := fun hc => (h.one.fresh rfl).1 (hc ▸ hl)
      refine ⟨List.mem_append_right _ List.mem_cons_self, ?_⟩
      exact (Function.update_of_ne hne ..).trans hnull

end copied

section clone

variable {clone : T → T} {vals copied : List T} {last : Option Addr} {x : Addr} {post : List Addr}
  {done : Cloning T n → Prop}

/-- The stack, while it is copied: links have been cleaned up, and entries released. -/
structure Unchanged (w w' : World T n) : Prop where
  inv : ∃ tgt, Inv w' tgt
  newest : w'.mem.newest = w.mem.newest
  attached : w'.mem.attached = w.mem.attached
  isDeleted : w'.mem.heap.isDeleted = w.mem.heap.isDeleted
  value : w'.mem.heap.value = w.mem.heap.value
  nextAddr : w'.mem.heap.nextAddr = w.mem.heap.nextAddr
  pc : w'.pc = w.pc

/-- The stack has the same entries while it is copied. -/
theorem Unchanged.contents (h : Unchanged w w') : w'.mem.contents = w.mem.contents :=
  Stacks.contents_congr h.attached h.isDeleted

/-- An entry that is released is not in the list any more. -/
theorem Unchanged.release (h : Unchanged w w') {w'' : World T n}
    (hr : StackClone.Releases w' w'') : Unchanged w w'' := by
  obtain ⟨tgt, hinv⟩ := h.inv
  obtain ⟨x, hx⟩ := hr
  obtain ⟨rfl, hinv', -⟩ := release_cases hinv hx
  exact ⟨⟨tgt, hinv'⟩, h.newest, h.attached, h.isDeleted, h.value, h.nextAddr, h.pc⟩

/-- A call of the copying thread cleans up a link. -/
theorem Unchanged.cleans (h : Unchanged w w') (hinv : Inv w' tgt) {h' : Heap T}
    (hc : Cleans (listView w'.mem.attached w'.mem.heap.isDeleted tgt) w'.mem.heap h') :
    Unchanged w { w' with mem := { w'.mem with heap := h' } } where
  inv := ⟨tgt, clean_inv hinv hc⟩
  newest := h.newest
  attached := h.attached
  isDeleted := hc.isDeleted_eq.trans h.isDeleted
  value := hc.fields.1.trans h.value
  nextAddr := hc.fields.2.2.trans h.nextAddr
  pc := h.pc

/-- The values stay while the stack is copied. -/
theorem Holding.unchanged (h : Holding t vals w) (hw : Unchanged w w') : Holding t vals w' where
  inv := hw.inv
  valued := h.valued.grows (.of_eq hw.value hw.nextAddr)
  idle := by
    rw [hw.pc]
    exact h.idle
  values := by
    rw [hw.contents, hw.value]
    exact h.values

/-- The undeleted entries behind `x`: `x` is one itself, or a deleted entry in `newest`. -/
def Behind (m : Mem T) (x : Addr) (post : List Addr) : Prop :=
  (∃ pre, m.contents = pre ++ x :: post) ∨
    m.heap.isDeleted x = true ∧ m.newest = some x ∧ m.contents = post

/-- What is behind an entry stays while the stack is copied. -/
theorem Behind.unchanged (h : Behind w.mem x post) (hw : Unchanged w w') :
    Behind w'.mem x post := by
  unfold Behind
  rw [hw.contents, hw.isDeleted, hw.newest]
  exact h

/-- The link of the entry leads to the first one behind it. -/
theorem Behind.head (h : Behind m x post) (hs : One m tgt) :
    (next m.heap x).bind tgt = post.head? := by
  have hlist := hs.list ()
  rw [one_entries] at hlist
  rcases h with ⟨pre, hC⟩ | ⟨hdead, hnewest, hC⟩
  · rw [hC] at hlist
    exact hlist.after.head_eq.symm
  · rw [hC, hnewest] at hlist
    exact (hs.heap.skip.dead x hdead).symm.trans hlist.head_eq.symm

/-- The next entry has the rest behind it. -/
theorem Behind.next {y : Addr} (h : Behind m x (y :: post)) : Behind m y post := by
  rcases h with ⟨pre, hC⟩ | ⟨-, -, hC⟩
  · exact .inl ⟨pre ++ [x], by rw [hC, List.append_assoc]; rfl⟩
  · exact .inl ⟨[], hC⟩

/-- The entry was attached. -/
theorem Behind.mem (h : Behind m x post) (hs : One m tgt) : x ∈ m.attached := by
  rcases h with ⟨pre, hC⟩ | ⟨-, hnewest, -⟩
  · refine (mem_contents.mp ?_).1
    rw [hC]
    exact List.mem_append_right _ List.mem_cons_self
  · exact (hs.roots () x hnewest).1

/-- The release of an entry of the stack keeps what a call of `next_ptr` relies on. -/
theorem cloning_release {s s' : Cloning T n} (hr : Cloning.Releases s s')
    (hstack : Unchanged w s.stack) (hcopy : Copied copied s.oldest s.copy) :
    Unchanged w s'.stack ∧ Copied copied s'.oldest s'.copy := by
  obtain ⟨-, hlast, ⟨hsame, y, hy, -⟩ | ⟨hsame, hr⟩⟩ := hr
  · rw [hsame, hlast]
    exact ⟨hstack.release ⟨y, hy⟩, hcopy⟩
  · rw [hsame, hlast]
    exact ⟨hstack, hcopy.release hr⟩

/-- `next_ptr` of the entry that has been copied. -/
theorem cloning_next
    (hmove : ∀ stack copy last, Unchanged w stack → Copied copied last copy →
      Ends (Cloning.proceed clone) Cloning.Releases done ⟨stack, copy, last, .move post.head?⟩)
    {stack copy : World T n} (hstack : Unchanged w stack) (hcopy : Copied copied last copy)
    (hb : Behind w.mem x post) :
    Ends (Cloning.proceed clone) Cloning.Releases done
      ⟨stack, copy, last, .next (.start x)⟩ := by
  obtain ⟨tgt, hinv⟩ := hstack.inv
  have hx : x ∈ stack.mem.attached := (hb.unchanged hstack).mem hinv.one
  refine nextPtr_ends (fun s : Cloning T n => s.stack.mem.heap) stack.mem.attached tgt x
    (fun s call => s.place = .next call ∧ Inv s.stack tgt ∧ Unchanged w s.stack ∧
      s.stack.mem.attached = stack.mem.attached ∧
      CallOk (listView s.stack.mem.attached s.stack.mem.heap.isDeleted tgt) False x call ∧
      (∀ y, call.holds = some y → s.stack.mem.heap.released y = false) ∧
      Copied copied s.oldest s.copy)
    (fun s call hat => ?_) (fun s s' call hat he => ?_) (fun s call hat => ?_)
    -- The invariant of the walk: the stack is as it was, and the copy is not touched.
    ⟨rfl, hinv, hstack, rfl, callOk_start hx False.elim, (fun y hy => by cases hy), hcopy⟩
  · obtain ⟨-, hinv', -, hatt, -, hheld, -⟩ := hat
    rw [← hatt]
    have hx' : x ∈ s.stack.mem.attached := hatt ▸ hx
    refine ⟨hinv'.one.heap, hx', hheld, fun y ha hlive => ?_⟩
    exact hinv'.one.unreleased (ha.before hinv'.one.heap hx').2.1 hlive
  · obtain ⟨hplace, hinv', hstack', hatt, hcall, hheld, hcopy'⟩ := hat
    obtain ⟨hstack'', hcopy''⟩ := cloning_release he hstack' hcopy'
    -- A release by another thread leaves what the walk holds.
    obtain ⟨hplace', -, ⟨-, y, hy, hne⟩ | ⟨hsame, -⟩⟩ := he
    · obtain ⟨stack', copy', last', place'⟩ := s'
      obtain ⟨rfl, hinv'', -⟩ := release_cases hinv' hy
      refine ⟨⟨hplace'.trans hplace, hinv'', hstack'', hatt, hcall, fun z hz => ?_, hcopy''⟩, rfl⟩
      have hzy : z ≠ y := fun hc => hne call hplace (hc ▸ hz)
      show Function.update s.stack.mem.heap.released y true z = false
      rw [Function.update_of_ne hzy]
      exact hheld z hz
    · refine ⟨⟨hplace'.trans hplace, ?_, hstack'', ?_, ?_, ?_, hcopy''⟩, ?_⟩
      · rw [hsame]
        exact hinv'
      · rw [hsame]
        exact hatt
      · rw [hsame]
        exact hcall
      · rw [hsame]
        exact hheld
      · rw [hsame]
  -- A step of the walk: the two outcomes are a further step and the entry it looked for.
  · obtain ⟨hplace, hinv', hstack', hatt, hcall, hheld, hcopy'⟩ := hat
    have hclean := nextPtr_cleans hcall hheld
    have hstack'' := hstack'.cleans hinv' hclean
    have hinv'' := clean_inv hinv' hclean
    have hafter := nextPtr_ok hinv'.one.heap hcall
    rw [← hclean.isDeleted_eq] at hafter
    have hrel : (call.step s.stack.mem.heap).1.released = s.stack.mem.heap.released :=
      hclean.fields.2.1
    obtain ⟨stack', copy', last', place'⟩ := s
    cases hplace
    simp only at hinv'' hafter hrel hstack'' ⊢
    unfold Cloning.proceed
    cases hout : call.step stack'.mem.heap with
    | mk h' out =>
      rw [hout] at hinv'' hafter hrel hstack''
      cases out with
      | running call' =>
        refine ⟨⟨{ stack' with mem := { stack'.mem with heap := h' } }, copy', last', .next call'⟩,
          by simp only [hout], fun call'' hc => ?_, fun p hc => by cases hc⟩
        cases hc
        refine ⟨⟨rfl, hinv'', hstack'', hatt, hafter, fun y hy => ?_, hcopy'⟩, rfl⟩
        show h'.released y = false
        rw [hrel]
        exact nextPtr_holds (congrArg Prod.snd hout) hy
      | done p =>
        refine ⟨⟨{ stack' with mem := { stack'.mem with heap := h' } }, copy', last',
          .move p.addr⟩, by simp only [hout], fun call'' hc => (by cases hc), fun p' hc hp => ?_⟩
        cases hc
        -- Nothing is pushed or popped meanwhile, so the entry found is the next of the contents.
        have hhead : p.addr = post.head? := hp.2.1.trans ((hb.unchanged hstack'').head hinv''.one)
        rw [hhead]
        exact hmove _ copy' last' hstack'' hcopy'

/-- One entry is copied. -/
theorem cloning_entry {val : T} (hval : w.mem.heap.value x = some val)
    (hmove : ∀ stack copy last, Unchanged w stack → Copied (copied ++ [clone val]) last copy →
      Ends (Cloning.proceed clone) Cloning.Releases done ⟨stack, copy, last, .move post.head?⟩)
    {stack copy : World T n} (hstack : Unchanged w stack) (hcopy : Copied copied last copy)
    (hb : Behind w.mem x post) :
    Ends (Cloning.proceed clone) Cloning.Releases done ⟨stack, copy, last, .copy x⟩ := by
  refine Ends.of_step (fun s : Cloning T n => s.place = .copy x ∧ Unchanged w s.stack ∧
    Copied copied s.oldest s.copy) ?_ ?_ ⟨rfl, hstack, hcopy⟩
  · rintro s s' ⟨hplace, hstack, hcopy⟩ hr
    exact ⟨hr.1.trans hplace, cloning_release hr hstack hcopy⟩
  · rintro ⟨stack, copy, last, place⟩ ⟨hplace, hstack, hcopy⟩
    cases hplace
    have hval' : stack.mem.heap.value x = some val := (congrFun hstack.value x).trans hval
    have hown : Cloning.proceed clone ⟨stack, copy, last, .copy x⟩ = some
        ⟨stack, { copy with mem := StackClone.attachLast copy.mem last (clone val) },
          some copy.mem.heap.nextAddr, .next (.start x)⟩ := by
      simp only [Cloning.proceed, hval', Option.map_some]
    exact ⟨_, hown, cloning_next hmove hstack (hcopy.attachLast _) hb⟩

/-- The call goes on at an entry. -/
theorem cloning_entries {stack copy : World T n} (hstack : Unchanged w stack)
    (hcopy : Copied copied last copy) (hb : Behind w.mem x post)
    (hvals : (x :: post).map w.mem.heap.value = vals.map some)
    (hdone : ∀ stack copy last, Unchanged w stack → Copied (copied ++ vals.map clone) last copy →
      done ⟨stack, copy, last, .finished⟩) :
    Ends (Cloning.proceed clone) Cloning.Releases done ⟨stack, copy, last, .copy x⟩ := by
  -- By induction on the entries that are left to copy.
  induction post generalizing x vals copied stack copy last with
  | nil =>
    cases vals with
    | nil => cases hvals
    | cons val vals =>
      obtain ⟨hval, hrest⟩ := List.cons.inj hvals
      cases vals with
      | nil =>
        refine cloning_entry hval (fun stack copy last hstack hcopy => ?_) hstack hcopy hb
        exact .done (hdone stack copy last hstack hcopy)
      | cons val' vals => cases hrest
  | cons y post ih =>
    cases vals with
    | nil => cases hvals
    | cons val vals =>
      obtain ⟨hval, hrest⟩ := List.cons.inj hvals
      refine cloning_entry hval (fun stack copy last hstack hcopy => ?_) hstack hcopy hb
      refine ih hstack hcopy hb.next hrest fun stack copy last hstack hcopy =>
        hdone stack copy last hstack ?_
      rw [List.append_assoc] at hcopy
      exact hcopy

/-- The call begins. -/
theorem cloning_start (h : Holding t vals w)
    (hmove : ∀ stack copy last, Unchanged w stack → Copied [] last copy →
      Ends (Cloning.proceed clone) Cloning.Releases done ⟨stack, copy, last, .move w.mem.newest⟩) :
    Ends (Cloning.proceed clone) Cloning.Releases done (.start w) := by
  have hinit : Copied ([] : List T) none (World.init : World T n) :=
    ⟨inv_init.one, fun _ => rfl, fun _ hx => absurd hx (Nat.not_lt_zero _), fun _ => rfl, rfl,
      fun _ hl => (by cases hl), fun _ => ⟨rfl, rfl⟩⟩
  have hstack : Unchanged w w := ⟨h.inv, rfl, rfl, rfl, rfl, rfl, rfl⟩
  refine Ends.of_step (fun s : Cloning T n => s.place = .load ∧ Unchanged w s.stack ∧
    Copied [] s.oldest s.copy) ?_ ?_ ⟨rfl, hstack, hinit⟩
  · rintro s s' ⟨hplace, hstack, hcopy⟩ hr
    exact ⟨hr.1.trans hplace, cloning_release hr hstack hcopy⟩
  · rintro ⟨stack, copy, last, place⟩ ⟨hplace, hstack, hcopy⟩
    cases hplace
    refine ⟨_, rfl, ?_⟩
    rw [show stack.mem.newest = w.mem.newest from hstack.newest]
    exact hmove stack copy last hstack hcopy

/-- When `clone` returns, the copy holds the clones of the instances, and if the head of the stack
is deleted, that of the deleted entry before them. -/
theorem cloning_ends (clone : T → T) (h : Holding t vals w) : ∃ copied,
    Ends (Cloning.proceed clone) Cloning.Releases (fun s => s.place = .finished ∧
      Holding t vals s.stack ∧ Holding t (copied.map clone) s.copy) (.start w) ∧
    (¬DeadHead w → copied = vals) ∧ (DeadHead w → ∃ val, copied = val :: vals) := by
  obtain ⟨tgt, hinv⟩ := h.inv
  have hfinish : ∀ {copied : List T} {last} (stack copy : World T n), Unchanged w stack →
      Copied (copied.map clone) last copy →
      Holding t vals stack ∧ Holding t (copied.map clone) copy :=
    fun stack copy hstack hcopy => ⟨h.unchanged hstack, hcopy.holding⟩
  cases hnewest : w.mem.newest with
  | none =>
    have hvals := h.values
    rw [hinv.one.contents_nil hnewest] at hvals
    cases vals with
    | cons val vals => cases hvals
    | nil =>
      refine ⟨[], cloning_start h fun stack copy last hstack hcopy => ?_, fun _ => rfl, ?_⟩
      · rw [hnewest]
        exact .done ⟨rfl, hfinish stack copy hstack hcopy⟩
      · rintro ⟨x, hx, -⟩
        rw [hnewest] at hx
        cases hx
  | some x =>
    have hends : ∀ {copied : List T} {post : List Addr}, Behind w.mem x post →
        (x :: post).map w.mem.heap.value = copied.map some →
        Ends (Cloning.proceed clone) Cloning.Releases (fun s => s.place = .finished ∧
          Holding t vals s.stack ∧ Holding t (copied.map clone) s.copy) (.start w) := by
      intro copied post hb hvals
      refine cloning_start h fun stack copy last hstack hcopy => ?_
      rw [hnewest]
      exact cloning_entries hstack hcopy hb hvals fun stack copy last hstack hcopy =>
        ⟨rfl, hfinish stack copy hstack hcopy⟩
    -- The first entry is copied whether it is deleted or not.
    have hmem := (hinv.one.roots () x hnewest).1
    cases hdead : w.mem.heap.isDeleted x with
    | false =>
      obtain ⟨hhead, -⟩ := hinv.one.delete hmem hnewest hdead
      obtain ⟨C, hC⟩ : ∃ C, w.mem.contents = x :: C := List.head?_eq_some_iff.mp hhead
      have hvals := h.values
      rw [hC] at hvals
      refine ⟨vals, hends (.inl ⟨[], hC⟩) hvals, fun _ => rfl, ?_⟩
      rintro ⟨y, hy, hydead⟩
      cases hnewest.symm.trans hy
      rw [hdead] at hydead
      cases hydead
    | true =>
      obtain ⟨val, hval⟩ :=
        Option.isSome_iff_exists.mp (h.valued x (hinv.one.heap.bound x hmem))
      refine ⟨val :: vals, hends (.inr ⟨hdead, hnewest, rfl⟩) ?_, fun hno => ?_,
        fun _ => ⟨val, rfl⟩⟩
      · rw [List.map_cons, List.map_cons, hval, h.values]
      · exact absurd ⟨x, hnewest, hdead⟩ hno

/-- A thread that is in no call, in a stack that its operations have led to. -/
theorem Steady.holding (h : Steady w) (hidle : w.pc t = .idle) : ∃ vals, Holding t vals w := by
  obtain ⟨tgt, hinv⟩ := h.inv
  obtain ⟨vals, hvals⟩ := h.valued.instances (l := w.mem.contents) fun x hx =>
    hinv.one.heap.bound x (mem_contents.mp hx).1
  exact ⟨vals, h.inv, h.valued, hidle, hvals⟩

/-- In every state of a run, with deletions through handles and iterations: the copy that a
thread makes yields the clones of what the stack yields if and only if the head of the stack is
not a deleted entry. -/
theorem stack_copies_iff {P : World T n → StackClone.Action T n → Prop}
    (h : Run StackClone.step P World.init w) (hidle : w.pc t = .idle) (clone : T → T) :
    Copies clone t w ↔ ¬DeadHead w := by
  obtain ⟨vals, hh⟩ := (steady_of_run h).holding hidle
  obtain ⟨copied, hends, hlive, hdead⟩ := cloning_ends clone hh
  have hiff := Container.copies_iff (c := container t) Cloning.stack Cloning.copy clone
    (fun s (hs : s.place = .finished) => ?_)
    (hends.imp fun s hs => ⟨hs.1, hs.2.1.yields, hs.2.2.yields⟩)
  · refine hiff.trans ⟨fun heq hd => ?_, fun hno => by rw [hlive hno]⟩
    obtain ⟨val, rfl⟩ := hdead hd
    have hlen := congrArg List.length heq
    simp at hlen
  · unfold Cloning.proceed
    rw [hs]

end clone

end Sdd.Proofs.Stack
