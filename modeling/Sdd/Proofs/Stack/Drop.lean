import Sdd.Proofs.Stack.Clone
import Sdd.Proofs.Sweep
import Sdd.StackDrop

/-!
# `Sdd.Proofs.Stack.Drop`: what the destructor of a stack leaves

The argument of `Sdd.Proofs.Queue.Drop` for a stack. `DropOk t s` is what holds while the thread `t`
drops a stack: in `iter()` the word `newest` is the one that the call has read (`Iterating`), and
then the entry that the loop is at leads to where `newest` leads. `stack_drops` is the result.
-/

set_option autoImplicit false

namespace Sdd.Proofs.Stack

open Sdd.Lib Sdd.Stack Sdd.StackDrop
open Sdd.Proofs.Stacks (Going stackCall_ends)

variable {T : Type} {n : Nat} {w w' : World T n} {m : Mem T} {tgt tgt' : Addr → Option Addr}
  {t : Fin n} {s s' : Dropping T n}

/-- The thread is in no call of a method of the stack. -/
def Quiet : Pc T → Prop
  | .call _ => False
  | _ => True

section iter

/-- How far `iter()` has come in a stack that nobody else uses. -/
def Iterating (m : Mem T) : Call T → Prop
  | .loadNewest k => k = .peek
  | .cleanDeleted k x | .cleanNext k x _ | .cleanExchange k x _ => k = .peek ∧ m.newest = some x
  | _ => False

/-- An access of `iter()`: it goes on, or returns the entry in `newest`. -/
structure Iterated (r : Mem T × Outcome (Call T) Res) : Prop where
  goes : ∀ c, r.2 = .running c → Iterating r.1 c
  returns : ∀ res, r.2 = .done res → res = .peeked r.1.newest

theorem iterated_running {c : Call T} (h : Iterating m c) : Iterated (m, .running c) where
  goes c' hc := by
    cases hc
    exact h
  returns res hres := by cases hres

theorem iterated_done {res : Res} (h : res = .peeked m.newest) : Iterated (m, .done res) where
  goes c hc := by cases hc
  returns res' hres := by
    cases hres
    exact h

/-- `cleanup_newest` goes on, or returns. -/
theorem iterated_cleanup {o : Option Addr} (ho : m.newest = o) : Iterated (m.cleanup .peek o) := by
  subst ho
  unfold Mem.cleanup
  split
  · rename_i hnull
    exact iterated_done (by rw [hnull])
  · rename_i x hx
    exact iterated_running ⟨rfl, hx⟩

theorem iterated_step {c : Call T} (hi : Iterating m c) : Iterated (m.step c) := by
  cases c with
  | loadNewest k =>
    obtain rfl : k = .peek := hi
    exact iterated_cleanup rfl
  | cleanDeleted k x =>
    obtain ⟨rfl, hx⟩ := hi
    simp only [Mem.step]
    split
    · exact iterated_running ⟨rfl, hx⟩
    · exact iterated_done (by rw [hx])
  | cleanNext k x call =>
    simp only [Mem.step]
    unfold Mem.cleanNext
    split
    · exact iterated_running hi
    · exact iterated_running hi
  | cleanExchange k x next =>
    obtain ⟨rfl, hx⟩ := hi
    simp only [Mem.step]
    -- Nobody else changes `newest`, and so the exchange succeeds.
    rw [if_pos hx]
    exact iterated_cleanup rfl
  | _ => cases hi

/-- The state after an access of a call. -/
inductive IterStep (t : Fin n) (w : World T n) (c : Call T) (w₁ : World T n) : Prop where
  | goes (c' : Call T) (hout : (w.mem.step c).2 = .running c') (hpc : w₁.pc t = .call c')
      (hi : Iterating w₁.mem c') (hhist : w₁.history = w.history)
      (hs : Dropping.proceed t ⟨w, .iter⟩ = some ⟨w₁, .iter⟩)
  | returns (hout : (w.mem.step c).2 = .done (.peeked w₁.mem.newest)) (hpc : w₁.pc t = .idle)
      (hhist : w₁.history = w.history ++ [.result t c.op (.peeked w₁.mem.newest)])
      (hs : Dropping.proceed t ⟨w, .iter⟩ = some ⟨w₁, .after (Sweep.move w₁.mem.newest)⟩)

/-- What the destructor does in `iter()`. -/
theorem iter_step {c : Call T} (hpc : w.pc t = .call c) (hi : Iterating w.mem c) :
    IterStep t w c (w.called t c.op (w.mem.step c)) := by
  have hgoes := iterated_step hi
  have hw : w.proceed t = some (w.called t c.op (w.mem.step c)) := by
    unfold World.proceed
    rw [hpc]
  have hs : Dropping.proceed t ⟨w, .iter⟩ = _ := congrArg (Option.map _) hw
  cases hr : w.mem.step c with
  | mk m' out =>
    rw [hr] at hgoes hs
    cases out with
    | running c' =>
      have hpc' : (w.called t c.op (m', .running c')).pc t = .call c' := Function.update_self ..
      rw [Option.map_some, hpc'] at hs
      exact .goes c' (by rw [hr]) hpc' (hgoes.goes c' rfl) rfl hs
    | done res =>
      have hres : res = .peeked m'.newest := hgoes.returns res rfl
      subst hres
      have hpc' : (w.called t c.op (m', .done (.peeked m'.newest))).pc t = .idle :=
        Function.update_self ..
      have hlast : (w.called t c.op (m', .done (.peeked m'.newest))).history.getLast? =
          some (.result t c.op (.peeked m'.newest)) := List.getLast?_concat
      rw [Option.map_some, hpc', hlast] at hs
      exact .returns (by rw [hr]; rfl) hpc' rfl hs

end iter

section deletion

/-- Every entry is deleted if and only if `newest` leads nowhere. -/
theorem contents_nil_iff (h : One m tgt) : m.contents = [] ↔ m.newest.bind tgt = none := by
  rw [← h.head_eq, List.head?_eq_none_iff]

theorem deleted_of_nil (hnil : w.mem.contents = []) {x : Addr} (hx : x ∈ w.mem.attached) :
    w.mem.heap.isDeleted x = true := by
  by_contra hlive
  have hmem : x ∈ w.mem.contents := mem_contents.mpr ⟨hx, (Bool.not_eq_true _).mp hlive⟩
  rw [hnil] at hmem
  cases hmem

/-- The deletion of an entry, and what others rely on. -/
theorem deleteSelf_later (h : Inv w tgt) {x : Addr} (hx : x ∈ w.mem.attached) :
    ∃ tgt', Inv (Dropping.setHeap w (w.mem.heap.deleteSelf x).1) tgt' ∧
      (listView w.mem.attached w.mem.heap.isDeleted tgt).Later
        (listView w.mem.attached (w.mem.heap.deleteSelf x).1.isDeleted tgt') ∧
      (w.mem.heap.deleteSelf x).1.isDeleted x = true ∧
      (w.mem.heap.deleteSelf x).1.released = w.mem.heap.released := by
  cases hlive : w.mem.heap.isDeleted x with
  | true =>
    rw [deleteSelf_dead hlive]
    exact ⟨tgt, h, .refl _, hlive, rfl⟩
  | false =>
    have hrel : (w.mem.heap.deleteSelf x).1.released = w.mem.heap.released := by
      rw [deleteSelf_eq hlive]
      rfl
    have hext : Ext w.mem.heap (w.mem.heap.deleteSelf x).1 w.mem.attached w.mem.attached tgt _
      none := ext_kill hx hlive
    refine ⟨_, ⟨h.one.kill hx hlive, fun u => ?_, fun u y hy => ?_, h.own⟩, hext.later, ?_, hrel⟩
    · exact (h.ok u).ext hext fun _ _ => by simp
    · show (w.mem.heap.deleteSelf x).1.released y = false
      rw [hrel]
      exact h.held u y hy
    · rw [isDeleted_deleteSelf hlive, Function.update_self]

/-- The field `newest` is dropped. -/
theorem dropNewest_inv (h : Inv w tgt) (hnil : w.mem.contents = []) :
    Inv { w with mem := { w.mem with newest := none } } tgt where
  one :=
    { heap := h.one.heap
      list := fun i => by
        show Threaded _ tgt none (entries w.mem.heap w.mem.attached (fun _ => ()) i)
        rw [one_entries, hnil]
        rfl
      nodup := h.one.nodup
      roots := fun i x hx => by cases hx
      unattached := h.one.unattached
      leads := h.one.leads }
  ok := h.ok
  held := h.held
  own := h.own

end deletion

section outside

/-- What an action of the others leaves to the destructor. -/
structure Aside (t : Fin n) (s : Dropping T n) (tgt : Addr → Option Addr) (w : World T n)
    (tgt' : Addr → Option Addr) : Prop where
  inv : Inv w tgt'
  later : (listView s.world.mem.attached s.world.mem.heap.isDeleted tgt).Later
    (listView w.mem.attached w.mem.heap.isDeleted tgt')
  newest : w.mem.newest = s.world.mem.newest
  attached : w.mem.attached = s.world.mem.attached
  history : w.history = s.world.history
  quiet : ∀ u, Quiet (s.world.pc u) → Quiet (w.pc u)
  pc : s.place.iterates = true → w.pc t = s.world.pc t
  held : ∀ x, s.place.holds = some x → s.world.mem.heap.released x = false →
    w.mem.heap.released x = false

/-- A thread that is not the one inside of `iter()` has moved. -/
theorem Aside.of_goto {g : Heap T} {u : Fin n} {pc : Pc T}
    (hinv : Inv ((Dropping.setHeap s.world g).goto u pc) tgt')
    (hlater : (listView s.world.mem.attached s.world.mem.heap.isDeleted tgt).Later
      (listView s.world.mem.attached g.isDeleted tgt'))
    (hrel : g.released = s.world.mem.heap.released) (hpc : Quiet pc)
    (hu : (u != t || !s.place.iterates) = true) :
    Aside t s tgt ((Dropping.setHeap s.world g).goto u pc) tgt' where
  inv := hinv
  later := hlater
  newest := rfl
  attached := rfl
  history := rfl
  quiet v hv := by
    show Quiet (Function.update s.world.pc u pc v)
    by_cases hvu : v = u
    · rw [hvu, Function.update_self]
      exact hpc
    · rw [Function.update_of_ne hvu]
      exact hv
  pc hi := by
    have hne : t ≠ u := by
      rintro rfl
      simp [hi] at hu
    exact Function.update_of_ne hne _ _
  held x _ hx := by
    show g.released x = false
    rw [hrel]
    exact hx

/-- A thread calls `next_ptr` of an entry: it runs a destructor, or goes on with an iterator. -/
theorem nextPtr_inv (h : Inv w tgt) {x : Addr} (hx : x ∈ w.mem.attached) (u : Fin n) :
    Inv (w.goto u (.drop (.start x))) tgt :=
  h.moves h.one (.refl _ _ _ _) rfl
    (.of_none ⟨x, callOk_start hx False.elim⟩ (fun y hy => by cases hy) rfl)

/-- The others do not touch the word of the stack. -/
theorem outside_step (h : Inv s.world tgt)
    (hpushed : ∀ x, StackClone.pushed s.world x = true → x ∈ s.world.mem.attached)
    (hquiet : ∀ u, (u = t → s.place.iterates = false) → Quiet (s.world.pc u))
    {a : StackClone.Action T n} (ha : s.outside t a = true)
    (hw : StackClone.step s.world a = some w') : ∃ tgt', Aside t s tgt w' tgt' := by
  -- The thread of the action is in no call of a method.
  have hactor : ∀ {u : Fin n}, (u != t || !s.place.iterates) = true → Quiet (s.world.pc u) := by
    intro u hu
    refine hquiet u fun hut => ?_
    rw [hut] at hu
    simpa using hu
  cases a with
  | stack a =>
    cases stepped hw with
    | invoke u op hpc => cases ha
    | call u call hpc =>
      have hq := hactor ha
      rw [hpc] at hq
      cases hq
    | dropping u call call' hpc hout =>
      have hclean := h.drop_cleans hpc
      have hok := h.ok u
      rw [hpc] at hok
      obtain ⟨b, hcall⟩ := hok
      have hlater := (ext_clean hclean).later
      have hafter := nextPtr_ok h.one.heap hcall
      rw [hout] at hafter
      refine ⟨tgt, .of_goto (drop_inv h hpc fun m' hheap hatt => .of_none ?_ ?_ rfl) hlater
        hclean.fields.2.1 trivial ha⟩
      · refine ⟨b, ?_⟩
        rw [hheap, hatt]
        exact hlater.callOk hafter
      · intro x hx
        rw [hheap, hclean.fields.2.1]
        exact nextPtr_holds hout (by simpa [Pc.holds] using hx)
    | dropped u call hpc =>
      have hclean := h.drop_cleans hpc
      refine ⟨tgt, .of_goto (drop_inv h hpc fun m' _ _ => .of_none trivial ?_ rfl)
        (ext_clean hclean).later hclean.fields.2.1 trivial ha⟩
      intro x hx
      cases hx
    | drop u x y hpc hy =>
      exact ⟨tgt, .of_goto (g := s.world.mem.heap) (nextPtr_inv h (h.one.leads x y hy) u)
        (.refl _) rfl trivial ha⟩
    | release x hun =>
      refine ⟨tgt, release_inv h hun, .refl _, rfl, rfl, rfl, fun _ hu => hu, fun _ => rfl,
        fun y hy hyrel => ?_⟩
      have hyx : y ≠ x := by
        rintro rfl
        simp [Dropping.outside, hy] at ha
      show Function.update s.world.mem.heap.released x true y = false
      rw [Function.update_of_ne hyx]
      exact hyrel
  | deleteSelf x =>
    unfold StackClone.step at hw
    simp only at hw
    split at hw
    · rename_i hx
      cases hw
      rw [Bool.and_eq_true] at hx
      obtain ⟨tgt', hinv, hlater, -, hrel⟩ := deleteSelf_later h (hpushed x hx.1)
      exact ⟨tgt', hinv, hlater, rfl, rfl, rfl, fun _ hu => hu, fun _ => rfl,
        fun y _ hy => (congrFun hrel y).trans hy⟩
    · cases hw
  | next u x =>
    unfold StackClone.step at hw
    simp only at hw
    split at hw
    · split at hw
      · rename_i hx
        cases hw
        exact ⟨tgt, .of_goto (g := s.world.mem.heap) (nextPtr_inv h hx u) (.refl _) rfl trivial ha⟩
      · cases hw
    · cases hw

end outside

section safety

/-- How far the destructor has come. -/
def PlaceOk (t : Fin n) (w : World T n) (tgt : Addr → Option Addr) : Place → Prop
  | .check => True
  | .iter => ∃ c, w.pc t = .call c ∧ Iterating w.mem c
  | .sweep call =>
    SweepOk (listView w.mem.attached w.mem.heap.isDeleted tgt) w.mem.newest call ∧
      ∀ x, call.holds = some x → w.mem.heap.released x = false
  | .newest => w.mem.contents = []
  | .finished => w.mem.contents = [] ∧ w.mem.newest = none

/-- What holds while the thread drops the stack. -/
structure DropOk (t : Fin n) (s : Dropping T n) : Prop where
  inv : ∃ tgt, Inv s.world tgt ∧ PlaceOk t s.world tgt s.place
  pushed : ∀ x, StackClone.pushed s.world x = true → x ∈ s.world.mem.attached
  quiet : ∀ u, (u = t → s.place.iterates = false) → Quiet (s.world.pc u)

/-- The loop goes on, or all entries are deleted. -/
theorem placeOk_after (h : One w.mem tgt) {out : Outcome Sweep Unit}
    (hout : SweepAfter (listView w.mem.attached w.mem.heap.isDeleted tgt) w.mem.newest out)
    (hheld : ∀ c x, out = .running c → c.holds = some x → w.mem.heap.released x = false) :
    PlaceOk t w tgt (.after out) := by
  cases out with
  | running c => exact ⟨hout, fun x hx => hheld c x rfl hx⟩
  | done _ => exact (contents_nil_iff h).mpr hout

/-- The loop begins at the entry that `iter()` has returned. -/
theorem placeOk_move (h : One w.mem tgt) :
    PlaceOk t w tgt (.after (Sweep.move w.mem.newest)) :=
  placeOk_after h (sweep_move (fun y hy => (h.roots () y hy).1) rfl)
    fun _ _ hc hx => (move_holds hc hx).elim

/-- The entry that the loop is at is deleted. -/
theorem placeOk_delete (h : Inv w tgt) {x : Addr}
    (hplace : PlaceOk t w tgt (.sweep (.delete x))) :
    ∃ tgt', Inv (Dropping.setHeap w (w.mem.heap.deleteSelf x).1) tgt' ∧
      PlaceOk t (Dropping.setHeap w (w.mem.heap.deleteSelf x).1) tgt'
        (.sweep (.next x (.start x))) := by
  obtain ⟨tgt', hinv', hlater, hdead, -⟩ := deleteSelf_later h hplace.1.1
  exact ⟨tgt', hinv', sweep_delete hplace.1 hlater hdead, fun y hy => by cases hy⟩

/-- An access of `next()`. -/
theorem placeOk_next (h : Inv w tgt) {x : Addr} {call : NextPtr}
    (hplace : PlaceOk t w tgt (.sweep (.next x call))) :
    Inv (Dropping.setHeap w (call.step w.mem.heap).1) tgt ∧
      PlaceOk t (Dropping.setHeap w (call.step w.mem.heap).1) tgt
        (.after ((Sweep.next x call).step w.mem.heap).2) := by
  obtain ⟨hsweep, hheld⟩ := hplace
  have hclean := nextPtr_cleans hsweep.2.1 hheld
  have hafter := sweep_next h.one.heap hsweep
  rw [← hclean.isDeleted_eq] at hafter
  have hinv' := clean_inv h hclean
  refine ⟨hinv', placeOk_after hinv'.one hafter fun c y hc hy => ?_⟩
  show (call.step w.mem.heap).1.released y = false
  rw [hclean.fields.2.1]
  exact sweep_holds hc hy

/-- An action of the others. -/
theorem DropOk.other (h : DropOk t s) {a : StackClone.Action T n} (ha : s.outside t a = true)
    (hw : StackClone.step s.world a = some w') : DropOk t { s with world := w' } := by
  obtain ⟨tgt, hinv, hplace⟩ := h.inv
  obtain ⟨tgt', haside⟩ := outside_step hinv h.pushed h.quiet ha hw
  refine ⟨⟨tgt', haside.inv, ?_⟩, fun x hx => ?_, fun u hu => haside.quiet u (h.quiet u hu)⟩
  · -- The others delete entries and never attach one, so that an empty stack stays empty.
    have hnil : s.world.mem.contents = [] → w'.mem.contents = [] := by
      intro hC
      rw [contents_nil_iff hinv.one] at hC
      rw [contents_nil_iff haside.inv.one, haside.newest]
      exact haside.later.tgt s.world.mem.newest none hC
    obtain ⟨w, place⟩ := s
    cases place with
    | check => exact trivial
    | iter =>
      obtain ⟨c, hpc, hi⟩ := hplace
      refine ⟨c, (haside.pc rfl).trans hpc, ?_⟩
      have hnew : w'.mem.newest = w.mem.newest := haside.newest
      cases c with
      | cleanDeleted k x | cleanNext k x _ | cleanExchange k x _ => exact ⟨hi.1, hnew.trans hi.2⟩
      | loadNewest k => exact hi
      | _ => cases hi
    | sweep call =>
      obtain ⟨hsweep, hheld⟩ := hplace
      refine ⟨?_, fun x hx => haside.held x hx (hheld x hx)⟩
      rw [haside.newest]
      exact hsweep.later haside.later
    | newest => exact hnil hplace
    | finished => exact ⟨hnil hplace.1, haside.newest.trans hplace.2⟩
  · unfold StackClone.pushed at hx
    rw [haside.history] at hx
    rw [haside.attached]
    exact h.pushed x hx

/-- The first access of the destructor. -/
theorem DropOk.check (h : DropOk t ⟨w, .check⟩)
    (hs : Dropping.proceed t ⟨w, .check⟩ = some s') : DropOk t s' := by
  obtain ⟨tgt, hinv, -⟩ := h.inv
  unfold Dropping.proceed at hs
  simp only at hs
  split at hs
  · rename_i hnull
    cases hs
    exact ⟨⟨tgt, hinv, hinv.one.contents_nil hnull⟩, h.pushed, h.quiet⟩
  · obtain ⟨w₁, hw, hs⟩ := Option.map_eq_some_iff.mp hs
    cases hs
    obtain ⟨tgt', hinv'⟩ := inv_step hinv hw
    have hidle : w.pc t = .idle := by
      unfold World.step at hw
      simp only at hw
      split at hw
      · assumption
      · cases hw
    rw [step_invoke hidle] at hw
    cases hw
    refine ⟨⟨tgt', hinv', .start .peek, Function.update_self .., rfl⟩, fun x hx => ?_,
      fun u hu => ?_⟩
    · refine h.pushed x ?_
      unfold StackClone.pushed at hx ⊢
      change (w.history ++ [_]).any _ = true at hx
      rw [List.any_append] at hx
      simpa using hx
    · have hut : u ≠ t := fun hc => by cases hu hc
      show Quiet (Function.update w.pc t _ u)
      rw [Function.update_of_ne hut]
      exact h.quiet u fun _ => rfl

/-- An access of `iter()`. -/
theorem DropOk.iter (h : DropOk t ⟨w, .iter⟩) (hs : Dropping.proceed t ⟨w, .iter⟩ = some s') :
    DropOk t s' := by
  obtain ⟨tgt, hinv, c, hpc, hi⟩ := h.inv
  change w.pc t = .call c at hpc
  have hw : w.step (.thread t .proceed) = some (w.called t c.op (w.mem.step c)) := by
    change w.proceed t = _
    unfold World.proceed
    rw [hpc]
  have hlater := later_step hinv hw
  have hquiet : ∀ u, u ≠ t → Quiet ((w.called t c.op (w.mem.step c)).pc u) := by
    intro u hu
    rw [pc_step hw (fun hc => hu (Option.some.inj hc).symm)]
    exact h.quiet u fun hut => absurd hut hu
  obtain ⟨tgt', hinv'⟩ := call_inv hinv hpc c.op
  have hstep := iter_step hpc hi
  generalize w.called t c.op (w.mem.step c) = w₁ at hlater hquiet hinv' hstep
  cases hstep with
  | goes c' _ hpc' hi' hhist hs' =>
    cases hs'.symm.trans hs
    refine ⟨⟨tgt', hinv', c', hpc', hi'⟩, fun x hx => ?_, fun u hu => ?_⟩
    · unfold StackClone.pushed at hx
      rw [hhist] at hx
      exact hlater.att x (h.pushed x hx)
    · exact hquiet u fun hut => by cases hu hut
  | returns _ hpc' hhist hs' =>
    cases hs'.symm.trans hs
    refine ⟨⟨tgt', hinv', placeOk_move hinv'.one⟩, fun x hx => ?_, fun u _ => ?_⟩
    · unfold StackClone.pushed at hx
      rw [hhist, List.any_append] at hx
      refine hlater.att x (h.pushed x ?_)
      show w.history.any _ = true
      simpa using hx
    · by_cases hut : u = t
      · show Quiet (w₁.pc u)
        rw [hut, hpc']
        exact trivial
      · exact hquiet u hut

/-- A step of the destructor. -/
theorem DropOk.proceed (h : DropOk t s) (hs : s.proceed t = some s') : DropOk t s' := by
  obtain ⟨w, place⟩ := s
  obtain ⟨tgt, hinv, hplace⟩ := h.inv
  cases place with
  | check => exact h.check hs
  | iter => exact h.iter hs
  | sweep call =>
    cases call with
    | delete x =>
      cases hs
      obtain ⟨tgt', hinv', hplace'⟩ := placeOk_delete hinv hplace
      exact ⟨⟨tgt', hinv', hplace'⟩, h.pushed, h.quiet⟩
    | next x call =>
      cases hs
      obtain ⟨hinv', hplace'⟩ := placeOk_next hinv hplace
      rw [← sweep_heap x call] at hinv' hplace'
      exact ⟨⟨tgt, hinv', hplace'⟩, h.pushed, fun u _ => h.quiet u fun _ => rfl⟩
  | newest =>
    cases hs
    exact ⟨⟨tgt, dropNewest_inv hinv hplace, hplace, rfl⟩, h.pushed, h.quiet⟩
  | finished => cases hs

end safety

section ends

/-- The destructor that runs alone comes to its end. -/
abbrev DropEnds (t : Fin n) (s : Dropping T n) : Prop :=
  Ends (Dropping.proceed t) Dropping.Releases (fun s => s.place = .finished) s

/-- The release of an entry that the destructor does not hold. -/
theorem drop_release (h : Inv s.world tgt) (hr : Dropping.Releases s s') :
    ∃ x, s' = ⟨Dropping.setHeap s.world (s.world.mem.heap.release x), s.place⟩ ∧
      Inv s'.world tgt ∧ x < s.world.mem.heap.nextAddr ∧ s.world.mem.heap.unlinked x = true ∧
      s.world.mem.newest ≠ some x ∧ (∀ u, (s.world.pc u).holds x = false) ∧
      s.place.holds ≠ some x := by
  obtain ⟨w', place⟩ := s'
  obtain ⟨hplace, x, hx, hne⟩ := hr
  cases hplace
  obtain ⟨hw', hinv', hlt, hun, hnew, hheld⟩ := release_cases h hx
  cases hw'
  exact ⟨x, rfl, hinv', hlt, hun, hnew, hheld, hne⟩

/-- The field is dropped. -/
theorem field_ends (hs : s.place = .newest) : DropEnds t s := by
  refine Ends.of_step (fun s => s.place = .newest) (fun s s' hs hr => hr.1.trans hs)
    (fun s hs => ?_) hs
  exact ⟨_, by unfold Dropping.proceed; rw [hs], .done rfl⟩

/-- The loop. -/
theorem loop_ends {x : Addr} (h : Inv w tgt)
    (hplace : PlaceOk t w tgt (.sweep (.delete x))) : DropEnds t ⟨w, .sweep (.delete x)⟩ := by
  refine sweep_ends (fun s : Dropping T n => s.world.mem.heap) w.mem.attached
    (fun tgt s c => s.place = .sweep c ∧ Inv s.world tgt ∧
      s.world.mem.attached = w.mem.attached ∧ PlaceOk t s.world tgt (.sweep c))
    ?_ ?_ ?_ ?_ ?_ ⟨rfl, h, rfl, hplace⟩
  · rintro tgt s c ⟨-, hinv, hatt, -⟩
    rw [← hatt]
    exact hinv.one.heap
  · rintro tgt s x call ⟨-, hinv, hatt, hsweep, hheld⟩
    rw [← hatt]
    refine ⟨hinv.one.heap, hsweep.1, hheld, fun y ha hlive => ?_⟩
    exact hinv.one.unreleased (ha.before hinv.one.heap hsweep.1).2.1 hlive
  · rintro tgt s s' c ⟨hplace, hinv, hatt, hsweep, hheld⟩ hr
    obtain ⟨x, rfl, hinv', -, -, -, -, hne⟩ := drop_release hinv hr
    refine ⟨⟨hplace, hinv', hatt, hsweep, fun y hy => ?_⟩, rfl⟩
    have hyx : y ≠ x := by
      rintro rfl
      exact hne (by rw [hplace]; exact hy)
    show Function.update s.world.mem.heap.released x true y = false
    rw [Function.update_of_ne hyx]
    exact hheld y hy
  · rintro tgt ⟨w₁, place⟩ x ⟨hplace, hinv, hatt, hok⟩
    cases hplace
    obtain ⟨tgt', hinv', hok'⟩ := placeOk_delete hinv hok
    exact ⟨_, tgt', rfl, rfl, hinv', hatt, hok'⟩
  · rintro tgt ⟨w₁, place⟩ x call ⟨hplace, hinv, hatt, hok⟩
    cases hplace
    obtain ⟨hinv', hok'⟩ := placeOk_next hinv hok
    rw [← sweep_heap x call] at hinv' hok'
    refine ⟨_, rfl, rfl, fun c hc => ?_, fun hout => field_ends ?_⟩
    · rw [hc] at hok'
      exact ⟨congrArg Place.after hc, hinv', hatt, hok'⟩
    · exact congrArg Place.after hout

/-- What comes after `iter()`. -/
theorem moved_ends (h : Inv w tgt) : DropEnds t ⟨w, .after (Sweep.move w.mem.newest)⟩ := by
  have hok : PlaceOk t w tgt _ := placeOk_move h.one
  cases hnew : w.mem.newest with
  | none => exact field_ends rfl
  | some x =>
    rw [hnew] at hok
    exact loop_ends h hok

/-- `iter()`, and what comes after it. -/
theorem iter_ends (h : ∃ tgt, Inv w tgt) {K : Nat} {c : Call T} (hpc : w.pc t = .call c)
    (hi : Iterating w.mem c) (hgoing : Going () K (family w) c) : DropEnds t ⟨w, .iter⟩ := by
  refine stackCall_ends (fun s : Dropping T n => family s.world) () K
    (fun s c => s.place = .iter ∧ (∃ tgt, Inv s.world tgt) ∧ s.world.pc t = .call c ∧
      Iterating s.world.mem c)
    (fun s s' c hs hr => ?_) (fun s c hs => ?_) ⟨rfl, h, hpc, hi⟩ hgoing
  · obtain ⟨hplace, ⟨tgt, hinv⟩, hpc, hi⟩ := hs
    obtain ⟨x, rfl, hinv', hlt, hun, hnew, hheld, -⟩ := drop_release hinv hr
    have hx : c.holds x = false := by
      have hx := hheld t
      rw [hpc] at hx
      exact hx
    refine ⟨⟨hplace, ⟨tgt, hinv'⟩, hpc, ?_⟩, x, rfl, hlt, hun, fun _ => hnew, hx⟩
    cases c <;> exact hi
  · obtain ⟨w₁, place⟩ := s
    obtain ⟨hplace, ⟨tgt, hinv⟩, hpc, hi⟩ := hs
    cases hplace
    change w₁.pc t = .call c at hpc
    obtain ⟨tgt', hinv'⟩ := call_inv hinv hpc c.op
    have hfamily : family (w₁.called t c.op (w₁.mem.step c)) =
        (family w₁).setMem () (w₁.mem.step c).1 := by
      generalize w₁.mem.step c = r
      obtain ⟨m', out⟩ := r
      cases out <;> exact family_setMem w₁ ..
    have hstep := iter_step hpc hi
    rw [show (family w₁).mem () = w₁.mem from rfl]
    generalize w₁.called t c.op (w₁.mem.step c) = w₂ at hinv' hfamily hstep
    cases hstep with
    | goes c' hout hpc' hi' _ hs' =>
      refine ⟨_, hs', fun c'' hc => ?_, fun res hres => ?_⟩
      · cases hout.symm.trans hc
        exact ⟨⟨rfl, ⟨tgt', hinv'⟩, hpc', hi'⟩, hfamily⟩
      · cases hout.symm.trans hres
    | returns hout _ _ hs' =>
      exact ⟨_, hs', fun c' hc => (by cases hout.symm.trans hc), fun _ _ _ _ => moved_ends hinv'⟩

end ends

section run

end run

end Sdd.Proofs.Stack
