import Sdd.Proofs.Queue.Clone
import Sdd.Proofs.Sweep
import Sdd.QueueDrop

/-!
# `Sdd.Proofs.Queue.Drop`: what the destructor of a queue leaves

`DropOk t s` is what holds while the thread `t` drops a queue: `Inv`, no other thread is in an
operation of the queue, and `PlaceOk` says how far the destructor has come. In `iter()` the word
`oldest` is the one that the call has read (`Iterating`), since nobody else changes it; then the
entry that the loop is at leads to where `oldest` leads. `outside_step` is what the others leave as
it is.

`queue_drops` is the result. For the end of the destructor that runs alone the parts of the program
are put one after the other.
-/

set_option autoImplicit false

namespace Sdd.Proofs.Queue

open Sdd.Lib Sdd.Queue Sdd.QueueDrop

variable {T : Type} {n : Nat} {w w' : World T n} {tgt tgt' : Addr → Option Addr} {t : Fin n}
  {s s' : Dropping T n}

section iter

/-- How far `iter()` has come in a queue that nobody else uses. -/
def Iterating (w : World T n) : Pc T → Prop
  | .cleanLoad k => k = .iter
  | .cleanDeleted k x | .cleanNext k x _ | .cleanExchange k x _ => k = .iter ∧ w.oldest = some x
  | .cleanReset k => k = .iter ∧ w.oldest = none
  | _ => False

/-- A step of `iter()`: it goes on, or returns the entry in `oldest`. -/
structure Iterated (t : Fin n) (w w' : World T n) : Prop where
  pc : ∀ u, u ≠ t → w'.pc u = w.pc u
  goes : Iterating w' (w'.pc t) ∨
    w'.pc t = .idle ∧ w'.history.getLast? = some (.result t .iter (.first w'.oldest))

/-- The call has not returned. -/
theorem Iterating.ne_idle {pc : Pc T} (hi : Iterating w pc) : pc ≠ .idle := by
  rintro rfl
  exact hi

theorem iterated_goto {q : Pc T} (hpc : w'.pc = w.pc) (h : Iterating w' q) :
    Iterated t w (w'.goto t q) where
  pc u hu := by
    rw [← hpc]
    exact Function.update_of_ne hu _ _
  goes := by
    refine .inl ?_
    show Iterating (w'.goto t q) (Function.update w'.pc t q t)
    rw [Function.update_self]
    cases q <;> exact h

/-- `cleanup_oldest` returns. -/
theorem iterated_cleaned {o : Option Addr} (hpc : w'.pc = w.pc) (ho : w'.oldest = o) :
    Iterated t w (w'.cleaned t .iter o) where
  pc u hu := by
    rw [← hpc]
    exact Function.update_of_ne hu _ _
  goes := by
    subst ho
    exact .inr ⟨Function.update_self .., List.getLast?_concat⟩

theorem iterated_step (hi : Iterating w (w.pc t)) (hw : w.proceed t = some w') :
    Iterated t w w' := by
  unfold World.proceed at hw
  cases hpc : w.pc t with
  | cleanLoad k =>
    rw [hpc] at hw hi
    obtain rfl : k = .iter := hi
    simp only at hw
    split at hw
    · rename_i hold
      cases hw
      exact iterated_cleaned rfl hold
    · rename_i x hold
      cases hw
      exact iterated_goto (q := .cleanDeleted .iter x) rfl ⟨rfl, hold⟩
  | cleanDeleted k x =>
    rw [hpc] at hw hi
    obtain ⟨rfl, hold⟩ := hi
    simp only at hw
    split at hw
    · cases hw
      exact iterated_goto (q := .cleanNext .iter x (.start x)) rfl ⟨rfl, hold⟩
    · cases hw
      exact iterated_cleaned rfl hold
  | cleanNext k x call =>
    rw [hpc] at hw hi
    cases hw
    unfold World.cleanNext
    split
    · rename_i call' _
      exact iterated_goto (q := .cleanNext k x call') rfl hi
    · rename_i next _
      exact iterated_goto (q := .cleanExchange k x next) rfl hi
  | cleanExchange k x next =>
    rw [hpc] at hw hi
    obtain ⟨rfl, hold⟩ := hi
    cases hw
    unfold World.cleanExchange
    -- Nobody else changes `oldest`, and so the exchange succeeds.
    rw [if_pos hold]
    cases next with
    | none => exact iterated_goto (q := .cleanReset .iter) rfl ⟨rfl, rfl⟩
    | some y => exact iterated_cleaned rfl rfl
  | cleanReset k =>
    rw [hpc] at hw hi
    obtain ⟨rfl, hold⟩ := hi
    cases hw
    exact iterated_cleaned rfl hold
  | idle =>
    rw [hpc] at hw
    cases hw
  | _ =>
    rw [hpc] at hi
    cases hi

end iter

section deletion

/-- Every entry is deleted if and only if `oldest` leads nowhere. -/
theorem contents_nil_iff (h : Shared w tgt) : w.contents = [] ↔ w.oldest.bind tgt = none := by
  rw [← h.head_eq, List.head?_eq_none_iff]

theorem deleted_of_nil (hnil : w.contents = []) {x : Addr} (hx : x ∈ w.attached) :
    w.heap.isDeleted x = true := by
  by_contra hlive
  have hmem : x ∈ w.contents := Shared.mem_contents.mpr ⟨hx, (Bool.not_eq_true _).mp hlive⟩
  rw [hnil] at hmem
  cases hmem

/-- The deletion of an entry, and what others rely on. -/
theorem deleteSelf_later (h : Inv w tgt) {x : Addr} (hx : x ∈ w.attached) :
    ∃ tgt', Inv { w with heap := (w.heap.deleteSelf x).1 } tgt' ∧
      (view w tgt).Later (view { w with heap := (w.heap.deleteSelf x).1 } tgt') ∧
      (w.heap.deleteSelf x).1.isDeleted x = true ∧
      (w.heap.deleteSelf x).1.released = w.heap.released := by
  cases hlive : w.heap.isDeleted x with
  | true =>
    rw [deleteSelf_dead hlive]
    exact ⟨tgt, h, .refl _, hlive, rfl⟩
  | false =>
    have hrel : (w.heap.deleteSelf x).1.released = w.heap.released := by
      rw [deleteSelf_eq hlive]
      rfl
    have hext : Ext w _ tgt _ none := ext_kill hlive
    refine ⟨_, ⟨h.shared.kill hx hlive, fun u => ?_, fun u y hy => ?_, h.own⟩, hext.later, ?_, hrel⟩
    · exact (h.ok u).ext hext h.shared fun _ _ => by simp
    · show (w.heap.deleteSelf x).1.released y = false
      rw [hrel]
      exact h.held u y hy
    · rw [isDeleted_deleteSelf hlive, Function.update_self]

/-- The field `oldest` is dropped. -/
theorem dropOldest_inv (h : Inv w tgt) (hnil : w.contents = []) :
    Inv { w with oldest := none } tgt := by
  have hnone := (contents_nil_iff h.shared).mp hnil
  have hs : Shared { w with oldest := none } tgt :=
    h.shared.setOldest (fun x hx => by cases hx) hnone.symm
  have hext : Ext w { w with oldest := none } tgt tgt none := by
    cases hold : w.oldest with
    | none =>
      rw [show ({ w with oldest := none } : World T n) = w by rw [← hold]]
      exact ⟨.refl _, fun _ hx => hx, fun _ _ => rfl, Nat.le_refl _, fun _ hx => .inl hx⟩
    | some x => exact ext_setOldest hold (deleted_of_nil hnil (h.shared.roots x (.inl hold)).1)
  exact ⟨hs, fun u => (h.ok u).ext hext h.shared fun _ _ => by simp, h.held, h.own⟩

/-- The field `newest` is dropped. -/
theorem dropNewest_inv (h : Inv w tgt) : Inv { w with newest := none } tgt where
  shared := h.shared.setNewest fun x hx => by cases hx
  ok u := (h.ok u).ext (ext_setNewest none) h.shared fun _ _ => by simp
  held := h.held
  own := h.own

end deletion

section outside

/-- What an action of the others leaves to the destructor. -/
structure Aside (t : Fin n) (s : Dropping T n) (tgt : Addr → Option Addr) (w : World T n)
    (tgt' : Addr → Option Addr) : Prop where
  inv : Inv w tgt'
  handled : Handled w
  later : (view s.world tgt).Later (view w tgt')
  oldest : w.oldest = s.world.oldest
  newest : w.newest = s.world.newest
  attached : w.attached = s.world.attached
  quiet : ∀ u, (s.world.pc u).op = none → (w.pc u).op = none
  pc : s.place.iterates = true → w.pc t = s.world.pc t
  held : ∀ x, s.place.holds = some x → s.world.heap.released x = false → w.heap.released x = false

/-- A thread is in no operation of the queue before, and in none after it has moved. -/
theorem quiet_goto {u : Fin n} {pc : Pc T} (hpc : pc.op = none) (v : Fin n)
    (hv : (w.pc v).op = none) : ((w.goto u pc).pc v).op = none := by
  show (Function.update w.pc u pc v).op = none
  by_cases hvu : v = u
  · rw [hvu, Function.update_self]
    exact hpc
  · rw [Function.update_of_ne hvu]
    exact hv

/-- A thread that is not the one inside of `iter()` has moved. -/
theorem Aside.of_goto {u : Fin n} {pc : Pc T} (hinv : Inv (w.goto u pc) tgt')
    (hh : Handled (w.goto u pc)) (hlater : (view s.world tgt).Later (view w tgt'))
    (hold : w.oldest = s.world.oldest) (hnew : w.newest = s.world.newest)
    (hatt : w.attached = s.world.attached) (hrel : w.heap.released = s.world.heap.released)
    (hwpc : w.pc = s.world.pc) (hpc : pc.op = none)
    (hu : (u != t || !s.place.iterates) = true) : Aside t s tgt (w.goto u pc) tgt' where
  inv := hinv
  handled := hh
  later := hlater
  oldest := hold
  newest := hnew
  attached := hatt
  quiet v hv := quiet_goto hpc v (hwpc ▸ hv)
  pc hi := by
    have hne : t ≠ u := by
      rintro rfl
      simp [hi] at hu
    show Function.update w.pc u pc t = _
    rw [Function.update_of_ne hne, hwpc]
  held x _ hx := by
    show w.heap.released x = false
    rw [hrel]
    exact hx

/-- A thread calls `next_ptr` of an entry: it runs a destructor, or goes on with an iterator. -/
theorem nextPtr_inv (h : Inv w tgt) {x : Addr} (hx : x ∈ w.attached) (u : Fin n) :
    Inv (w.goto u (.drop (.start x))) tgt :=
  (h.same u).goto (.of_none ⟨x, callOk_start hx False.elim⟩ (fun y hy => by cases hy) rfl)

/-- The others do not touch the words of the queue. -/
theorem outside_step (h : Inv s.world tgt) (hh : Handled s.world)
    (hquiet : ∀ u, (u = t → s.place.iterates = false) → (s.world.pc u).op = none)
    {a : QueueClone.Action T n} (ha : s.outside t a = true)
    (hw : QueueClone.step s.world a = some w') : ∃ tgt', Aside t s tgt w' tgt' := by
  -- The thread of the action is in no operation of the queue.
  have hactor : ∀ {u : Fin n}, (u != t || !s.place.iterates) = true →
      (s.world.pc u).op = none := by
    intro u hu
    refine hquiet u fun hut => ?_
    rw [hut] at hu
    simpa using hu
  cases a with
  | handles a =>
    cases a with
    | queue a =>
      have hh' := hh.step h hw
      cases a with
      | thread u act =>
        cases act with
        | invoke op => cases ha
        | proceed =>
          have hop := hactor ha
          change s.world.proceed u = some w' at hw
          cases hpc : s.world.pc u with
          | idle =>
            unfold World.proceed at hw
            rw [hpc] at hw
            cases hw
          | drop call =>
            have hinv := dropStep_inv h hpc hw
            have hok := h.ok u
            rw [hpc] at hok
            obtain ⟨b, hcall⟩ := hok
            have hclean := nextPtr_cleans hcall fun x hx =>
              h.held u x (by rw [hpc]; simp [Pc.holds, hx])
            have hlater := (ext_clean hclean).later
            unfold World.proceed at hw
            rw [hpc] at hw
            simp only at hw
            split at hw
            · cases hw
              exact ⟨tgt, .of_goto hinv hh' hlater rfl rfl rfl hclean.fields.2.1 rfl rfl ha⟩
            · cases hw
              exact ⟨tgt, .of_goto hinv hh' hlater rfl rfl rfl hclean.fields.2.1 rfl rfl ha⟩
          | _ =>
            rw [hpc] at hop
            cases hop
        | drop x =>
          change World.step s.world (.thread u (.drop x)) = some w' at hw
          unfold World.step at hw
          simp only at hw
          split at hw
          · rename_i y _ _ hy
            cases hw
            -- Only an attached entry is linked to another one.
            have hx : x ∈ s.world.attached := by
              by_contra hnot
              rw [h.shared.unattached x hnot] at hy
              cases hy
            have hinv := nextPtr_inv h (h.shared.heap.links x y hx hy).1 u
            exact ⟨tgt, .of_goto hinv hh' (.refl _) rfl rfl rfl rfl rfl rfl ha⟩
          · cases hw
      | release x =>
        change World.step s.world (.release x) = some w' at hw
        unfold World.step at hw
        simp only at hw
        split at hw
        · rename_i hun
          cases hw
          refine ⟨tgt, release_inv h hun, hh', .refl _, rfl, rfl, rfl, fun _ hu => hu, fun _ => rfl,
            fun y hy hyrel => ?_⟩
          have hyx : y ≠ x := by
            rintro rfl
            simp [Dropping.outside, hy] at ha
          show Function.update s.world.heap.released x true y = false
          rw [Function.update_of_ne hyx]
          exact hyrel
        · cases hw
    | deleteSelf x =>
      change Handles.step s.world (.deleteSelf x) = some w' at hw
      unfold Handles.step at hw
      simp only at hw
      split at hw
      · rename_i hx
        cases hw
        rw [Bool.and_eq_true] at hx
        obtain ⟨tgt', hinv, hlater, -, hrel⟩ := deleteSelf_later h (hh.attached x hx.1)
        exact ⟨tgt', hinv, hh.deleteSelf x, hlater, rfl, rfl, rfl, fun _ hu => hu, fun _ => rfl,
          fun y _ hy => (congrFun hrel y).trans hy⟩
      · cases hw
  | next u x =>
    unfold QueueClone.step at hw
    simp only at hw
    split at hw
    · split at hw
      · rename_i hx
        cases hw
        exact ⟨tgt, .of_goto (nextPtr_inv h hx u) (hh.goto _) (.refl _) rfl rfl rfl rfl rfl rfl ha⟩
      · cases hw
    · cases hw

end outside

section safety

/-- How far the destructor has come. -/
def PlaceOk (t : Fin n) (w : World T n) (tgt : Addr → Option Addr) : Place → Prop
  | .check => True
  | .iter => Iterating w (w.pc t)
  | .sweep call => SweepOk (view w tgt) w.oldest call ∧
      ∀ x, call.holds = some x → w.heap.released x = false
  | .oldest => w.contents = []
  | .newest => w.contents = [] ∧ w.oldest = none
  | .finished => w.contents = [] ∧ w.oldest = none ∧ w.newest = none

/-- What holds while the thread drops the queue. -/
structure DropOk (t : Fin n) (s : Dropping T n) : Prop where
  inv : ∃ tgt, Inv s.world tgt ∧ PlaceOk t s.world tgt s.place
  handled : Handled s.world
  quiet : ∀ u, (u = t → s.place.iterates = false) → (s.world.pc u).op = none

/-- The loop goes on, or all entries are deleted. -/
theorem placeOk_after (h : Shared w tgt) {out : Outcome Sweep Unit}
    (hout : SweepAfter (view w tgt) w.oldest out)
    (hheld : ∀ c x, out = .running c → c.holds = some x → w.heap.released x = false) :
    PlaceOk t w tgt (.after out) := by
  cases out with
  | running c => exact ⟨hout, fun x hx => hheld c x rfl hx⟩
  | done _ => exact (contents_nil_iff h).mpr hout

/-- The loop begins at the entry that `iter()` has returned. -/
theorem placeOk_move (h : Shared w tgt) : PlaceOk t w tgt (.after (Sweep.move w.oldest)) :=
  placeOk_after h (sweep_move (fun y hy => (h.roots y (.inl hy)).1) rfl)
    fun _ _ hc hx => (move_holds hc hx).elim

/-- The entry that the loop is at is deleted. -/
theorem placeOk_delete (h : Inv w tgt) {x : Addr}
    (hplace : PlaceOk t w tgt (.sweep (.delete x))) :
    ∃ tgt', Inv { w with heap := (w.heap.deleteSelf x).1 } tgt' ∧
      PlaceOk t { w with heap := (w.heap.deleteSelf x).1 } tgt' (.sweep (.next x (.start x))) := by
  obtain ⟨tgt', hinv', hlater, hdead, -⟩ := deleteSelf_later h hplace.1.1
  exact ⟨tgt', hinv', sweep_delete hplace.1 hlater hdead, fun y hy => by cases hy⟩

/-- An access of `next()`. -/
theorem placeOk_next (h : Inv w tgt) {x : Addr} {call : NextPtr}
    (hplace : PlaceOk t w tgt (.sweep (.next x call))) :
    Cleans (view w tgt) w.heap (call.step w.heap).1 ∧
      Inv { w with heap := (call.step w.heap).1 } tgt ∧
      PlaceOk t { w with heap := (call.step w.heap).1 } tgt
        (.after ((Sweep.next x call).step w.heap).2) := by
  obtain ⟨hsweep, hheld⟩ := hplace
  have hclean := nextPtr_cleans hsweep.2.1 hheld
  have hafter := sweep_next h.shared.heap hsweep
  rw [← view_eq hclean.isDeleted_eq] at hafter
  have hinv' := clean_inv h hclean
  refine ⟨hclean, hinv', placeOk_after hinv'.shared hafter fun c y hc hy => ?_⟩
  show (call.step w.heap).1.released y = false
  rw [hclean.fields.2.1]
  exact sweep_holds hc hy

/-- An action of the others. -/
theorem DropOk.other (h : DropOk t s) {a : QueueClone.Action T n} (ha : s.outside t a = true)
    (hw : QueueClone.step s.world a = some w') : DropOk t { s with world := w' } := by
  obtain ⟨tgt, hinv, hplace⟩ := h.inv
  obtain ⟨tgt', haside⟩ := outside_step hinv h.handled h.quiet ha hw
  refine ⟨⟨tgt', haside.inv, ?_⟩, haside.handled, fun u hu => haside.quiet u (h.quiet u hu)⟩
  -- The others delete entries and never attach one, so that an empty queue stays empty.
  have hnil : s.world.contents = [] → w'.contents = [] := by
    intro hC
    rw [contents_nil_iff hinv.shared] at hC
    rw [contents_nil_iff haside.inv.shared, haside.oldest]
    exact haside.later.tgt s.world.oldest none hC
  obtain ⟨w, place⟩ := s
  cases place with
  | check => exact trivial
  | iter =>
    show Iterating w' (w'.pc t)
    rw [haside.pc rfl]
    change Iterating w (w.pc t) at hplace
    generalize w.pc t = pc at hplace
    have hold : w'.oldest = w.oldest := haside.oldest
    cases pc with
    | cleanDeleted k x | cleanNext k x _ | cleanExchange k x _ =>
      exact ⟨hplace.1, hold.trans hplace.2⟩
    | cleanReset k => exact ⟨hplace.1, hold.trans hplace.2⟩
    | cleanLoad k => exact hplace
    | _ => cases hplace
  | sweep call =>
    obtain ⟨hsweep, hheld⟩ := hplace
    refine ⟨?_, fun x hx => haside.held x hx (hheld x hx)⟩
    rw [haside.oldest]
    exact hsweep.later haside.later
  | oldest => exact hnil hplace
  | newest => exact ⟨hnil hplace.1, haside.oldest.trans hplace.2⟩
  | finished =>
    exact ⟨hnil hplace.1, haside.oldest.trans hplace.2.1, haside.newest.trans hplace.2.2⟩

/-- The first access of the destructor. -/
theorem DropOk.check (h : DropOk t ⟨w, .check⟩)
    (hs : Dropping.proceed t ⟨w, .check⟩ = some s') : DropOk t s' := by
  obtain ⟨tgt, hinv, -⟩ := h.inv
  unfold Dropping.proceed at hs
  simp only at hs
  split at hs
  · rename_i hold
    cases hs
    refine ⟨⟨tgt, hinv, ?_⟩, h.handled, h.quiet⟩
    exact hinv.shared.contents_nil (by rw [hold]; rfl)
  · obtain ⟨w₁, hw, hs⟩ := Option.map_eq_some_iff.mp hs
    cases hs
    obtain ⟨tgt', hinv'⟩ := inv_step hinv hw
    have hh := h.handled.step hinv hw
    have hidle : w.pc t = .idle := by
      unfold World.step at hw
      simp only at hw
      split at hw
      · assumption
      · cases hw
    rw [step_invoke hidle] at hw
    cases hw
    refine ⟨⟨tgt', hinv', ?_⟩, hh, fun u hu => ?_⟩
    · show Iterating _ ((invoked w t .iter).pc t)
      rw [invoked_pc]
      rfl
    · have hut : u ≠ t := fun hc => by cases hu hc
      show (Function.update w.pc t _ u).op = none
      rw [Function.update_of_ne hut]
      exact h.quiet u fun _ => rfl

/-- An access of `iter()`. -/
theorem DropOk.iter (h : DropOk t ⟨w, .iter⟩) (hs : Dropping.proceed t ⟨w, .iter⟩ = some s') :
    DropOk t s' := by
  obtain ⟨tgt, hinv, hplace⟩ := h.inv
  obtain ⟨w₁, hw, hs⟩ := Option.map_eq_some_iff.mp hs
  obtain ⟨tgt', hinv'⟩ := proceed_inv hinv hw
  have hh := h.handled.proceed hinv hw
  obtain ⟨hpc, hgoes⟩ := iterated_step hplace hw
  have hothers : ∀ u, u ≠ t → (w₁.pc u).op = none := by
    intro u hu
    rw [hpc u hu]
    exact h.quiet u fun hut => absurd hut hu
  rcases hgoes with hi | ⟨hidle, hlast⟩
  · split at hs
    · rename_i hidle _
      exact absurd hidle hi.ne_idle
    · cases hs
      exact ⟨⟨tgt', hinv', hi⟩, hh, fun u hu => hothers u fun hut => by cases hu hut⟩
  · rw [hidle, hlast] at hs
    cases hs
    refine ⟨⟨tgt', hinv', placeOk_move hinv'.shared⟩, hh, fun u _ => ?_⟩
    by_cases hut : u = t
    · show (w₁.pc u).op = none
      rw [hut, hidle]
      rfl
    · exact hothers u hut

/-- A step of the destructor. -/
theorem DropOk.proceed (h : DropOk t s) (hs : s.proceed t = some s') : DropOk t s' := by
  obtain ⟨w, place⟩ := s
  obtain ⟨tgt, hinv, hplace⟩ := h.inv
  cases place with
  | check => exact h.check hs
  | iter => exact h.iter hs
  | sweep call =>
    cases call with
    | delete x =>
      cases hs
      obtain ⟨tgt', hinv', hplace'⟩ := placeOk_delete hinv hplace
      exact ⟨⟨tgt', hinv', hplace'⟩, h.handled.deleteSelf x, h.quiet⟩
    | next x call =>
      cases hs
      obtain ⟨hclean, hinv', hplace'⟩ := placeOk_next hinv hplace
      have hh := h.handled.cleans hclean
      rw [← sweep_heap x call] at hinv' hplace' hh
      exact ⟨⟨tgt, hinv', hplace'⟩, hh, fun u _ => h.quiet u fun _ => rfl⟩
  | oldest =>
    cases hs
    refine ⟨⟨tgt, dropOldest_inv hinv hplace, hplace, rfl⟩, ⟨h.handled.plain, h.handled.attached⟩,
      h.quiet⟩
  | newest =>
    cases hs
    refine ⟨⟨tgt, dropNewest_inv hinv, hplace.1, hplace.2, rfl⟩,
      ⟨h.handled.plain, h.handled.attached⟩, h.quiet⟩
  | finished => cases hs

end safety

section ends

/-- The destructor that runs alone comes to its end. -/
abbrev DropEnds (t : Fin n) (s : Dropping T n) : Prop :=
  Ends (Dropping.proceed t) Dropping.Releases (fun s => s.place = .finished) s

/-- The release of an entry that the destructor does not hold. -/
theorem drop_release (h : Inv s.world tgt) (hr : Dropping.Releases s s') :
    ∃ r, s' = ⟨withReleased s.world r, s.place⟩ ∧ Inv s'.world tgt ∧
      ∀ x, s.place.holds = some x → s.world.heap.released x = false → r x = false := by
  obtain ⟨w', place⟩ := s'
  obtain ⟨hplace, y, hy, hne⟩ := hr
  cases hplace
  unfold World.step at hy
  simp only at hy
  split at hy
  · rename_i hun
    cases hy
    refine ⟨_, rfl, release_inv h hun, fun x hx hrel => ?_⟩
    have hxy : x ≠ y := fun hc => hne (hc ▸ hx)
    rw [Function.update_of_ne hxy]
    exact hrel
  · cases hy

theorem drop_calm (h : Calm s.world) (hr : Dropping.Releases s s') : Calm s'.world := by
  obtain ⟨tgt, hinv⟩ := h.inv
  obtain ⟨r, rfl, hinv', -⟩ := drop_release hinv hr
  exact ⟨⟨tgt, hinv'⟩, h.handled.plain, h.handled.attached⟩

/-- The fields are dropped. -/
theorem fields_end (hs : s.place = .oldest) : DropEnds t s := by
  refine Ends.of_step (fun s => s.place = .oldest) (fun s s' hs hr => hr.1.trans hs)
    (fun s hs => ?_) hs
  refine ⟨_, by unfold Dropping.proceed; rw [hs], ?_⟩
  refine Ends.of_step (fun s => s.place = .newest) (fun s s' hs hr => hr.1.trans hs)
    (fun s hs => ?_) rfl
  exact ⟨_, by unfold Dropping.proceed; rw [hs], .done rfl⟩

/-- The loop. -/
theorem loop_ends {x : Addr} (h : Inv w tgt)
    (hplace : PlaceOk t w tgt (.sweep (.delete x))) : DropEnds t ⟨w, .sweep (.delete x)⟩ := by
  refine sweep_ends (fun s : Dropping T n => s.world.heap) w.attached
    (fun tgt s c => s.place = .sweep c ∧ Inv s.world tgt ∧ s.world.attached = w.attached ∧
      PlaceOk t s.world tgt (.sweep c))
    ?_ ?_ ?_ ?_ ?_ ⟨rfl, h, rfl, hplace⟩
  · rintro tgt s c ⟨-, hinv, hatt, -⟩
    rw [← hatt]
    exact hinv.shared.heap
  · rintro tgt s x call ⟨-, hinv, hatt, hsweep, hheld⟩
    rw [← hatt]
    exact holds_of_inv hinv hsweep.1 hheld
  · rintro tgt s s' c ⟨hplace, hinv, hatt, hsweep, hheld⟩ hr
    obtain ⟨r, rfl, hinv', hr⟩ := drop_release hinv hr
    exact ⟨⟨hplace, hinv', hatt, hsweep, fun x hx => hr x (hplace ▸ hx) (hheld x hx)⟩, rfl⟩
  · rintro tgt ⟨w₁, place⟩ x ⟨hplace, hinv, hatt, hok⟩
    cases hplace
    obtain ⟨tgt', hinv', hok'⟩ := placeOk_delete hinv hok
    exact ⟨_, tgt', rfl, rfl, hinv', hatt, hok'⟩
  · rintro tgt ⟨w₁, place⟩ x call ⟨hplace, hinv, hatt, hok⟩
    cases hplace
    obtain ⟨-, hinv', hok'⟩ := placeOk_next hinv hok
    rw [← sweep_heap x call] at hinv' hok'
    refine ⟨_, rfl, rfl, fun c hc => ?_, fun hout => fields_end ?_⟩
    · rw [hc] at hok'
      exact ⟨congrArg Place.after hc, hinv', hatt, hok'⟩
    · exact congrArg Place.after hout

/-- What comes after `iter()`. -/
theorem moved_ends (h : Inv w tgt) : DropEnds t ⟨w, .after (Sweep.move w.oldest)⟩ := by
  have hok : PlaceOk t w tgt _ := placeOk_move h.shared
  cases hold : w.oldest with
  | none => exact fields_end rfl
  | some x =>
    rw [hold] at hok
    exact loop_ends h hok

/-- `iter()`, and what comes after it. -/
theorem iter_ends (h : Calm w) (hi : Iterating w (w.pc t)) (he : EndsAlone t w) :
    DropEnds t ⟨w, .iter⟩ := by
  refine he.inside (fun s : Dropping T n => s.world)
    (fun s => s.place = .iter ∧ Calm s.world ∧ Iterating s.world (s.world.pc t)) ⟨rfl, h, hi⟩
    (fun s hat => hat.2.2.ne_idle) ?_ ?_
  · rintro s s₁ ⟨hplace, hcalm, hi⟩ hr
    have hcalm' := drop_calm hcalm hr
    obtain ⟨tgt, hinv⟩ := hcalm.inv
    obtain ⟨y, hy, -⟩ := hr.2
    obtain ⟨r, rfl, -, -⟩ := drop_release hinv hr
    exact ⟨⟨hplace, hcalm', hi⟩, .single ⟨y, hy⟩⟩
  · rintro ⟨w₁, place⟩ u ⟨hplace, hcalm, hi⟩ hu
    cases hplace
    have hcalm' := hcalm.next hu
    simp only [Dropping.proceed, hu, Option.map_some]
    refine ⟨_, rfl, ?_⟩
    obtain ⟨-, hi' | ⟨hidle, hlast⟩⟩ := iterated_step hi hu
    · split
      · rename_i hidle _
        exact absurd hidle hi'.ne_idle
      · exact .inl ⟨⟨rfl, hcalm', hi'⟩, rfl⟩
    · rw [hidle, hlast]
      obtain ⟨tgt, hinv⟩ := hcalm'.inv
      exact .inr fun _ => moved_ends hinv

end ends

section run

end run

end Sdd.Proofs.Queue
