import Sdd.Proofs.AtomicOwned.Guarded

/-!
# `Sdd.Proofs.AtomicOwned.Refines`: memory that is used again

`compare_exchange` compares addresses, and an address is used again when the instance at it has
been dropped. `abs` reads each address as the instance that is there, and `refines_ideal` is the
main result: a sheltered run is a run of the `Ideal` world, where no instance takes the place of
another one. So a `compare_exchange` succeeds only if the word still points to the very instance
that `current` was loaded from.

`Called.renamed` is the core of the proof: a call does the same whatever the instances are called,
as long as different pointers that are in use keep different names. The run is sheltered, so that
the pointers in use all point to instances (`Safe.allocated`), and to different ones
(`Safe.serial_inj`).

The condition on `update_tag_if` is needed: its signature asks for no guard, and without one the
argument of the condition can dangle (`update_unguarded`).
-/

set_option autoImplicit false

namespace Sdd.Proofs.AtomicOwned

open Sdd.Collector (CollectorId Garbage InstId Tid)
open Sdd.AtomicOwned Sdd.Lib Sdd.Proofs.Exit List

/-! ## Other names for the instances -/

section rename

variable {A B : Type} (f : A → B)

/-- A pointer with another name for what it points to. -/
def renamePtr (p : Ptr A) : Ptr B := ⟨p.addr.map f, p.tag⟩

/-- The pending update of another address type. -/
def renameUpdate (u : Update A) : Update B := ⟨u.cell, u.tag, renamePtr f u.prev, u.met⟩

/-- The cells, handles and `Ptr`s under other names. -/
def rename (c : Cells A) : Cells B where
  words := c.words.map (Option.map (renamePtr f))
  owned := c.owned.map fun h => (h.1, f h.2)
  ptrs t := (c.ptrs t).map f
  updates t := (c.updates t).map (renameUpdate f)
  answers := c.answers

/-- The same act under other names. -/
def renameAct : Act A → Act B
  | .process act => .process act
  | .new x => .new (f x)
  | .drop x => .drop (f x)
  | .dropAtomic cell => .dropAtomic cell
  | .null => .null
  | .from x => .from (f x)
  | .load cell => .load cell
  | .getGuardedPtr x => .getGuardedPtr (f x)
  | .swap cell new tag => .swap cell (new.map f) tag
  | .compareExchange cell current new tag spurious =>
    .compareExchange cell (renamePtr f current) (new.map f) tag spurious
  | .updateTagIf cell tag => .updateTagIf cell tag
  | .answer ok => .answer ok
  | .updateTag spurious => .updateTag spurious
  | .intoOwned cell => .intoOwned cell
  | .send x receiver => .send (f x) receiver

/-- The handles use the pointer. -/
def Uses (c : Cells A) (x : A) : Prop :=
  x ∈ held c ∨ (∃ t, x ∈ c.ptrs t) ∨ ∃ t, ∃ u ∈ c.updates t, x ∈ u.prev.addr

variable {f} {c c' : Cells A} {g : Bool} {t : Tid} {cell : CellId} {x : A}

/-- A word under another name is the word of the cell that was renamed. -/
theorem word_rename : (rename f c).word cell = (c.word cell).map (renamePtr f) := by
  unfold Cells.word rename
  rw [List.getElem?_map]
  cases c.words[cell]? <;> rfl

/-- A thread gets a handle, under either name. -/
theorem rename_give (o : Option A) : rename f (c.give t o) = (rename f c).give t (o.map f) := by
  cases o <;> rfl

/-- A word is stored, under either name. -/
theorem rename_setWord (p : Option (Ptr A)) :
    rename f (c.setWord cell p) = (rename f c).setWord cell (p.map (renamePtr f)) := by
  unfold rename Cells.setWord
  rw [List.map_set]

/-- The pending updates, under either name. -/
theorem rename_setUpdates (us : List (Update A)) :
    rename f (c.setUpdates t us) = (rename f c).setUpdates t (us.map (renameUpdate f)) := by
  unfold rename Cells.setUpdates
  congr 1
  funext r
  exact Function.apply_update (fun _ => List.map (renameUpdate f)) c.updates t us r

/-- A thread gets a `Ptr`, under either name. -/
theorem rename_point (o : Option A) : rename f (c.point t o) = (rename f c).point t (o.map f) := by
  cases o with
  | none => rfl
  | some y =>
    unfold rename Cells.point
    simp only [Option.map_some]
    congr 1
    funext r
    exact Function.apply_update (fun _ => List.map f) c.ptrs t (y :: c.ptrs t) r

/-- A condition is asked, under either name. -/
theorem rename_ask (u : Update A) (rest : List (Update A)) : rename f (c.ask g t u rest) =
    (rename f c).ask g t (renameUpdate f u) (rest.map (renameUpdate f)) := by
  unfold Cells.ask
  rw [rename_point, rename_setUpdates, List.map_cons]
  congr 1
  cases g <;> rfl

/-- The `Ptr`s of a thread without a guard are gone, under either name. -/
theorem rename_expire (alive : Tid → Bool) :
    rename f (c.expire alive) = (rename f c).expire alive := by
  unfold rename Cells.expire
  congr 1
  funext r
  exact apply_ite (List.map f) _ _ _

/-- The same threads are before their compare-and-exchange. -/
theorem updating_rename : (rename f c).updating t = c.updating t := by
  unfold Cells.updating
  show ((c.updates t).map (renameUpdate f)).head?.any (·.met) = _
  cases c.updates t <;> rfl

/-- The same acts belong to `update_tag_if`. -/
theorem updates_renameAct (act : Act A) : (renameAct f act).updates = act.updates := by
  cases act <;> rfl

/-- Two names that agree on what the handles use. -/
theorem rename_congr {f' : A → B} (h : ∀ x, Uses c x → f x = f' x) : rename f c = rename f' c := by
  have hptr : ∀ p : Ptr A, (∀ x ∈ p.addr, f x = f' x) → renamePtr f p = renamePtr f' p := by
    intro p hp
    unfold renamePtr
    cases hx : p.addr with
    | none => rfl
    | some x => rw [Option.map_some, Option.map_some, hp x hx]
  unfold rename
  congr 1
  · refine List.map_congr_left fun o ho => ?_
    cases o with
    | none => rfl
    | some p =>
      refine congrArg some (hptr p fun x hx => h x (.inl (List.mem_append_left _ ?_)))
      exact List.mem_flatMap.mpr ⟨some p, ho, by simp [pointee, Option.mem_def.mp hx]⟩
  · refine List.map_congr_left fun a ha => ?_
    rw [h a.2 (.inl (List.mem_append_right _ (List.mem_map_of_mem ha)))]
  · funext r
    exact List.map_congr_left fun x hx => h x (.inr (.inl ⟨r, hx⟩))
  · funext r
    refine List.map_congr_left fun u hu => ?_
    unfold renameUpdate
    rw [hptr u.prev fun x hx => h x (.inr (.inr ⟨r, u, hu, hx⟩))]

/-- A `Ptr` that a thread has, it has under the other name. -/
theorem mem_ptrs_rename {p : Ptr A} (h : ∀ x ∈ p.addr, x ∈ c.ptrs t) :
    ∀ y ∈ (renamePtr f p).addr, y ∈ (rename f c).ptrs t := by
  intro y hy
  obtain ⟨x, hx, rfl⟩ := Option.map_eq_some_iff.mp hy
  exact List.mem_map_of_mem (h x hx)

section injective

/-- A handle with another name is erased. -/
theorem map_erase [BEq A] [LawfulBEq A] [BEq B] [LawfulBEq B] {l : List A} {x : A}
    (h : ∀ y ∈ l, f y = f x → y = x) : (l.erase x).map f = (l.map f).erase (f x) := by
  induction l with
  | nil => rfl
  | cons y l ih =>
    have hl : ∀ z ∈ l, f z = f x → z = x := fun z hz => h z (List.mem_cons_of_mem y hz)
    by_cases hy : y = x
    · subst hy
      rw [List.erase_cons_head, List.map_cons, List.erase_cons_head]
    · have hne : f y ≠ f x := fun hf => hy (h y List.mem_cons_self hf)
      rw [List.erase_cons_tail (by simpa using hy), List.map_cons, List.map_cons,
        List.erase_cons_tail (by simpa using hne), ih hl]

/-- Pointers with different words keep them. -/
theorem renamePtr_inj (hf : ∀ x y, Uses c x → Uses c y → f x = f y → x = y) {p q : Ptr A}
    (hp : ∀ x ∈ p.addr, Uses c x) (hq : ∀ x ∈ q.addr, Uses c x) :
    renamePtr f p = renamePtr f q → p = q := by
  obtain ⟨a, tag⟩ := p
  obtain ⟨b, tag'⟩ := q
  intro h
  simp only [renamePtr, Ptr.mk.injEq] at h
  obtain ⟨hab, rfl⟩ := h
  cases a with
  | none =>
    cases b with
    | none => rfl
    | some y => cases hab
  | some x =>
    cases b with
    | none => cases hab
    | some y => rw [hf x y (hp x rfl) (hq y rfl) (Option.some.inj hab)]

variable [DecidableEq A] [DecidableEq B]

/-- A handle that a thread has, it has under the other name. -/
theorem owns_rename (hx : c.owns t x = true) : (rename f c).owns t (f x) = true :=
  decide_eq_true (List.mem_map.mpr ⟨(t, x), of_decide_eq_true hx, rfl⟩)

/-- The same of the handle that a call may take. -/
theorem all_owns_rename {new : Option A} (h : ∀ x ∈ new, c.owns t x = true) :
    ∀ y ∈ new.map f, (rename f c).owns t y = true := by
  intro y hy
  obtain ⟨x, hx, rfl⟩ := Option.map_eq_some_iff.mp hy
  exact owns_rename (h x hx)

variable (hf : ∀ x y, Uses c x → Uses c y → f x = f y → x = y)

include hf

/-- A handle that a thread has and gives up, under either name. -/
theorem rename_forget {o : Option A} (ho : ∀ x ∈ o, c.owns t x = true) :
    rename f (c.forget t o) = (rename f c).forget t (o.map f) := by
  cases o with
  | none => rfl
  | some x =>
    unfold rename Cells.forget
    simp only [Option.map_some]
    congr 1
    refine map_erase fun h hh heq => ?_
    obtain ⟨r, y⟩ := h
    simp only [Prod.mk.injEq] at heq
    have hyx : y = x := hf y x (.inl (mem_held_of_owns (t := r) (decide_eq_true hh)))
      (.inl (mem_held_of_owns (ho x rfl))) heq.2
    rw [heq.1, hyx]

/-- A word is exchanged for a handle that the thread has, under either name. -/
theorem rename_exchange {p : Ptr A} {new : Option A} {tag : Tag}
    (hnew : ∀ x ∈ new, c.owns t x = true) : rename f (c.exchange t cell p new tag) =
      (rename f c).exchange t cell (renamePtr f p) (new.map f) tag := by
  unfold Cells.exchange
  rw [rename_give, rename_setWord, rename_forget hf hnew]
  rfl

/-- A call has the same effect when everything has other names. -/
theorem Called.renamed {act : Act A} (h : Called c g t act c') :
    Called (rename f c) g t (renameAct f act) (rename f c') := by
  have hword : ∀ {cell : CellId} {p : Ptr A}, c.word cell = some p →
      (rename f c).word cell = some (renamePtr f p) := fun hp => by
    rw [word_rename, hp, Option.map_some]
  have hupd : ∀ {u : Update A} {rest : List (Update A)}, c.updates t = u :: rest →
      (rename f c).updates t = renameUpdate f u :: rest.map (renameUpdate f) :=
    fun hu => congrArg (List.map (renameUpdate f)) hu
  have hused : ∀ {cell : CellId} {p : Ptr A}, c.word cell = some p → ∀ x ∈ p.addr, Uses c x :=
    fun hp x hx => .inl (mem_held_of_word hp hx)
  have hlog : ∀ (d : Cells A) (ok : Bool), rename f (d.log t ok) = (rename f d).log t ok :=
    fun _ _ => rfl
  -- By cases of the call: each gives the renamed call its renamed arguments.
  cases h with
  | null =>
    have hnew : rename f { c with words := c.words ++ [some .null] } =
        { rename f c with words := (rename f c).words ++ [some .null] } := by
      unfold rename
      rw [List.map_append]
      rfl
    rw [hnew]
    exact .null
  | «from» x hx =>
    have hforget := rename_forget hf (t := t) (o := some x) fun y hy => by
      cases hy
      exact hx
    have hnew : rename f { c.forget t (some x) with words := c.words ++ [some ⟨some x, .none⟩] } =
        { (rename f c).forget t (some (f x)) with
          words := (rename f c).words ++ [some ⟨some (f x), .none⟩] } := by
      have hforget' : (rename f c).forget t (some (f x)) = rename f (c.forget t (some x)) :=
        hforget.symm
      rw [hforget']
      unfold rename
      rw [List.map_append]
      rfl
    rw [hnew]
    exact .from (f x) (owns_rename hx)
  | load cell p hg hp =>
    rw [rename_point]
    exact .load cell (renamePtr f p) hg (hword hp)
  | getGuardedPtr x hg hx =>
    rw [rename_point]
    exact .getGuardedPtr (f x) hg (owns_rename hx)
  | swap cell new tag p hnew hp =>
    rw [rename_exchange hf hnew]
    exact .swap cell (new.map f) tag (renamePtr f p) (all_owns_rename hnew) (hword hp)
  | exchange cell new tag p hg hnew hcur hp =>
    rw [hlog, rename_point, rename_exchange hf hnew]
    exact .exchange cell (new.map f) tag (renamePtr f p) hg (all_owns_rename hnew)
      (mem_ptrs_rename hcur) (hword hp)
  | exchangeFail cell current new tag spurious p hg hnew hcur hp hne =>
    rw [hlog, rename_point]
    refine .exchangeFail cell (renamePtr f current) (new.map f) tag spurious (renamePtr f p) hg
      (all_owns_rename hnew) (mem_ptrs_rename hcur) (hword hp) fun ⟨heq, hs⟩ => hne ⟨?_, hs⟩
    -- The renaming is injective on the addresses that are used, so the words differ as before.
    exact renamePtr_inj hf (hused hp) (fun x hx => .inr (.inl ⟨t, hcur x hx⟩)) heq
  | updateTagIf cell tag p hp =>
    rw [rename_ask]
    exact .updateTagIf cell tag (renamePtr f p) (hword hp)
  | met u rest hu =>
    rw [rename_setUpdates]
    exact .met (renameUpdate f u) (rest.map (renameUpdate f)) (hupd hu)
  | unmet u rest hu =>
    rw [hlog, rename_setUpdates]
    exact .unmet (renameUpdate f u) (rest.map (renameUpdate f)) (hupd hu)
  | update u rest hu hp =>
    rw [hlog, rename_setUpdates, rename_setWord]
    exact .update (renameUpdate f u) (rest.map (renameUpdate f)) (hupd hu) (hword hp)
  | updateFail u rest spurious p hu hp hne =>
    rw [rename_ask]
    refine .updateFail (renameUpdate f u) (rest.map (renameUpdate f)) spurious (renamePtr f p)
      (hupd hu) (hword hp) fun ⟨heq, hs⟩ => hne ⟨?_, hs⟩
    refine renamePtr_inj hf (hused hp) (fun x hx => .inr (.inr ⟨t, u, ?_, hx⟩)) heq
    rw [hu]
    exact List.mem_cons_self
  | intoOwned cell p hp =>
    rw [rename_give, rename_setWord]
    exact .intoOwned cell (renamePtr f p) (hword hp)
  | send x receiver hx =>
    rw [rename_give, rename_forget hf fun y hy => by cases hy; exact hx]
    exact .send (f x) receiver (owns_rename hx)

end injective

end rename

/-! ## The worlds -/

section worlds

variable {w w' : World}

/-- The instance at an address. -/
def serial (w : World) (x : Address) : Serial := (w.memory x).getD 0

/-- The world with the instances in place of the addresses. -/
def abs (w : World) : Ideal := ⟨w.process, rename (serial w) w.cells, w.nextSerial⟩

/-- The same act, on instances. -/
def absAct (w : World) : Act Address → Act Serial
  | .new _ => .new w.nextSerial
  | act => renameAct (serial w) act

/-- The two worlds take the same action. -/
def both (x : World × Ideal) (a : Action Address) : Option (World × Ideal) :=
  (x.1.step a).bind fun w' => (x.2.step ⟨a.tid, absAct x.1 a.act⟩).map fun v => (w', v)

/-- No pointer that is in use dangles. -/
theorem Safe.allocated (h : Safe w) {x : Address} (hx : Uses w.cells x) : (w.memory x).isSome := by
  rcases hx with hx | ⟨t, hx⟩ | ⟨t, u, hu, hx⟩
  · exact (h.inv.owned x).mp (List.mem_append_left _ hx)
  · exact (h.ptrs t x hx).2.1
  · exact (h.ptrs t x (h.updates t u hu x hx)).2.1

/-- Pointers that are in use point to different instances. -/
theorem Safe.serial_inj (h : Safe w) (x y : Address) (hx : Uses w.cells x) (hy : Uses w.cells y)
    (hxy : serial w x = serial w y) : x = y := by
  obtain ⟨s, hs⟩ := Option.isSome_iff_exists.mp (h.allocated hx)
  obtain ⟨s', hs'⟩ := Option.isSome_iff_exists.mp (h.allocated hy)
  unfold serial at hxy
  rw [hs, hs', Option.getD_some, Option.getD_some] at hxy
  subst hxy
  exact h.inv.inj x y s hs hs'

/-- An instance is retired on both sides. -/
theorem abs_retire {c : Cells Address} {t : Tid} {x : Address}
    (hs : World.retire { w with cells := c } t x = some w') :
    Ideal.retire { abs w with cells := rename (serial w) c } t = some (abs w') := by
  obtain ⟨p, hp, rfl⟩ := Option.map_eq_some_iff.mp hs
  exact Option.map_eq_some_iff.mpr ⟨p, hp, rfl⟩

/-- An act that both worlds can take. -/
theorem step_of_act {v v' : Ideal} {a : Action Serial} (hu : v.cells.updating a.tid = a.act.updates)
    (h : v.act a.tid a.act = some v') : v.step a = some v' := by
  unfold Ideal.step
  rw [if_pos hu, h]

/-- A call in the ideal world. -/
theorem act_of_called {v : Ideal} {t : Tid} {act : Act Serial} {c : Cells Serial}
    (hu : user v.process t = true)
    (h : Called v.cells (v.process.base.guardAlive t) t act c) :
    v.act t act = some { v with cells := c } := by
  have hcall := h.call_eq
  cases h <;> exact (if_pos hu).trans (by rw [hcall]; rfl)

/-- Every action of a sheltered run is one of the ideal world. -/
theorem abs_step (h : Safe w) {a : Action Address} (ha : sheltered w a = true)
    (hs : w.step a = some w') :
    (abs w).step ⟨a.tid, absAct w a.act⟩ = some (abs w') := by
  have hsafe' := h.step ha hs
  have hupdating : (abs w).cells.updating a.tid = (absAct w a.act).updates := by
    have hu := (Option.ite_none_right_eq_some.mp hs).1
    show (rename (serial w) w.cells).updating a.tid = _
    rw [updating_rename, hu]
    cases a.act <;> rfl
  -- Where the instance is addressed the ideal program has its serial number.
  refine step_of_act hupdating ?_
  obtain ⟨t, act⟩ := a
  have hstep : Stepped w t act w' := stepped_of_step hs
  cases hstep with
  | process act p hp =>
    refine Option.map_eq_some_iff.mpr ⟨p, hp, ?_⟩
    -- An address that is still used is not among those that the step frees.
    have hcells : rename (serial w) (w.cells.expire p.base.guardAlive) =
        rename (serial (w.proceed p)) (w.cells.expire p.base.guardAlive) := by
      refine rename_congr fun x hx => ?_
      have hmem : (w.proceed p).memory x =
          if x ∈ (w.dropping p).filterMap w.retired then none else w.memory x := rfl
      have hsome := hsafe'.allocated (x := x) hx
      unfold serial
      rw [hmem] at hsome ⊢
      split at hsome
      · cases hsome
      · rename_i hnot
        rw [if_neg hnot]
    show Ideal.mk p ((rename (serial w) w.cells).expire p.base.guardAlive) w.nextSerial = _
    rw [← rename_expire, hcells]
    rfl
  | new x hu hx =>
    -- The new address was free, so no renamed word or handle is at it.
    have hcells : rename (serial w) w.cells = rename (fun y =>
        (Function.update w.memory x (some w.nextSerial) y).getD 0) w.cells := by
      refine rename_congr fun y hy => ?_
      have hyx : y ≠ x := by
        rintro rfl
        have hsome := h.allocated hy
        rw [hx] at hsome
        cases hsome
      unfold serial
      rw [Function.update_of_ne hyx]
    have hok : (user (abs w).process t && w.nextSerial == (abs w).nextSerial) = true := by
      rw [Bool.and_eq_true]
      exact ⟨hu, beq_self_eq_true w.nextSerial⟩
    show (abs w).act t (.new w.nextSerial) = _
    simp only [Ideal.act, hok, if_true]
    refine congrArg some ?_
    unfold abs
    simp only [Ideal.mk.injEq, true_and, and_true]
    rw [hcells]
    show _ = rename _ (w.cells.give t (some x))
    rw [rename_give]
    unfold serial
    simp only [Option.map_some, Function.update_self, Option.getD_some]
  | drop x w' hu hx hret =>
    have hok : (user (abs w).process t && (abs w).cells.owns t (serial w x)) = true := by
      rw [Bool.and_eq_true]
      exact ⟨hu, owns_rename hx⟩
    have hforget := rename_forget h.serial_inj (t := t) (o := some x) fun y hy => by
      cases hy
      exact hx
    refine (if_pos hok).trans ?_
    have hv : { abs w with cells := (abs w).cells.forget t (some (serial w x)) } =
        { abs w with cells := rename (serial w) (w.cells.forget t (some x)) } := by
      rw [hforget]
      rfl
    rw [hv]
    exact abs_retire hret
  | dropNull cell p hu hp hn =>
    have hword : (abs w).cells.word cell = some (renamePtr (serial w) p) := by
      show (rename (serial w) w.cells).word cell = _
      rw [word_rename, hp, Option.map_some]
    have hnull : (renamePtr (serial w) p).addr = none := by
      show p.addr.map (serial w) = none
      rw [hn, Option.map_none]
    show (abs w).act t (.dropAtomic cell) = _
    simp only [Ideal.act, if_pos (show user (abs w).process t = true from hu), hword,
      Option.bind_some, hnull]
    refine congrArg some ?_
    show { abs w with cells := (rename (serial w) w.cells).setWord cell none } = _
    rw [show (none : Option (Ptr Serial)) = (none : Option (Ptr Address)).map (renamePtr (serial w))
      from rfl, ← rename_setWord]
    rfl
  | dropAtomic cell p x w' hu hp hx hret =>
    have hword : (abs w).cells.word cell = some (renamePtr (serial w) p) := by
      show (rename (serial w) w.cells).word cell = _
      rw [word_rename, hp, Option.map_some]
    have hsome : (renamePtr (serial w) p).addr = some (serial w x) := by
      show p.addr.map (serial w) = _
      rw [hx, Option.map_some]
    show (abs w).act t (.dropAtomic cell) = _
    simp only [Ideal.act, if_pos (show user (abs w).process t = true from hu), hword,
      Option.bind_some, hsome]
    have hv : { abs w with cells := (abs w).cells.setWord cell none } =
        { abs w with cells := rename (serial w) (w.cells.setWord cell none) } := by
      rw [rename_setWord]
      rfl
    rw [hv]
    exact abs_retire hret
  | call act c hu hc =>
    have habs : absAct w act = renameAct (serial w) act := by
      cases hc <;> rfl
    show (abs w).act t (absAct w act) = _
    rw [habs]
    exact act_of_called hu (hc.renamed h.serial_inj)

/-- Memory that is used again does not show. In every sheltered run:

* the ideal world, where no instance takes the place of another one, can take the same actions, and
  comes to the same state, if the addresses are read as the instances at them. The answers of
  `compare_exchange` and `update_tag_if` are part of the state;
* no pointer that is in use dangles: the words, the `Owned` handles, the `Ptr`s, and the words that
  the calls of `update_tag_if` have loaded. -/
theorem refines_ideal (h : ShelteredRun .init w) :
    Run both (fun _ _ => True) (.init, .init) (w, abs w) ∧
      ∀ x, Uses w.cells x → (w.memory x).isSome := by
  refine ⟨?_, fun x hx => (safe_of_run h).allocated hx⟩
  induction h with
  | refl => exact .refl
  | tail a hrun ha hs ih =>
    refine ih.tail a trivial ?_
    unfold both
    rw [hs, Option.bind_some, abs_step (safe_of_run hrun) ha hs, Option.map_some]

/-- While a guard of the thread 0 is alive, an instance that it has loaded is replaced and dropped.
Its compare-and-exchange fails. Then the guard ends, and the address is used again. -/
theorem refines_ideal_reused : ∃ w, w.memory 7 = some 2 ∧ w.cells.answers = [(0, false)] ∧
    Run both (fun _ _ => True) (.init, .init) (w, abs w) := by
  have h : (exec World.step sheltered .init (register 0 ++ register 1 ++
      [⟨0, .new 7⟩, ⟨0, .from 7⟩] ++ guard 0 0 ++ [⟨0, .load 0⟩] ++ guard 1 0 ++
      [⟨1, .new 8⟩, ⟨1, .swap 0 (some 8) .first⟩, ⟨1, .drop 7⟩] ++ scan 1 8 ++ guard 1 1 ++
      [⟨0, .compareExchange 0 ⟨some 7, .none⟩ none .none false⟩] ++ scan 0 6 ++ scan 1 8 ++
      guard 1 1 ++ scan 1 8 ++ guard 1 3 ++ [⟨1, .new 7⟩])).any fun w =>
        w.memory 7 == some 2 && w.cells.answers == [(0, false)] := by
    decide
  obtain ⟨w, hrun, h⟩ := Run.of_exec_any h
  simp only [Bool.and_eq_true, beq_iff_eq] at h
  exact ⟨w, h.1, h.2, (refines_ideal hrun).1⟩

/-- Without a guard the word that `update_tag_if` has loaded is not protected. The thread 0 calls it
without one. The instance is replaced, dropped and freed, so that the argument of the condition
dangles. Then another instance is at the address, and its tag is updated. -/
theorem update_unguarded : ∃ w w', Run World.step (fun _ _ => True) .init w ∧
    (w.cells.updates 0).map (·.prev.addr) = [some 7] ∧ w.memory 7 = none ∧
    Run World.step (fun _ _ => True) w w' ∧ w'.memory 7 = some 1 ∧
    w'.cells.word 0 = some ⟨some 7, .first⟩ ∧ w'.cells.answers = [(0, true)] := by
  have h : (exec World.step (fun _ _ => true) .init (register 0 ++ register 1 ++ [⟨0, .new 7⟩,
      ⟨0, .from 7⟩, ⟨0, .updateTagIf 0 .first⟩] ++ guard 1 0 ++ [⟨1, .swap 0 none .none⟩,
      ⟨1, .drop 7⟩] ++ scan 1 8 ++ guard 1 1 ++ scan 1 8 ++ guard 1 1 ++ scan 1 8 ++
      guard 1 3)).any (fun w => (w.cells.updates 0).map (·.prev.addr) == [some 7] &&
        w.memory 7 == none && (exec World.step (fun _ _ => true) w [⟨1, .new 7⟩,
          ⟨1, .swap 0 (some 7) .none⟩, ⟨0, .answer true⟩, ⟨0, .updateTag false⟩]).any fun w' =>
            w'.memory 7 == some 1 && w'.cells.word 0 == some ⟨some 7, .first⟩ &&
              w'.cells.answers == [(0, true)]) = true := by
    decide
  obtain ⟨w, hrun, h⟩ := Run.of_exec_any h
  simp only [Bool.and_eq_true, beq_iff_eq] at h
  obtain ⟨⟨hprev, hfree⟩, h⟩ := h
  obtain ⟨w', hrun', h⟩ := Run.of_exec_any h
  simp only [Bool.and_eq_true, beq_iff_eq] at h
  exact ⟨w, w', hrun.mono fun _ _ _ => trivial, hprev, hfree, hrun'.mono fun _ _ _ => trivial,
    h.1.1, h.1.2, h.2⟩

end worlds

end Sdd.Proofs.AtomicOwned
