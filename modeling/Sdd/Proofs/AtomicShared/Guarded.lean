import Sdd.Proofs.AtomicShared.Life
import Sdd.Proofs.Exit.Guarded

/-!
# `Sdd.Proofs.AtomicShared.Guarded`: no use after free

`touched` is the instance whose counter or link the next access of a call reads or writes. Most
calls have a handle to it, or it is still to be retired. `try_add_ref` has neither: it touches an
instance that a thread has found under its guard. `Kept` says that the guard keeps it, from the
moment when it was found with a handle (`Inv.kept`), through its retirement
(`protected_of_collect`), until the guard ends (`Protected.step`).

`no_use_after_free` is the main fact. It is about the runs in which the collector is safe, as
`guarded_not_dropped` shows: they are orderly. The threads may suspend, and they may exit.

`update_tag_if` is called under a guard in these runs. Its signature asks for none, and without one
the `Ptr` that its condition gets can dangle (`condition_dangles`).
-/

set_option autoImplicit false

namespace Sdd.Proofs.AtomicShared

open Sdd.AtomicOwned (Update)
open Sdd.AtomicShared Sdd.Lib Sdd.Proofs.Exit
open Sdd.RefCounted (Tid CellId InstId Pc)
open Sdd.Proofs.RefCounted (Few passing Has PcOk)

variable {bits : Nat} {w w' : World} {t r : Tid} {i : InstId}

/-- The place is the last access of `pass_to_collector`. -/
def atLink : Pc → Bool
  | .link _ => true
  | _ => false

/-- What is asked of the runs. They are orderly, and a destructor that runs while its thread exits
passes nothing to the collector. `update_tag_if` is called by a thread with a guard, which does not
end before it returns. -/
def steady (w : World) (a : Action) : Bool :=
  match a.act with
  | .process act =>
    orderly w.process ⟨a.tid, act⟩ && ((w.updates a.tid).isEmpty ||
      (w.process.step ⟨a.tid, act⟩).all fun p => p.base.guardAlive a.tid)
  | .updateTagIf _ _ => w.guarded a.tid
  | .counted _ => !atLink (w.counted.pc a.tid) || (w.process.stage a.tid).temp.isNone
  | _ => true

/-- A run that is steady, in which there are never too many handles. -/
abbrev SteadyRun (bits : Nat) : World → World → Prop :=
  Run (World.step bits) fun w a => Few bits w.counted ∧ steady w a = true

/-- A step of the collector in a steady run. -/
theorem steady_process {act : Process.Act} {p : Process}
    (h : steady w ⟨t, .process act⟩ = true) (hs : w.process.step ⟨t, act⟩ = some p) :
    orderly w.process ⟨t, act⟩ = true ∧ (w.updates t ≠ [] → p.base.guardAlive t = true) := by
  unfold steady at h
  simp only [Bool.and_eq_true, Bool.or_eq_true, List.isEmpty_iff, hs, Option.all_some] at h
  exact ⟨h.1, fun hne => h.2.resolve_left hne⟩

/-! ## What a guard keeps -/

/-- The instance is there until the guard of the thread `r` ends. -/
def Kept (w : World) (r : Tid) (i : InstId) : Prop :=
  w.guarded r = true ∧ ∀ k, w.retired k = some i → Protected r k w.process

theorem Kept.not_freed (h : Kept w r i) : i ∉ freed w := by
  intro hi
  obtain ⟨k, hk, hret⟩ := List.mem_filterMap.mp hi
  exact (h.2 k hret).not_dropped hk

/-- An instance that was retired was passed to the collector. -/
theorem Inv.mem_passed (h : Inv w) {k : Collector.InstId} (hret : w.retired k = some i) :
    i ∈ w.counted.passed := by
  refine h.passed.mem_iff.mp (List.mem_filterMap.mpr ⟨k, List.mem_range.mpr ?_, hret⟩)
  by_contra hlt
  rw [h.retired k (Nat.not_lt.mp hlt)] at hret
  cases hret

/-- An instance with a handle is kept by every guard. -/
theorem Inv.kept (h : Inv w) (hr : w.guarded r = true) (hpos : 0 < w.counted.holders i) :
    Kept w r i := by
  refine ⟨hr, fun k hret => ?_⟩
  have hzero := (h.counted.of_passed (h.mem_passed hret)).1
  omega

/-- A step of the collector keeps what a guard protects. -/
theorem Kept.proceed (h : Kept w r i) {a : Process.Action} {p : Process}
    (ha : orderly w.process a = true) (hs : w.process.step a = some p)
    (hr : p.base.guardAlive r = true) : Kept (w.proceed p) r i :=
  ⟨hr, fun k hret => (h.2 k hret).step ha hs h.1 hr⟩

/-- The retirement of an instance keeps what a guard protects. -/
theorem Kept.retire (h : Kept w r i) (horderly : OrderlyRun .init w.process)
    {j : InstId} {c : RefCounted.World} {p : Process}
    (ha : orderly w.process ⟨t, .base .collect⟩ = true)
    (hs : w.process.step ⟨t, .base .collect⟩ = some p) :
    Kept { w with
      process := p
      counted := c
      retired := Function.update w.retired w.process.base.nextInst (some j) } r i := by
  obtain ⟨-, -, hguard⟩ := process_collect hs
  have hr : p.base.guardAlive r = true := (hguard r).trans h.1
  refine ⟨hr, fun k hret => ?_⟩
  change Function.update w.retired w.process.base.nextInst (some j) k = some i at hret
  by_cases hk : k = w.process.base.nextInst
  · subst hk
    exact protected_of_collect horderly h.1 hs ha
  · rw [Function.update_of_ne hk] at hret
    exact (h.2 k hret).step ha hs h.1 hr

/-- What a thread has found under its guard is kept by it. -/
structure Safe (w : World) : Prop where
  inv : Inv w
  orderly : OrderlyRun .init w.process
  ptrs : ∀ r, ∀ i ∈ w.ptrs r, Kept w r i
  tried : ∀ r, ∀ i ∈ tried (w.counted.pc r), Kept w r i
  guarded : ∀ r, trying (w.counted.pc r) = true → w.guarded r = true
  updates : ∀ r, ∀ u ∈ w.updates r, ∀ i ∈ u.prev.addr, Kept w r i
  asking : ∀ r, w.updates r ≠ [] → w.guarded r = true

/-- What a `Ptr` of the thread points to is kept. -/
theorem Safe.found (h : Safe w) (hi : w.found t i = true) : Kept w t i := by
  rcases Bool.or_eq_true_iff.mp hi with hi | hi
  · exact h.ptrs t i (of_decide_eq_true hi)
  · obtain ⟨u, hu, hprev⟩ := List.any_eq_true.mp hi
    exact h.updates t u hu i (eq_of_beq hprev)

theorem mem_point {o : Option InstId} :
    i ∈ (w.point t o).ptrs r ↔ i ∈ w.ptrs r ∨ r = t ∧ i ∈ o := by
  cases o with
  | none => simp [World.point]
  | some j =>
    show i ∈ Function.update w.ptrs t (j :: w.ptrs t) r ↔ _
    by_cases hr : r = t
    · subst hr
      rw [Function.update_self, List.mem_cons, Option.mem_some_iff]
      simp only [true_and, eq_comm, or_comm]
    · rw [Function.update_of_ne hr]
      simp only [hr, false_and, or_false]

/-- A thread takes no step of the collector in the middle of `get_shared`. -/
theorem not_trying {act : Process.Act} (h : w.idle t = true ∨ w.allocates t act = true) :
    trying (w.counted.pc t) = false := by
  unfold World.idle World.allocates at h
  cases hpc : w.counted.pc t with
  | getShared _ | tryAddRefLoad _ _ | tryAddRef _ _ _ =>
    rw [hpc] at h
    rcases h with h | h
    · cases h
    · split at h <;> cases h
  | _ => rfl

theorem trying_of_tried {q : Pc} (h : i ∈ AtomicShared.tried q) : trying q = true := by
  cases q with
  | tryAddRefLoad _ _ | tryAddRef _ _ _ => rfl
  | _ => cases h

/-- A step of the collector keeps what the threads have found. -/
theorem Safe.proceed (h : Safe w) {act : Process.Act} {p : Process}
    (ha : steady w ⟨t, .process act⟩ = true) (hs : w.process.step ⟨t, act⟩ = some p)
    (hok : w.idle t = true ∨ w.allocates t act = true) : Safe (w.proceed p) := by
  obtain ⟨ha, hown⟩ := steady_process ha hs
  obtain ⟨g, hg⟩ := Exit.inv_of_run h.orderly
  -- A step of t leaves the guards of the other threads alone, and t itself is not inside
  -- Ptr::get_shared.
  have hguard : ∀ r, trying (w.counted.pc r) = true → p.base.guardAlive r = true := by
    intro r hr
    have hne : r ≠ t := by
      rintro rfl
      rw [not_trying hok] at hr
      cases hr
    exact ((Exit.move_of_step hs).guardAlive_of_ne hg hne).trans (h.guarded r hr)
  -- A thread that drops its last guard has no condition under way: that is what steady asks for.
  have hasking : ∀ r, w.updates r ≠ [] → p.base.guardAlive r = true := by
    intro r hr
    by_cases hrt : r = t
    · subst hrt
      exact hown hr
    · exact ((Exit.move_of_step hs).guardAlive_of_ne hg hrt).trans (h.asking r hr)
  refine ⟨h.inv.proceed hs, h.orderly.tail _ ha hs, fun r i hi => ?_, fun r i hi => ?_, hguard,
    fun r u hu i hi => ?_, hasking⟩
  · change i ∈ (if p.base.guardAlive r then w.ptrs r else []) at hi
    split at hi
    · exact (h.ptrs r i hi).proceed ha hs (by assumption)
    · cases hi
  · exact (h.tried r i hi).proceed ha hs (hguard r (trying_of_tried hi))
  · exact (h.updates r u hu i hi).proceed ha hs (hasking r (List.ne_nil_of_mem hu))

/-- What a call finds, or goes on with, is kept, if it is when the call begins. -/
theorem Safe.moved (h : Safe w) {act : RefCounted.Act} {c : RefCounted.World}
    (hm : Moved w.counted t act c) (hbegins : begins act = true → w.guarded t = true)
    (hptr : ∀ i, act = .ptrGetShared i → Kept w t i) (r : Tid) :
    (∀ i ∈ AtomicShared.tried (c.pc r), Kept w r i) ∧
      (trying (c.pc r) = true → w.guarded r = true) := by
  by_cases hr : r = t
  · subst hr
    constructor
    · intro i hi
      rcases hm.tried i hi with hi | hact | ⟨htrying, cell, p, hp, haddr⟩
      · exact h.tried r i hi
      · exact hptr i hact
      · exact h.inv.kept (h.guarded r htrying) (RefCounted.holders_pos_of_word hp haddr)
    · intro htrying
      exact (hm.trying htrying).elim (h.guarded r) hbegins
  · rw [hm.others r hr]
    exact ⟨h.tried r, h.guarded r⟩

/-- A call that begins has a guard, and `Ptr::get_shared` has a `Ptr` that is kept. -/
theorem Safe.permitted (h : Safe w) {act : RefCounted.Act} (hok : w.permits t act = true) :
    (begins act = true → w.guarded t = true) ∧ ∀ i, act = .ptrGetShared i → Kept w t i := by
  constructor
  · intro hbegins
    cases act with
    | getShared cell => exact hok
    | ptrGetShared i => exact (h.found hok).1
    | _ => cases hbegins
  · rintro i rfl
    exact h.found hok

/-- The `Ptr` that `compare_exchange` returns points to an instance with a handle. -/
theorem Inv.kept_returned (h : Inv w) {act : RefCounted.Act} {c : RefCounted.World}
    (hok : w.permits t act = true) (hc : w.counted.step bits ⟨t, act⟩ = some c) :
    ∀ i ∈ returned w.counted act, Kept w t i := by
  intro i hi
  cases act with
  | compareExchange cell current new tag spurious =>
    have hg : w.guarded t = true := (Bool.and_eq_true_iff.mp hok).1
    obtain ⟨p, hp, hi⟩ := Option.bind_eq_some_iff.mp hi
    -- The pointer that comes back is the one that was handed in, or what the word holds now.
    split at hi
    · have hnew : new.all (w.counted.ownsShared t) = true := by
        unfold RefCounted.World.step at hc
        cases hpc : w.counted.pc t with
        | idle =>
          simp only [hpc] at hc
          exact (Option.ite_none_right_eq_some.mp hc).1
        | _ =>
          simp only [hpc] at hc
          cases hc
      cases hi
      exact h.kept hg (RefCounted.holders_pos (RefCounted.has_of_owns hnew).1)
    · exact h.kept hg (RefCounted.holders_pos_of_word hp hi)
  | _ => cases hi

/-- The calls of `update_tag_if` of a thread change, under its guard. -/
theorem Safe.setUpdates (h : Safe w) {us : List (Update InstId)}
    (hg : us ≠ [] → w.guarded t = true) (hus : ∀ u ∈ us, ∀ i ∈ u.prev.addr, Kept w t i) :
    Safe (w.setUpdates t us) where
  inv := ⟨h.inv.process, h.inv.counted, h.inv.retired, h.inv.passed, h.inv.relinks⟩
  orderly := h.orderly
  ptrs := h.ptrs
  tried := h.tried
  guarded := h.guarded
  updates r u hu i hi := by
    change u ∈ Function.update w.updates t us r at hu
    by_cases hr : r = t
    · subst hr
      rw [Function.update_self] at hu
      exact hus u hu i hi
    · rw [Function.update_of_ne hr] at hu
      exact h.updates r u hu i hi
  asking r hr := by
    change Function.update w.updates t us r ≠ [] at hr
    by_cases hrt : r = t
    · subst hrt
      rw [Function.update_self] at hr
      exact hg hr
    · rw [Function.update_of_ne hrt] at hr
      exact h.asking r hr

/-- The thread gets a `Ptr` to what its guard keeps. -/
theorem Safe.point (h : Safe w) {o : Option InstId} (ho : ∀ i ∈ o, Kept w t i) :
    Safe (w.point t o) := by
  -- A further Ptr changes neither the guards nor what has been retired.
  have hkept : ∀ r i, Kept (w.point t o) r i ↔ Kept w r i := fun r i => by
    unfold Kept World.guarded
    rw [process_point, retired_point]
  have hguarded : ∀ r, (w.point t o).guarded r = w.guarded r := fun r => by
    unfold World.guarded
    rw [process_point]
  refine ⟨h.inv.point o, by rw [process_point]; exact h.orderly, fun r i hi => ?_,
    fun r i hi => ?_, fun r hr => ?_, fun r u hu i hi => ?_, fun r hr => ?_⟩
  · rw [hkept]
    rcases mem_point.mp hi with hold | ⟨rfl, hnew⟩
    · exact h.ptrs r i hold
    · exact ho i hnew
  · rw [hkept]
    rw [counted_point] at hi
    exact h.tried r i hi
  · rw [hguarded]
    rw [counted_point] at hr
    exact h.guarded r hr
  · rw [hkept]
    rw [updates_point] at hu
    exact h.updates r u hu i hi
  · rw [hguarded]
    rw [updates_point] at hr
    exact h.asking r hr

/-- A call of a method of a handle that retires nothing, or the next access of it. -/
theorem Safe.called (h : Safe w) (hfew : Few bits w.counted) {act : RefCounted.Act}
    {c : RefCounted.World} (hpc : ∀ i, w.counted.pc t ≠ .link i)
    (hc : w.counted.step bits ⟨t, act⟩ = some c) (hact : ∀ i next, act ≠ .setNextPtr i next)
    (hmoved : ∀ r, (∀ i ∈ AtomicShared.tried (c.pc r), Kept w r i) ∧
      (trying (c.pc r) = true → w.guarded r = true)) : Safe { w with counted := c } where
  inv := h.inv.called hfew hpc hc hact
  orderly := h.orderly
  ptrs := h.ptrs
  tried r := (hmoved r).1
  guarded r := (hmoved r).2
  updates := h.updates
  asking := h.asking

/-- Every action of a steady run keeps what the threads have found. -/
theorem Safe.step (h : Safe w) (hfew : Few bits w.counted) {a : Action} (ha : steady w a = true)
    (hs : w.step bits a = some w') : Safe w' := by
  have hinv' := inv_step h.inv hfew hs
  obtain ⟨t, act⟩ := a
  have hstep : Stepped bits w t act w' := stepped_of_step hs
  cases hstep with
  | process act p hok hp => exact h.proceed ha hp hok
  | point act o hg ho => exact h.point fun i hi => h.inv.kept hg (ho i hi)
  | asked act us hbegins hus =>
    -- A call in progress has its guard, and one that begins needs it.
    have hg : w.guarded t = true := by
      rcases hbegins with hne | ⟨cell, tag, rfl⟩
      · exact h.asking t hne
      · exact ha
    refine h.setUpdates (fun _ => hg) fun u hu i hi => ?_
    rcases hus u hu with ⟨u', hu', hprev⟩ | ⟨cell, hp⟩
    · exact h.updates t u' hu' i (hprev ▸ hi)
    · exact h.inv.kept hg (RefCounted.holders_pos_of_word hp hi)
  | updated u rest c hu hpc hc =>
    have hcalled := h.called hfew hpc hc (fun i next hact => by cases hact)
      (h.moved (moved_of_step hc) (fun hb => by cases hb) fun i hi => by cases hi)
    refine hcalled.setUpdates (fun _ => h.asking t (by rw [hu]; exact List.cons_ne_nil u rest))
      fun v hv i hi => ?_
    exact h.updates t v (by rw [hu]; exact List.mem_cons_of_mem u hv) i hi
  | retire i act c p hpc hc hp =>
    have htemp : (w.process.stage t).temp = none := by
      unfold steady at ha
      simpa [hpc, atLink] using ha
    have ho := orderly_collect htemp hp
    obtain ⟨⟨spurious, rfl⟩, -⟩ := step_link hpc hc
    have hmoved := h.moved (moved_of_step hc) (fun hb => by cases hb) fun i hi => by cases hi
    have hguard := (process_collect hp).2.2
    refine ⟨hinv', h.orderly.tail _ ho hp, fun r j hj => ?_, fun r j hj => ?_,
      fun r hr => ?_, fun r u hu j hj => ?_, fun r hr => ?_⟩
    · exact (h.ptrs r j hj).retire h.orderly ho hp
    · exact ((hmoved r).1 j hj).retire h.orderly ho hp
    · exact (hguard r).trans ((hmoved r).2 hr)
    · exact (h.updates r u hu j hj).retire h.orderly ho hp
    · exact (hguard r).trans (h.asking r hr)
  | counted act c hok hpc hc =>
    obtain ⟨hbegins, hptr⟩ := h.permitted hok
    have hcalled := h.called hfew hpc hc (by rintro i next rfl; cases hok)
      (h.moved (moved_of_step hc) hbegins hptr)
    exact hcalled.point (h.inv.kept_returned hok hc)

theorem safe_init : Safe .init where
  inv := inv_init
  orderly := .refl
  ptrs _ _ hi := by cases hi
  tried _ _ hi := by cases hi
  guarded _ hr := by cases hr
  updates _ _ hu := by cases hu
  asking _ hr := absurd rfl hr

/-- Every state of a steady run is safe. -/
theorem safe_of_run (h : SteadyRun bits .init w) : Safe w :=
  h.invariant Safe safe_init fun _ _ _ hsafe ha hs => hsafe.step ha.1 ha.2 hs

/-! ## No use after free -/

/-- The instance whose counter or link the next access of a call reads or writes, or that it puts
on a garbage list. -/
def touched : Pc → Option InstId
  | .addRefLoad i | .addRef i _ | .tryAddRefLoad i _ | .tryAddRef i _ _ | .dropRefLoad i
  | .dropRef i _ | .pass i | .setNextPtr i _ _ | .link i => some i
  | .idle | .getShared _ => none

/-- What was dropped was passed to the collector before. -/
theorem Inv.passed_of_freed (h : Inv w) (hi : i ∈ freed w) : i ∈ w.counted.passed :=
  h.split.mem_iff.mp (List.mem_append_right _ hi)

/-- An instance with a handle was not dropped. -/
theorem Inv.not_freed (h : Inv w) (hpos : 0 < w.counted.holders i) : i ∉ freed w := by
  intro hi
  have hzero := (h.counted.of_passed (h.passed_of_freed hi)).1
  omega

/-- An instance that a thread is passing to the collector was not dropped. -/
theorem Inv.not_freed_of_passing (h : Inv w) (hp : passing i (w.counted.pc t)) : i ∉ freed w :=
  fun hi => (h.counted.of_passed (h.passed_of_freed hi)).2.2 t hp

/-- A call touches an instance that it has a handle to, one that it passes to the collector, or one
that it tries to take a reference to. -/
theorem touched_cases (hinv : Inv w) (hi : i ∈ touched (w.counted.pc t)) :
    0 < w.counted.holders i ∨ passing i (w.counted.pc t) ∨ i ∈ tried (w.counted.pc t) := by
  have hok : PcOk w.counted t := hinv.counted.pc t
  have hrelinks := hinv.relinks t
  unfold PcOk at hok
  cases hpc : w.counted.pc t with
  | idle | getShared _ =>
    rw [hpc] at hi
    cases hi
  -- A thread that changes a counter for a handle of its own counts as a holder of the instance.
  | addRefLoad j | addRef j _ | dropRefLoad j | dropRef j _ =>
    rw [hpc] at hi hok
    cases hi
    exact .inl (RefCounted.holders_pos hok.1)
  -- Ptr::get_shared changes a counter without being a holder.
  | tryAddRefLoad j _ | tryAddRef j _ _ =>
    rw [hpc] at hi
    cases hi
    exact .inr (.inr rfl)
  | pass j | link j =>
    rw [hpc] at hi
    cases hi
    exact .inr (.inl rfl)
  -- An instance that is linked has been taken out of reach by its last handle.
  | setNextPtr j next collect =>
    rw [hpc] at hi hrelinks
    cases hi
    cases collect with
    | true => exact .inr (.inl rfl)
    | false => cases hrelinks

/-- In every state of every steady run with fewer than `2 ^ (bits - 1)` handles of one instance:
what the next access of a call touches was not dropped; and no `Ptr` that was taken under a guard,
no word that `update_tag_if` has loaded and that its condition gets as a `Ptr`, no handle, and no
word of an `AtomicShared` points to an instance that was dropped. -/
theorem no_use_after_free (h : SteadyRun bits .init w) :
    (∀ t, ∀ i ∈ touched (w.counted.pc t), i ∉ freed w) ∧
    (∀ t, ∀ i ∈ w.ptrs t, i ∉ freed w) ∧
    (∀ t, ∀ u ∈ w.updates t, ∀ i ∈ u.prev.addr, i ∉ freed w) ∧
    (∀ a ∈ w.counted.handles, a.2 ∉ freed w) ∧
    ∀ cell p, w.counted.word cell = some p → ∀ i ∈ p.addr, i ∉ freed w := by
  have hsafe : Safe w := safe_of_run h
  have hinv : Inv w := hsafe.inv
  refine ⟨fun t i hi => ?_, fun t i hi => (hsafe.ptrs t i hi).not_freed,
    fun t u hu i hi => (hsafe.updates t u hu i hi).not_freed, fun a ha => ?_,
    fun cell p hp i hi => ?_⟩
  · rcases touched_cases hinv hi with hpos | hpass | htried
    · exact hinv.not_freed hpos
    · exact hinv.not_freed_of_passing hpass
    · exact (hsafe.tried t i htried).not_freed
  · exact hinv.not_freed (RefCounted.holders_pos (t := a.1) ha)
  · exact hinv.not_freed (RefCounted.holders_pos_of_word hp hi)

/-- The thread `t` puts an instance into the cell 0. -/
def stored (t : Tid) : List Action :=
  register 0 ++ register 1 ++ calling t [.newShared, .from 0]

/-- The thread `t` takes the instance out of the cell, and passes it to the collector. -/
def swapOut (t : Tid) : List Action :=
  calling t [.swap 0 none .none, .drop 0, .proceed false, .proceed false, .collect none,
    .proceed false, .proceed false]

/-- The condition of `update_tag_if` runs in the thread 1 while the instance that it gets a `Ptr` to
is taken out of the cell and passed to the collector. The guard keeps the instance: the epoch
changes only once, and `Ptr::get_shared` fails. -/
theorem no_use_after_free_guarded : ∃ w, SteadyRun 64 .init w ∧
    (w.updates 1).map (·.prev.addr) = [some 0] ∧ waiting w = [0] ∧
    w.counted.events = [.tryAddRef 1 0 false, .dropRef 0 0 true] ∧ 0 ∉ freed w := by
  have h : (exec (World.step 64) (fun w a => few w && steady w a) .init (stored 0 ++ guard 1 0 ++
      [⟨1, .updateTagIf 0 .first⟩] ++ guard 0 0 ++ swapOut 0 ++ calling 1 [.ptrGetShared 0] ++
        scan 0 8 ++ guard 0 1 ++ scan 0 6 ++ calling 1 [.proceed false])).any fun w =>
          (w.updates 1).map (·.prev.addr) == [some 0] && waiting w == [0] &&
            w.counted.events == [.tryAddRef 1 0 false, .dropRef 0 0 true] := by
    decide +kernel
  obtain ⟨w, hrun, h⟩ := Run.of_exec_any h
  simp only [Bool.and_eq_true, beq_iff_eq] at h
  obtain ⟨⟨hupdates, hwaiting⟩, hevents⟩ := h
  have hsteady : SteadyRun 64 .init w := hrun.mono fun _ _ hx => by
    obtain ⟨hfew, hs⟩ := Bool.and_eq_true_iff.mp hx
    exact ⟨RefCounted.few_of_length (of_decide_eq_true hfew), hs⟩
  obtain ⟨u, hu, hprev⟩ := List.mem_map.mp (hupdates ▸ List.mem_singleton_self (some 0))
  exact ⟨w, hsteady, hupdates, hwaiting, hevents, (no_use_after_free hsteady).2.2.1 1 u hu 0 hprev⟩

/-- Without a guard the `Ptr` that the condition of `update_tag_if` gets can dangle. The thread 0
calls it without one. The instance is taken out of the cell by the thread 1, passed to the
collector and dropped, and then the condition calls `Ptr::get_shared`. -/
theorem condition_dangles : ∃ w, FewRun 64 .init w ∧ 0 ∈ freed w ∧
    (w.updates 0).map (·.prev.addr) = [some 0] ∧ touched (w.counted.pc 0) = some 0 := by
  have h : (exec (World.step 64) (fun w _ => few w) .init (stored 1 ++
      [⟨0, .updateTagIf 0 .first⟩] ++ guard 1 0 ++ swapOut 1 ++ scan 1 8 ++ guard 1 1 ++ scan 1 8 ++
        guard 1 1 ++ scan 1 8 ++ guard 1 3 ++ calling 0 [.ptrGetShared 0])).any fun w =>
          freed w == [0] && (w.updates 0).map (·.prev.addr) == [some 0] &&
            touched (w.counted.pc 0) == some 0 := by
    decide +kernel
  obtain ⟨w, hrun, h⟩ := Run.of_exec_any h
  simp only [Bool.and_eq_true, beq_iff_eq] at h
  obtain ⟨⟨hfreed, hupdates⟩, htouched⟩ := h
  have hfew : FewRun 64 .init w :=
    hrun.mono fun _ _ hx => RefCounted.few_of_length (of_decide_eq_true hx)
  exact ⟨w, hfew, hfreed ▸ List.mem_singleton_self 0, hupdates, htouched⟩

end Sdd.Proofs.AtomicShared
