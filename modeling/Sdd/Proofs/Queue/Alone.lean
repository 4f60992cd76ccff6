import Sdd.Proofs.Alone
import Sdd.Proofs.Queue.Handles

/-!
# `Sdd.Proofs.Queue.Alone`: queue operations without interference

What a thread does when the others stand still. `cleanup_oldest` moves `oldest` to the first
undeleted entry (`clean_ends`), so that `pop_if` and `peek` find an undeleted entry in their
second turn. `traverse` ends on the last entry behind the one that it starts from
(`traverse_ends`); only the first entry can be a deleted one.

A push that has found a deleted entry goes on from `oldest`. When the queue has an undeleted
entry, this turn ends on one. When `oldest` refers to an entry and all entries are deleted,
each turn ends on a deleted one: nothing calls `cleanup_oldest`, since the tag that
`push_if_internal` compares the link with is `Tag::First`, and deleted entries have
`Tag::Second`.
-/

set_option autoImplicit false

namespace Sdd.Proofs.Queue

open Sdd.Lib Sdd.Queue

variable {T : Type} {n : Nat} {w w' w'' : World T n} {tgt : Addr → Option Addr} {t : Fin n}
  {x l : Addr} {o : Option Addr}

/-- The call of the thread returns. -/
abbrev EndsAlone (t : Fin n) (w : World T n) : Prop :=
  Ends (fun w => w.proceed t) Handles.Releases (fun w => w.pc t = .idle) w

/-- What a run alone relies on. -/
structure Calm (w : World T n) : Prop where
  inv : ∃ tgt, Inv w tgt
  handled : Handled w

/-- A step of the thread. -/
theorem Calm.next (h : Calm w) (hw : w.proceed t = some w') : Calm w' := by
  obtain ⟨tgt, hinv⟩ := h.inv
  exact ⟨proceed_inv hinv hw, h.handled.proceed hinv hw⟩

/-- Nothing has happened but clean-ups of links and the creation of an entry. -/
structure Frame (w w' : World T n) : Prop where
  oldest : w'.oldest = w.oldest
  attached : w'.attached = w.attached
  tags : ∀ x, (w'.heap.link x).tag = (w.heap.link x).tag

namespace Frame

theorem refl (w : World T n) : Frame w w := ⟨rfl, rfl, fun _ => rfl⟩

theorem trans (h : Frame w w') (h' : Frame w' w'') : Frame w w'' where
  oldest := h'.oldest.trans h.oldest
  attached := h'.attached.trans h.attached
  tags x := (h'.tags x).trans (h.tags x)

theorem isDeleted (h : Frame w w') : w'.heap.isDeleted = w.heap.isDeleted := by
  funext x
  unfold Heap.isDeleted
  rw [h.tags]

theorem contents (h : Frame w w') : w'.contents = w.contents := by
  unfold World.contents
  rw [h.attached, h.isDeleted]

end Frame

section release

/-- Entries have been released. -/
def withReleased (w : World T n) (r : Addr → Bool) : World T n :=
  { w with heap := { w.heap with released := r } }

theorem release_eq (h : Handles.Releases w w') (hinv : Inv w tgt) :
    Inv w' tgt ∧ ∃ r, w' = withReleased w r := by
  obtain ⟨x, hx⟩ := h
  unfold World.step at hx
  simp only at hx
  split at hx
  · rename_i hun
    cases hx
    exact ⟨release_inv hinv hun, _, rfl⟩
  · cases hx

/-- A thread in a call can make an access. -/
theorem proceed_some (hpc : w.pc t ≠ .idle) : ∃ w', w.proceed t = some w' := by
  unfold World.proceed
  split
  case h_1 heq => exact absurd heq hpc
  all_goals first | exact ⟨_, rfl⟩ | (split <;> exact ⟨_, rfl⟩)

/-- One step of the thread. `Q` is what is known before the step; it does not depend on which
entries have been released. -/
theorem step_alone (Q : World T n → Prop) (hQ : ∀ w r, Q w → Q (withReleased w r))
    (hown : ∀ w, Calm w → Q w → w.pc t ≠ .idle ∧
      ∀ w', w.proceed t = some w' → Calm w' → EndsAlone t w')
    (h : Calm w) (hq : Q w) : EndsAlone t w := by
  refine Ends.of_step (fun w => Calm w ∧ Q w) (fun w₁ w₂ h₁ he => ?_) (fun w₁ h₁ => ?_) ⟨h, hq⟩
  · obtain ⟨tgt, hinv⟩ := h₁.1.inv
    obtain ⟨hinv, r, rfl⟩ := release_eq he hinv
    exact ⟨⟨⟨tgt, hinv⟩, h₁.1.handled.plain, h₁.1.handled.attached⟩, hQ w₁ r h₁.2⟩
  · obtain ⟨hne, hend⟩ := hown w₁ h₁.1 h₁.2
    obtain ⟨w₂, hw⟩ := proceed_some hne
    exact ⟨w₂, hw, hend w₂ hw (h₁.1.next hw)⟩

/-- One step of a thread at `pc`. -/
theorem step_at {pc : Pc T} (h : Calm w) (hpc : w.pc t = pc) (hne : pc ≠ .idle)
    (hown : ∀ w w' : World T n, w.pc t = pc → w.proceed t = some w' → Calm w' → EndsAlone t w') :
    EndsAlone t w :=
  step_alone (fun w => w.pc t = pc) (fun _ _ h => h)
    (fun w _ hpc => ⟨hpc ▸ hne, fun w' hw h' => hown w w' hpc hw h'⟩) h hpc

end release

/-- A call that returns in this step. -/
theorem finish_ends (op : Op T) (res : Res) : EndsAlone t (w.finish t op res) :=
  .done (Function.update_self ..)

section calls

/-- A clean-up changes no tag. -/
theorem frame_cleans {v : View} {h' : Heap T} (hc : Cleans v w.heap h') :
    Frame w { w with heap := h' } where
  oldest := rfl
  attached := rfl
  tags x := by
    rcases hc with rfl | ⟨y, p, rfl, -⟩
    · rfl
    · show (Function.update w.heap.link y _ x).tag = _
      by_cases hxy : x = y
      · rw [hxy, Function.update_self]
      · rw [Function.update_of_ne hxy]

/-- What the queue guarantees to a call on `x`. -/
theorem holds_of_inv (h : Inv w tgt) (hx : x ∈ w.attached) {held : Option Addr}
    (hheld : ∀ y, held = some y → w.heap.released y = false) :
    Holds w.heap w.attached tgt x held where
  ok := h.shared.heap
  mem := hx
  held := hheld
  live y ha hlive := by
    have hy := (ha.before h.shared.heap hx).2.1
    by_contra hrel
    rw [Bool.not_eq_false] at hrel
    rw [h.shared.dead_of_released hy hrel] at hlive
    cases hlive

end calls

section push

variable {p : Push T} {e : Addr}

/-- A push that has attached its entry returns. -/
theorem swapNewest_ends (h : Calm w) (hpc : w.pc t = .swapNewest p e) : EndsAlone t w := by
  have hreset : ∀ {w : World T n}, Calm w → w.pc t = .resetNewest p e → EndsAlone t w := by
    intro w h hpc
    refine step_at h hpc nofun fun w w' hpc hw _ => ?_
    unfold World.proceed at hw
    rw [hpc] at hw
    cases hw
    exact finish_ends _ _
  have hcheck : ∀ {w : World T n}, Calm w → w.pc t = .checkOldest p e → EndsAlone t w := by
    intro w h hpc
    refine step_at h hpc nofun fun w w' hpc hw h' => ?_
    unfold World.proceed at hw
    rw [hpc] at hw
    simp only at hw
    split at hw
    · cases hw
      exact hreset h' (Function.update_self ..)
    · cases hw
      exact finish_ends _ _
  refine step_at h hpc nofun fun w w' hpc hw h' => ?_
  unfold World.proceed at hw
  rw [hpc] at hw
  cases hw
  exact hcheck h' (Function.update_self ..)

/-- The condition holds: the push goes on with an attachment. -/
theorem evaluate_pc (hcond : ∀ o, p.cond o = true) (o : Option Addr) :
    ∃ p' e, (w.evaluate t p o).pc t = .attach p' e o ∧ p'.cond = p.cond ∧
      Frame w (w.evaluate t p o) ∧ (w.evaluate t p o).heap.link = w.heap.link := by
  unfold World.evaluate
  rw [if_pos (hcond _)]
  split
  · exact ⟨p, _, Function.update_self .., rfl, ⟨rfl, rfl, fun _ => rfl⟩, rfl⟩
  · exact ⟨_, _, Function.update_self .., rfl, ⟨rfl, rfl, fun _ => rfl⟩, rfl⟩

/-- The compare-and-exchange on the link of an undeleted last entry, or on `oldest` when it is
null. -/
theorem attach_ends (h : Calm w) (hpc : w.pc t = .attach p e o)
    (ho : ∀ l, o = some l → w.heap.link l = .null) (hold : o = none → w.oldest = none) :
    EndsAlone t w := by
  refine step_alone (fun w => w.pc t = .attach p e o ∧ (∀ l, o = some l → w.heap.link l = .null) ∧
    (o = none → w.oldest = none)) (fun _ _ h => h) (fun w _ hq => ?_) h ⟨hpc, ho, hold⟩
  obtain ⟨hpc, ho, hold⟩ := hq
  refine ⟨by rw [hpc]; nofun, fun w' hw h' => ?_⟩
  unfold World.proceed at hw
  rw [hpc] at hw
  cases hw
  unfold World.attach at h' ⊢
  cases o with
  | some l =>
    simp only [if_pos (ho l rfl)] at h' ⊢
    exact swapNewest_ends h' (Function.update_self ..)
  | none =>
    simp only [if_pos (hold rfl)] at h' ⊢
    exact swapNewest_ends h' (Function.update_self ..)

/-- `traverse` comes to an end, on the entry that it starts from or on an undeleted one. -/
theorem traverse_ends (w₀ : World T n) (x₀ : Addr)
    (hend : ∀ w l, Calm (w.evaluate t p (some l)) → Frame w₀ w →
      (l = x₀ ∨ w.heap.isDeleted l = false) → next w.heap l = none →
      EndsAlone t (w.evaluate t p (some l)))
    (h : Calm w) (hf : Frame w₀ w) (hpc : w.pc t = .traverse p x (.start x))
    (hx : x = x₀ ∨ w.heap.isDeleted x = false) : EndsAlone t w := by
  induction hk : rank w.attached x using Nat.strongRecOn generalizing w x with
  | _ k ih =>
    obtain ⟨tgt, hinv⟩ := h.inv
    have hmem : x ∈ w.attached := by
      have hok := hinv.ok t
      rw [hpc] at hok
      exact hok.2.1
    refine nextPtr_ends World.heap w.attached tgt x
      (fun w' call => Inv w' tgt ∧ Handled w' ∧ w'.pc t = .traverse p x call ∧ Frame w w')
      (fun w' call hat => ?_) (fun w' w'' call hat he => ?_) (fun w' call hat => ?_)
      ⟨hinv, h.handled, hpc, .refl w⟩
    · obtain ⟨hinv', -, hpc', hf'⟩ := hat
      rw [← hf'.attached]
      refine holds_of_inv hinv' (hf'.attached ▸ hmem) fun y hy => hinv'.held t y ?_
      rw [hpc']
      simp [Pc.holds, hy]
    · obtain ⟨hinv', hh', hpc', hf'⟩ := hat
      obtain ⟨hinv'', r, rfl⟩ := release_eq he hinv'
      exact ⟨⟨hinv'', ⟨hh'.plain, hh'.attached⟩, hpc', hf'.oldest, hf'.attached, hf'.tags⟩, rfl⟩
    · obtain ⟨hinv', hh', hpc', hf'⟩ := hat
      have hw : w'.proceed t
          = some ({ w' with heap := (call.step w'.heap).1 }.traversed t p x
            (call.step w'.heap).2) := by
        unfold World.proceed
        rw [hpc']
      have hcall := hinv'.ok t
      rw [hpc'] at hcall
      have hheld : ∀ y, call.holds = some y → w'.heap.released y = false := fun y hy =>
        hinv'.held t y (by rw [hpc']; simp [Pc.holds, hy])
      have hclean := frame_cleans (w := w') (nextPtr_cleans hcall.2.2 hheld)
      have hinv'' := traverseStep_inv hinv' hpc'
      have hh'' := hh'.proceed hinv' hw
      refine ⟨_, hw, fun call' hout => ?_, fun q hout hq => ?_⟩
      · rw [hout] at hinv'' hh'' ⊢
        exact ⟨⟨hinv'', hh'', Function.update_self .., hf'.trans ⟨rfl, rfl, hclean.tags⟩⟩, rfl⟩
      · rw [hout] at hinv'' hh'' ⊢
        obtain ⟨hn, hfound⟩ := hq
        have hfw : Frame w₀ { w' with heap := (call.step w'.heap).1 } :=
          (hf.trans hf').trans hclean
        unfold World.traversed at hinv'' hh'' ⊢
        simp only at hinv'' hh'' ⊢
        cases hq : q.addr with
        | none =>
          rw [hq] at hinv'' hh'' hn
          refine hend _ x ⟨⟨tgt, hinv''⟩, hh''⟩ hfw ?_ hn
          refine hx.imp_right fun hx => ?_
          rw [(hf'.trans hclean).isDeleted]
          exact hx
        | some y =>
          rw [hq] at hinv'' hh'' hfound
          obtain ⟨ha, hlive⟩ := hfound.2 y rfl
          refine ih _ ?_ ⟨⟨tgt, hinv''⟩, hh''⟩ ⟨hfw.oldest, hfw.attached, hfw.tags⟩
            (Function.update_self ..) (.inr hlive) rfl
          have hb := ha.before hinv''.shared.heap
            (show x ∈ w'.attached from hf'.attached ▸ hmem)
          rw [← hk, ← hf'.attached]
          exact rank_lt hb

/-- The link of an undeleted last entry. -/
theorem Handled.link_null (h : Handled w) (hlive : w.heap.isDeleted l = false)
    (hn : next w.heap l = none) : w.heap.link l = .null := by
  rcases tag_of_live hlive with htag | htag
  · unfold next at hn
    calc w.heap.link l = ⟨(w.heap.link l).addr, (w.heap.link l).tag⟩ := rfl
      _ = .null := by rw [hn, htag]; rfl
  · exact absurd htag (h.plain l)

/-- The compare-and-exchange fails on a deleted last entry. Its tag is not the one for which
`push_if_internal` cleans up. -/
theorem attach_dead {l : Addr} (hdead : w.heap.isDeleted l = true) (hn : next w.heap l = none)
    (h : Handled w) : w.attach t p e (some l) = w.goto t (.loadOldest p) := by
  unfold World.attach
  simp only
  rw [if_neg, if_neg (h.plain l), if_pos]
  · unfold next at hn
    unfold Ptr.isNull
    rw [hn]
    rfl
  · intro hnull
    rw [isDeleted_of_null hnull] at hdead
    cases hdead

/-- A push goes on from `oldest`, which is null or leads to an undeleted entry. -/
theorem loadOldest_ends (hcond : ∀ o, p.cond o = true) (h : Calm w)
    (hpc : w.pc t = .loadOldest p) (hcontents : w.oldest = none ∨ w.contents ≠ []) :
    EndsAlone t w := by
  refine step_alone (fun w => w.pc t = .loadOldest p ∧ (w.oldest = none ∨ w.contents ≠ []))
    (fun _ _ h => h) (fun w _ hq => ?_) h ⟨hpc, hcontents⟩
  obtain ⟨hpc, hcontents⟩ := hq
  refine ⟨by rw [hpc]; nofun, fun w' hw h' => ?_⟩
  unfold World.proceed at hw
  rw [hpc] at hw
  cases hw
  cases hold : w.oldest with
  | none =>
    rw [hold] at h'
    obtain ⟨p', e, hpc', -, hf, -⟩ := evaluate_pc (w := w) (t := t) hcond none
    exact attach_ends h' hpc' (fun l hl => by cases hl) fun _ => hf.oldest.trans hold
  | some x =>
    rw [hold] at h'
    refine traverse_ends w x (fun w' l hcalm hf hl hn => ?_) h'
      ⟨rfl, rfl, fun _ => rfl⟩ (Function.update_self ..) (.inl rfl)
    obtain ⟨p', e, hpc', -, hf', hlink⟩ := evaluate_pc (w := w') (t := t) hcond (some l)
    have hff := hf.trans hf'
    refine attach_ends hcalm hpc' (fun y hy => ?_) fun hc => by cases hc
    cases hy
    refine hcalm.handled.link_null ?_ ?_
    · rw [hf'.isDeleted]
      rcases hl with rfl | hl
      · -- A deleted entry with nothing behind it, in `oldest`: the queue has no entry.
        by_contra hdead
        rw [Bool.not_eq_false] at hdead
        obtain ⟨tgt, hinv⟩ := hcalm.inv
        refine hcontents.elim (fun hc => by rw [hold] at hc; cases hc) fun hc => hc ?_
        rw [← hff.contents]
        refine hinv.shared.contents_nil ?_
        rw [hff.oldest, hold]
        refine (hinv.shared.heap.skip.dead l ?_).trans ?_
        · rw [hf'.isDeleted]
          exact hdead
        · unfold next at hn ⊢
          rw [hlink, hn]
          rfl
      · exact hl
    · unfold next at hn ⊢
      rw [hlink]
      exact hn

/-- A push returns when `oldest` is null or the queue has an undeleted entry. -/
theorem push_ends (hcond : ∀ o, p.cond o = true) (h : Calm w) (hpc : w.pc t = .loadNewest p)
    (hcontents : w.oldest = none ∨ w.contents ≠ []) : EndsAlone t w := by
  refine step_alone (fun w => w.pc t = .loadNewest p ∧ (w.oldest = none ∨ w.contents ≠ []))
    (fun _ _ h => h) (fun w _ hq => ?_) h ⟨hpc, hcontents⟩
  obtain ⟨hpc, hcontents⟩ := hq
  refine ⟨by rw [hpc]; nofun, fun w' hw h' => ?_⟩
  unfold World.proceed at hw
  rw [hpc] at hw
  simp only at hw
  split at hw
  · cases hw
    exact loadOldest_ends hcond h' (Function.update_self ..) hcontents
  · rename_i x _
    cases hw
    refine traverse_ends w x (fun w' l hcalm hf hl hn => ?_) h'
      ⟨rfl, rfl, fun _ => rfl⟩ (Function.update_self ..) (.inl rfl)
    obtain ⟨p', e, hpc', hcond', hf', hlink⟩ := evaluate_pc (w := w') (t := t) hcond (some l)
    have hff := hf.trans hf'
    cases hlive : (w'.evaluate t p (some l)).heap.isDeleted l with
    | false =>
      refine attach_ends hcalm hpc' (fun y hy => ?_) fun hc => by cases hc
      cases hy
      refine hcalm.handled.link_null hlive ?_
      unfold next at hn ⊢
      rw [hlink]
      exact hn
    | true =>
      refine step_alone (fun w => w.pc t = .attach p' e (some l) ∧
        w.heap.isDeleted l = true ∧ next w.heap l = none ∧ (w.oldest = none ∨ w.contents ≠ []))
        (fun _ _ h => h) (fun w _ hq => ?_) hcalm ⟨hpc', hlive, ?_, ?_⟩
      · obtain ⟨hpc, hdead, hn, hcontents⟩ := hq
        refine ⟨by rw [hpc]; nofun, fun w' hw h' => ?_⟩
        unfold World.proceed at hw
        rw [hpc] at hw
        cases hw
        rw [attach_dead hdead hn ‹Calm w›.handled] at h' ⊢
        exact loadOldest_ends (hcond' ▸ hcond) h' (Function.update_self ..) hcontents
      · unfold next at hn ⊢
        rw [hlink]
        exact hn
      · rw [hff.oldest, hff.contents]
        exact hcontents

end push

section clean

variable {k : Clean T} {cond : T → Bool}

/-- `cleanup_oldest` returns, when its caller does. `oldest` then refers to an undeleted entry
or is null. -/
theorem clean_ends
    (hend : ∀ (w : World T n) o, Calm (w.cleaned t k o) → w.oldest = o →
      (∀ x, o = some x → w.heap.isDeleted x = false) → EndsAlone t (w.cleaned t k o))
    (h : Calm w) (hpc : w.pc t = .cleanLoad k) : EndsAlone t w := by
  have hreset : ∀ {w : World T n}, Calm w → w.pc t = .cleanReset k → w.oldest = none →
      EndsAlone t w := by
    intro w h hpc hold
    refine step_alone (fun w => w.pc t = .cleanReset k ∧ w.oldest = none) (fun _ _ h => h)
      (fun w _ hq => ?_) h ⟨hpc, hold⟩
    obtain ⟨hpc, hold⟩ := hq
    refine ⟨by rw [hpc]; simp, fun w' hw h' => ?_⟩
    unfold World.proceed at hw
    rw [hpc] at hw
    cases hw
    exact hend _ none h' hold fun x hx => by cases hx
  have hexchange : ∀ {w : World T n} {x : Addr} {o : Option Addr}, Calm w →
      w.pc t = .cleanExchange k x o → w.oldest = some x →
      (∀ y, o = some y → w.heap.isDeleted y = false) → EndsAlone t w := by
    intro w x o h hpc hold ho
    refine step_alone (fun w => w.pc t = .cleanExchange k x o ∧ w.oldest = some x ∧
      ∀ y, o = some y → w.heap.isDeleted y = false) (fun _ _ h => h)
      (fun w _ hq => ?_) h ⟨hpc, hold, ho⟩
    obtain ⟨hpc, hold, ho⟩ := hq
    refine ⟨by rw [hpc]; simp, fun w' hw h' => ?_⟩
    unfold World.proceed at hw
    rw [hpc] at hw
    cases hw
    unfold World.cleanExchange at h' ⊢
    rw [if_pos hold] at h' ⊢
    cases o with
    | none => exact hreset h' (Function.update_self ..) rfl
    | some y => exact hend _ (some y) h' rfl ho
  have hnext : ∀ {w : World T n} {x : Addr}, Calm w → w.pc t = .cleanNext k x (.start x) →
      w.oldest = some x → EndsAlone t w := by
    intro w x h hpc hold
    obtain ⟨tgt, hinv⟩ := h.inv
    refine nextShared_ends World.heap w.attached tgt x
      (fun w' call => Inv w' tgt ∧ Handled w' ∧ w'.pc t = .cleanNext k x call ∧ Frame w w')
      (fun w' call hat => ?_) (fun w' w'' call hat he => ?_) (fun w' call hat => ?_)
      ⟨hinv, h.handled, hpc, .refl w⟩
    · obtain ⟨hinv', -, hpc', hf'⟩ := hat
      rw [← hf'.attached]
      refine holds_of_inv hinv' ?_ fun y hy => hinv'.held t y ?_
      · exact (hinv'.shared.roots x (.inl (hf'.oldest.trans hold))).1
      · rw [hpc']
        simp [Pc.holds, hy]
    · obtain ⟨hinv', hh', hpc', hf'⟩ := hat
      obtain ⟨hinv'', r, rfl⟩ := release_eq he hinv'
      exact ⟨⟨hinv'', ⟨hh'.plain, hh'.attached⟩, hpc', hf'.oldest, hf'.attached, hf'.tags⟩, rfl⟩
    · obtain ⟨hinv', hh', hpc', hf'⟩ := hat
      have hw : w'.proceed t
          = some ({ w' with heap := (call.step w'.heap).1 }.cleanNext t k x
            (call.step w'.heap).2) := by
        unfold World.proceed
        rw [hpc']
      have hcall := hinv'.ok t
      rw [hpc'] at hcall
      have hheld : ∀ y, call.holds = some y → w'.heap.released y = false := fun y hy =>
        hinv'.held t y (by rw [hpc']; simp [Pc.holds, hy])
      have hclean := frame_cleans (w := w') (nextShared_cleans hcall.2.2.2 hheld)
      have hinv'' := cleanNextStep_inv hinv' hpc'
      have hh'' := hh'.proceed hinv' hw
      refine ⟨_, hw, fun call' hout => ?_, fun o hout ho => ?_⟩
      · rw [hout] at hinv'' hh'' ⊢
        exact ⟨⟨hinv'', hh'', Function.update_self .., hf'.trans ⟨rfl, rfl, hclean.tags⟩⟩, rfl⟩
      · rw [hout] at hinv'' hh'' ⊢
        exact hexchange ⟨⟨tgt, hinv''⟩, hh''⟩ (Function.update_self ..)
          (hf'.oldest.trans hold) fun y hy => (ho.2.2 y hy).2
  have hdeleted : ∀ {w : World T n} {x : Addr}, Calm w → w.pc t = .cleanDeleted k x →
      w.oldest = some x → EndsAlone t w := by
    intro w x h hpc hold
    refine step_alone (fun w => w.pc t = .cleanDeleted k x ∧ w.oldest = some x) (fun _ _ h => h)
      (fun w _ hq => ?_) h ⟨hpc, hold⟩
    obtain ⟨hpc, hold⟩ := hq
    refine ⟨by rw [hpc]; simp, fun w' hw h' => ?_⟩
    unfold World.proceed at hw
    rw [hpc] at hw
    simp only at hw
    split at hw
    · cases hw
      exact hnext h' (Function.update_self ..) hold
    · rename_i hlive
      cases hw
      refine hend _ (some x) h' hold fun y hy => ?_
      cases hy
      exact (Bool.not_eq_true _).mp hlive
  refine step_at h hpc (by simp) fun w w' hpc hw h' => ?_
  unfold World.proceed at hw
  rw [hpc] at hw
  simp only at hw
  split at hw
  · rename_i hold
    cases hw
    exact hend _ none h' hold fun x hx => by cases hx
  · rename_i x hold
    cases hw
    exact hdeleted h' (Function.update_self ..) hold

/-- `pop_if` has deleted an entry. -/
theorem popped_ends {x : Addr} (h : Calm w) (hpc : w.pc t = .cleanLoad (.popped cond x)) :
    EndsAlone t w :=
  clean_ends (fun _ _ _ _ _ => finish_ends _ _) h hpc

/-- `pop_if` with the entry that `oldest` refers to. If it is deleted, `pop_if` cleans up. -/
theorem popGetShared_ends (h : Calm w) (hpc : w.pc t = .popGetShared cond x)
    (hold : w.oldest = some x)
    (hretry : w.heap.isDeleted x = true → ∀ w : World T n, Calm w →
      w.pc t = .cleanLoad (.retry cond) → EndsAlone t w) : EndsAlone t w := by
  have hdelete : ∀ {w : World T n}, Calm w → w.pc t = .popDelete cond x →
      (w.heap.isDeleted x = true → ∀ w : World T n, Calm w →
        w.pc t = .cleanLoad (.retry cond) → EndsAlone t w) → EndsAlone t w := by
    intro w h hpc hretry
    refine step_alone (fun w => w.pc t = .popDelete cond x ∧ (w.heap.isDeleted x = true → _))
      (fun _ _ h => h) (fun w _ hq => ?_) h ⟨hpc, hretry⟩
    obtain ⟨hpc, hretry⟩ := hq
    refine ⟨by rw [hpc]; nofun, fun w' hw h' => ?_⟩
    unfold World.proceed at hw
    rw [hpc] at hw
    cases hw
    unfold World.popDelete at h' ⊢
    cases hlive : w.heap.isDeleted x with
    | false =>
      rw [deleteSelf_eq hlive] at h' ⊢
      exact popped_ends h' (Function.update_self ..)
    | true =>
      rw [deleteSelf_dead hlive] at h' ⊢
      exact hretry hlive _ h' (Function.update_self ..)
  have hdeleted : ∀ {w : World T n}, Calm w → w.pc t = .popDeleted cond x →
      (w.heap.isDeleted x = true → ∀ w : World T n, Calm w →
        w.pc t = .cleanLoad (.retry cond) → EndsAlone t w) → EndsAlone t w := by
    intro w h hpc hretry
    refine step_alone (fun w => w.pc t = .popDeleted cond x ∧ (w.heap.isDeleted x = true → _))
      (fun _ _ h => h) (fun w _ hq => ?_) h ⟨hpc, hretry⟩
    obtain ⟨hpc, hretry⟩ := hq
    refine ⟨by rw [hpc]; nofun, fun w' hw h' => ?_⟩
    unfold World.proceed at hw
    rw [hpc] at hw
    cases hw
    unfold World.popDeleted at h' ⊢
    split
    · exact finish_ends _ _
    · rename_i hcond
      rw [if_neg hcond] at h'
      exact hdelete h' (Function.update_self ..) hretry
  refine step_alone (fun w => w.pc t = .popGetShared cond x ∧ w.oldest = some x ∧
    (w.heap.isDeleted x = true → _)) (fun _ _ h => h) (fun w h hq => ?_) h ⟨hpc, hold, hretry⟩
  obtain ⟨hpc, hold, hretry⟩ := hq
  refine ⟨by rw [hpc]; nofun, fun w' hw h' => ?_⟩
  unfold World.proceed at hw
  rw [hpc] at hw
  simp only at hw
  -- `oldest` owns the entry.
  obtain ⟨tgt, hinv⟩ := h.inv
  rw [if_neg (by rw [(hinv.shared.roots x (.inl hold)).2]; nofun)] at hw
  cases hw
  exact hdeleted h' (Function.update_self ..) hretry

/-- `pop_if` has cleaned up: the entry that it goes on with is not deleted. -/
theorem retry_ends (h : Calm w) (hpc : w.pc t = .cleanLoad (.retry cond)) : EndsAlone t w := by
  refine clean_ends (fun w o h hold hlive => ?_) h hpc
  cases o with
  | none => exact finish_ends _ _
  | some x =>
    refine popGetShared_ends h (Function.update_self ..) hold fun hdead => ?_
    change w.heap.isDeleted x = true at hdead
    rw [hlive x rfl] at hdead
    cases hdead

/-- `pop_if` returns. -/
theorem popIf_ends (h : Calm w) (hpc : w.pc t = .popLoad cond) : EndsAlone t w := by
  refine step_at h hpc nofun fun w w' hpc hw h' => ?_
  unfold World.proceed at hw
  rw [hpc] at hw
  cases hw
  cases hold : w.oldest with
  | none => exact finish_ends _ _
  | some x =>
    rw [hold] at h'
    exact popGetShared_ends h' (Function.update_self ..) hold fun _ w h hpc => retry_ends h hpc

/-- `peek` returns. -/
theorem peek_ends (h : Calm w) (hpc : w.pc t = .peekLoad) : EndsAlone t w := by
  -- It cleans up at most once.
  have hdeleted : ∀ {w : World T n} {x : Addr}, Calm w → w.pc t = .peekDeleted x →
      (w.heap.isDeleted x = true → ∀ w : World T n, Calm w → w.pc t = .cleanLoad .peek →
        EndsAlone t w) → EndsAlone t w := by
    intro w x h hpc hclean
    refine step_alone (fun w => w.pc t = .peekDeleted x ∧ (w.heap.isDeleted x = true → _))
      (fun _ _ h => h) (fun w _ hq => ?_) h ⟨hpc, hclean⟩
    obtain ⟨hpc, hclean⟩ := hq
    refine ⟨by rw [hpc]; nofun, fun w' hw h' => ?_⟩
    unfold World.proceed at hw
    rw [hpc] at hw
    simp only at hw
    split at hw
    · rename_i hdead
      cases hw
      exact hclean hdead _ h' (Function.update_self ..)
    · cases hw
      exact finish_ends _ _
  have hclean : ∀ w : World T n, Calm w → w.pc t = .cleanLoad .peek → EndsAlone t w := by
    intro w h hpc
    refine clean_ends (fun w o h hold hlive => ?_) h hpc
    cases o with
    | none => exact finish_ends _ _
    | some x =>
      refine hdeleted h (Function.update_self ..) fun hdead => ?_
      change w.heap.isDeleted x = true at hdead
      rw [hlive x rfl] at hdead
      cases hdead
  refine step_at h hpc nofun fun w w' hpc hw h' => ?_
  unfold World.proceed at hw
  rw [hpc] at hw
  cases hw
  cases hold : w.oldest with
  | none => exact finish_ends _ _
  | some x =>
    rw [hold] at h'
    exact hdeleted h' (Function.update_self ..) fun _ => hclean

end clean

section iterate

/-- A call of a user that cleans up a link. -/
theorem clean_inv (h : Inv w tgt) {h' : Heap T} (hc : Cleans (view w tgt) w.heap h') :
    Inv { w with heap := h' } tgt where
  shared := h.shared.clean hc
  ok u := (h.ok u).ext (ext_clean hc) h.shared fun _ _ => by simp
  held u y hy := by
    show h'.released y = false
    rw [hc.fields.2.1]
    exact h.held u y hy
  own := h.own

/-- An iteration at an entry comes to its end. -/
theorem next_ends (h : Inv w tgt) (hx : x ∈ w.attached) :
    Ends (Handles.Iterate.proceed t) Handles.Iterate.Releases (fun s => s.place = .finished)
      (⟨w, .next (.start x)⟩ : Handles.Iterate T n) := by
  induction hk : rank w.attached x using Nat.strongRecOn generalizing w x with
  | _ k ih =>
    refine nextPtr_ends (fun s : Handles.Iterate T n => s.world.heap) w.attached tgt x
      (fun s call => s.place = .next call ∧ Inv s.world tgt ∧ s.world.attached = w.attached ∧
        CallOk (view s.world tgt) False x call ∧
        ∀ y, call.holds = some y → s.world.heap.released y = false)
      (fun s call hat => ?_) (fun s s' call hat he => ?_) (fun s call hat => ?_)
      ⟨rfl, h, rfl, callOk_start hx False.elim, fun y hy => by cases hy⟩
    · obtain ⟨-, hinv, hatt, -, hheld⟩ := hat
      rw [← hatt]
      exact holds_of_inv hinv (hatt ▸ hx) hheld
    · obtain ⟨hplace, hinv, hatt, hcall, hheld⟩ := hat
      obtain ⟨hplace', y, hy, hne⟩ := he
      obtain ⟨w₁, place⟩ := s'
      unfold World.step at hy
      simp only at hy
      split at hy
      · rename_i hun
        cases hy
        refine ⟨⟨hplace'.trans hplace, release_inv hinv hun, hatt, hcall, fun z hz => ?_⟩, rfl⟩
        have hzy : z ≠ y := fun hc => hne call hplace (hc ▸ hz)
        show Function.update s.world.heap.released y true z = false
        rw [Function.update_of_ne hzy]
        exact hheld z hz
      · cases hy
    · obtain ⟨hplace, hinv, hatt, hcall, hheld⟩ := hat
      have hclean := nextPtr_cleans hcall hheld
      have hinv' := clean_inv hinv hclean
      have hafter := nextPtr_ok hinv.shared.heap hcall
      rw [← view_eq hclean.isDeleted_eq] at hafter
      have hrel : (call.step s.world.heap).1.released = s.world.heap.released := hclean.fields.2.1
      obtain ⟨w₁, place⟩ := s
      cases hplace
      simp only at hinv' hafter hrel ⊢
      unfold Handles.Iterate.proceed
      cases hout : call.step w₁.heap with
      | mk h' out =>
        rw [hout] at hinv' hafter hrel
        cases out with
        | running call' =>
          refine ⟨⟨{ w₁ with heap := h' }, .next call'⟩, by simp only [hout], fun call'' hc => ?_,
            fun p hc => by cases hc⟩
          cases hc
          refine ⟨⟨rfl, hinv', hatt, hafter, fun y hy => ?_⟩, rfl⟩
          show h'.released y = false
          rw [hrel]
          exact nextPtr_holds (congrArg Prod.snd hout) hy
        | done p =>
          refine ⟨⟨{ w₁ with heap := h' }, .move p.addr⟩, by simp only [hout],
            fun call'' hc => (by cases hc), fun p' hc hp => ?_⟩
          cases hc
          cases hp' : p.addr with
          | none => exact .done rfl
          | some y =>
            obtain ⟨ha, -⟩ := hp.2.2 y hp'
            have hb := ha.before hinv'.shared.heap (show x ∈ w₁.attached from hatt ▸ hx)
            refine ih _ ?_ hinv' hb.2.1 rfl
            rw [← hk, ← hatt]
            exact rank_lt hb

theorem op_goto (pc : Pc T) : ((w.goto t pc).pc t).op = pc.op := by
  show (Function.update w.pc t pc t).op = pc.op
  rw [Function.update_self]

/-- A step of `iter()`: it goes on, or returns an attached entry or nothing. -/
theorem iter_step (h : Inv w tgt) (hop : (w.pc t).op = some .iter)
    (hw : w.proceed t = some w') : (w'.pc t).op = some .iter ∨
      w'.pc t = .idle ∧ ∃ o, w'.history.getLast? = some (.result t .iter (.first o)) ∧
        ∀ x, o = some x → x ∈ w'.attached := by
  have hok := h.ok t
  -- The clean-up of `iter()` returns `o`.
  have hcleaned : ∀ {w : World T n} {o : Option Addr}, (∀ x, o = some x → x ∈ w.attached) →
      (w.cleaned t .iter o).pc t = .idle ∧
      ∃ o', (w.cleaned t .iter o).history.getLast? = some (.result t .iter (.first o')) ∧
        ∀ x, o' = some x → x ∈ (w.cleaned t .iter o).attached :=
    fun ho => ⟨Function.update_self .., _, List.getLast?_concat, ho⟩
  have hiter : ∀ {k : Clean T}, k.op = .iter → k = .iter := by
    intro k hk
    cases k with
    | iter => rfl
    | _ => cases hk
  unfold World.proceed at hw
  cases hpc : w.pc t with
  | cleanLoad k =>
    rw [hpc] at hw hop
    cases hiter (Option.some.inj hop)
    simp only at hw
    split at hw
    · cases hw
      exact .inr (hcleaned fun x hx => by cases hx)
    · cases hw
      exact .inl (op_goto _)
  | cleanDeleted k x =>
    rw [hpc] at hw hop hok
    cases hiter (Option.some.inj hop)
    simp only at hw
    split at hw
    · cases hw
      exact .inl (op_goto _)
    · cases hw
      exact .inr (hcleaned fun y hy => Option.some.inj hy ▸ hok.2.1)
  | cleanNext k x call =>
    rw [hpc] at hw hop
    cases hiter (Option.some.inj hop)
    cases hw
    unfold World.cleanNext
    split
    · exact .inl (op_goto _)
    · exact .inl (op_goto _)
  | cleanExchange k x o =>
    rw [hpc] at hw hop hok
    cases hiter (Option.some.inj hop)
    cases hw
    unfold World.cleanExchange
    split
    · split
      · exact .inl (op_goto _)
      · rename_i y
        exact .inr (hcleaned fun z hz => (hok.2.2.2.att z hz).1)
    · exact .inr (hcleaned fun z hz => (h.root hz).1)
  | cleanReset k =>
    rw [hpc] at hw hop
    cases hiter (Option.some.inj hop)
    cases hw
    exact .inr (hcleaned fun x hx => by cases hx)
  | _ =>
    rw [hpc] at hop
    cases hop

/-- An iteration comes to its end. -/
theorem iterate_ends (h : Calm w) (hop : (w.pc t).op = some .iter) (he : EndsAlone t w) :
    Ends (Handles.Iterate.proceed t) Handles.Iterate.Releases (fun s => s.place = .finished)
      (⟨w, .iter⟩ : Handles.Iterate T n) := by
  induction he with
  | done hidle =>
    rw [hidle] at hop
    cases hop
  | @step w hex _ ih =>
    -- Releases do not change the place where the thread stands.
    have henv : ∀ s₁, Relation.ReflTransGen Handles.Iterate.Releases ⟨w, .iter⟩ s₁ →
        ∃ w₁, s₁ = ⟨w₁, .iter⟩ ∧ Relation.ReflTransGen Handles.Releases w w₁ ∧ Calm w₁ ∧
          (w₁.pc t).op = some .iter := by
      intro s₁ hs₁
      induction hs₁ with
      | refl => exact ⟨w, rfl, .refl, h, hop⟩
      | @tail s₁ s₂ _ he ih =>
        obtain ⟨w₁, rfl, hr, hcalm, hop₁⟩ := ih
        obtain ⟨w₂, place⟩ := s₂
        obtain ⟨hplace, y, hy, -⟩ := he
        cases hplace
        have hrel : Handles.Releases w₁ w₂ := ⟨y, hy⟩
        obtain ⟨tgt, hinv⟩ := hcalm.inv
        obtain ⟨hinv', r, rfl⟩ := release_eq hrel hinv
        exact ⟨_, rfl, hr.tail hrel, ⟨⟨tgt, hinv'⟩, hcalm.handled.plain, hcalm.handled.attached⟩,
          hop₁⟩
    refine .step (fun s₁ hs₁ => ?_) fun s₁ s₂ hs₁ hs₂ => ?_
    · obtain ⟨w₁, rfl, hr, -⟩ := henv s₁ hs₁
      obtain ⟨w₂, hw₂⟩ := hex w₁ hr
      unfold Handles.Iterate.proceed
      simp only [hw₂]
      exact ⟨_, rfl⟩
    · obtain ⟨w₁, rfl, hr, hcalm, hop₁⟩ := henv s₁ hs₁
      obtain ⟨w₂, hw₂⟩ := hex w₁ hr
      obtain ⟨tgt, hinv⟩ := hcalm.inv
      have hcalm₂ := hcalm.next hw₂
      unfold Handles.Iterate.proceed at hs₂
      simp only [hw₂, Option.map_some, Option.some.injEq] at hs₂
      rcases iter_step hinv hop₁ hw₂ with hop₂ | ⟨hidle, o, hlast, ho⟩
      · have hne : w₂.pc t ≠ .idle := by
          intro hc
          rw [hc] at hop₂
          cases hop₂
        split at hs₂
        · contradiction
        · cases hs₂
          exact ih w₁ w₂ hr hw₂ hcalm₂ hop₂
      · rw [hidle, hlast] at hs₂
        cases hs₂
        cases o with
        | none => exact .done rfl
        | some x =>
          obtain ⟨tgt₂, hinv₂⟩ := hcalm₂.inv
          exact next_ends hinv₂ (ho x rfl)

end iterate

end Sdd.Proofs.Queue
