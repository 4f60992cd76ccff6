import Sdd.Proofs.Alone
import Sdd.Proofs.SharedList.Runs

/-!
# `Sdd.Proofs.SharedList.Returns`: the methods of `LinkedList` return

The main result is `returns`: in every state of a run, a method of an entry that a thread calls
and runs alone returns. Its compare-and-exchanges do not fail then. Entries can be released
and dropped in the mean time: the entries that the links lead to from an entry that a call is
made on are not among them.
-/

set_option autoImplicit false

namespace Sdd.Proofs.SharedList

open Sdd.Lib Sdd.SharedList

variable {T : Type} {n : Nat} {w w' : World T n} {order : List Addr} {tgt : Addr → Option Addr}
  {t : Fin n} {x : Addr}

/-- An entry is released, or a released one is dropped. -/
def LetsGo (w w' : World T n) : Prop :=
  ∃ x, w.step (.release x) = some w' ∨ w.step (.drop x) = some w'

/-- The method of `x` returns if the thread calls it now, and the other threads stand still. -/
def Returns (w : World T n) (t : Fin n) (x : Addr) (op : Op T) : Prop :=
  ∀ w', w.step (.invoke t x op) = some w' →
    Ends (fun w => w.step (.proceed t false)) LetsGo (fun w => w.pc t = none) w'

theorem letsGo_eq (h : LetsGo w w') (hinv : Inv w order tgt) :
    Inv w' order tgt ∧ w'.pc = w.pc ∧ w'.heap.link = w.heap.link := by
  obtain ⟨x, hx | hx⟩ := h
  · simp only [World.step] at hx
    split at hx
    · rename_i hun
      cases hx
      exact ⟨hinv.release hun, rfl, rfl⟩
    · cases hx
  · simp only [World.step] at hx
    split at hx
    · rename_i hdrop
      cases hx
      exact ⟨hinv.drop hdrop.1 hdrop.2, rfl, rfl⟩
    · cases hx

/-- What the system guarantees to a call on `x`. -/
theorem holds_of_inv (h : Inv w order tgt) {c : Call} (hpc : w.pc t = some (x, c)) :
    Holds w.heap order tgt x c.holds where
  ok := h.shape.heap
  mem := (h.calls t x c hpc).att
  held := (h.calls t x c hpc).held
  live y ha _ := by
    -- No link leads from an entry that was not dropped to one that was released.
    have hkept : ∀ {y}, Along w.heap x y → w.heap.released y = false := by
      intro y ha
      induction ha with
      | first hn => exact h.shape.owned _ _ (h.calls t x c hpc).kept hn
      | skip _ _ hn ih =>
        refine h.shape.owned _ _ ?_ hn
        by_contra hd
        rw [h.shape.released _ ((Bool.not_eq_false _).mp hd)] at ih
        cases ih
    exact hkept ha

/-- The next access of a thread in a call. -/
theorem proceed_eq {c : Call} (hpc : w.pc t = some (x, c)) :
    w.step (.proceed t false) = some (w.called t x (c.step w.heap x false)) := by
  simp only [World.step, hpc]
  rfl

/-- One step of a thread at the call `c`. `Q` does not depend on which entries have been released
or dropped. -/
theorem step_alone {c : Call} (Q : Heap T → Prop)
    (hQ : ∀ h h' : Heap T, h'.link = h.link → Q h → Q h')
    (hend : ∀ w order tgt, Inv w order tgt → w.pc t = some (x, c) → Q w.heap →
      Ends (fun w => w.step (.proceed t false)) LetsGo (fun w => w.pc t = none)
        (w.called t x (c.step w.heap x false)))
    (h : Inv w order tgt) (hpc : w.pc t = some (x, c)) (hq : Q w.heap) :
    Ends (fun w => w.step (.proceed t false)) LetsGo (fun w => w.pc t = none) w := by
  refine Ends.of_step (fun w => Inv w order tgt ∧ w.pc t = some (x, c) ∧ Q w.heap)
    (fun w₁ w₂ h₁ he => ?_) (fun w₁ h₁ => ?_) ⟨h, hpc, hq⟩
  · obtain ⟨hinv, hpc', hlink⟩ := letsGo_eq he h₁.1
    exact ⟨hinv, by rw [hpc']; exact h₁.2.1, hQ _ _ hlink h₁.2.2⟩
  · exact ⟨_, proceed_eq h₁.2.1, hend w₁ order tgt h₁.1 h₁.2.1 h₁.2.2⟩

theorem done_ends {h : Heap T} {res : Res} :
    Ends (fun w => w.step (.proceed t false)) LetsGo (fun w => w.pc t = none)
      (w.called t x (h, .done res)) :=
  .done (Function.update_self ..)

/-- `push_back` returns. -/
theorem pushBack_ends {e : Addr} {mark : Bool} (h : Inv w order tgt)
    (hpc : w.pc t = some (x, .loadLink e mark)) :
    Ends (fun w => w.step (.proceed t false)) LetsGo (fun w => w.pc t = none) w := by
  have hattach : ∀ {w : World T n} {order tgt} {p : Ptr Addr}, Inv w order tgt →
      w.pc t = some (x, .attach e mark p) → w.heap.link x = p →
      Ends (fun w => w.step (.proceed t false)) LetsGo (fun w => w.pc t = none) w := by
    intro w order tgt p h hpc hlink
    refine step_alone (fun h => h.link x = p) (fun _ _ hl hq => by rw [hl]; exact hq)
      (fun w _ _ _ _ hq => ?_) h hpc hlink
    simp only [Call.step, hq]
    exact done_ends
  have hswap : ∀ {w : World T n} {order tgt} {p : Ptr Addr}, Inv w order tgt →
      w.pc t = some (x, .swapLink e mark p) → w.heap.link x = p →
      Ends (fun w => w.step (.proceed t false)) LetsGo (fun w => w.pc t = none) w := by
    intro w order tgt p h hpc hlink
    refine step_alone (fun h => h.link x = p) (fun _ _ hl hq => by rw [hl]; exact hq)
      (fun w order tgt h hpc hq => ?_) h hpc hlink
    obtain ⟨order', tgt', h'⟩ := h.called hpc false
    -- The entry is not the one that it is to be attached to.
    have hne : x ≠ e := by
      rintro rfl
      exact ((h.calls t x _ hpc).entry x rfl).2 (h.calls t x _ hpc).att
    refine hattach h' (Function.update_self ..) ?_
    show Function.update w.heap.link e _ x = p
    rw [Function.update_of_ne hne]
    exact hq
  refine step_alone (fun _ => True) (fun _ _ _ _ => trivial) (fun w order tgt h hpc _ => ?_) h hpc
    trivial
  obtain ⟨order', tgt', h'⟩ := h.called hpc false
  simp only [Call.step] at h' ⊢
  unfold Call.pushLoop at h' ⊢
  split
  · exact done_ends
  · rename_i hlive
    rw [if_neg hlive] at h'
    exact hswap h' (Function.update_self ..) rfl

/-- `mark`, `unmark` and `delete_self` return. -/
theorem updateTag_ends {op : TagOp} (h : Inv w order tgt) (hpc : w.pc t = some (x, .loadTag op)) :
    Ends (fun w => w.step (.proceed t false)) LetsGo (fun w => w.pc t = none) w := by
  refine step_alone (fun _ => True) (fun _ _ _ _ => trivial) (fun w order tgt h hpc _ => ?_) h hpc
    trivial
  obtain ⟨order', tgt', h'⟩ := h.called hpc false
  simp only [Call.step] at h' ⊢
  unfold Call.tagLoop at h' ⊢
  split
  · rename_i hallowed
    rw [if_pos hallowed] at h'
    refine step_alone (fun h => h.link x = w.heap.link x) (fun _ _ hl hq => by rw [hl]; exact hq)
      (fun w _ _ _ _ hq => ?_) h' (Function.update_self ..) rfl
    simp only [Call.step, hq]
    exact done_ends
  · exact done_ends

/-- `next_ptr` returns. -/
theorem nextPtr_returns (h : Inv w order tgt) (hpc : w.pc t = some (x, .nextPtr (.start x))) :
    Ends (fun w => w.step (.proceed t false)) LetsGo (fun w => w.pc t = none) w := by
  refine nextPtr_ends World.heap order tgt x
    (fun w call => Inv w order tgt ∧ w.pc t = some (x, .nextPtr call))
    (fun w call hat => holds_of_inv hat.1 hat.2) (fun w w' call hat he => ?_)
    (fun w call hat => ?_) ⟨h, hpc⟩
  · obtain ⟨hinv, hpc', hlink⟩ := letsGo_eq he hat.1
    exact ⟨⟨hinv, by rw [hpc']; exact hat.2⟩, hlink⟩
  · obtain ⟨h, hpc⟩ := hat
    have h' : Inv (w.called t x ((Call.nextPtr call).step w.heap x false)) order tgt :=
      h.stepped hpc (nextPtr_stepped h.shape (h.calls t x _ hpc))
    refine ⟨_, proceed_eq hpc, fun call' hout => ?_, fun p hout _ => ?_⟩
    · simp only [Call.step, hout, Call.ofNextPtr] at h' ⊢
      exact ⟨⟨h', Function.update_self ..⟩, rfl⟩
    · simp only [Call.step, hout, Call.ofNextPtr]
      exact done_ends

/-- `next_shared` returns. -/
theorem nextShared_returns (h : Inv w order tgt)
    (hpc : w.pc t = some (x, .nextShared (.start x))) :
    Ends (fun w => w.step (.proceed t false)) LetsGo (fun w => w.pc t = none) w := by
  refine nextShared_ends World.heap order tgt x
    (fun w call => Inv w order tgt ∧ w.pc t = some (x, .nextShared call))
    (fun w call hat => holds_of_inv hat.1 hat.2) (fun w w' call hat he => ?_)
    (fun w call hat => ?_) ⟨h, hpc⟩
  · obtain ⟨hinv, hpc', hlink⟩ := letsGo_eq he hat.1
    exact ⟨⟨hinv, by rw [hpc']; exact hat.2⟩, hlink⟩
  · obtain ⟨h, hpc⟩ := hat
    have h' : Inv (w.called t x ((Call.nextShared call).step w.heap x false)) order tgt :=
      h.stepped hpc (nextShared_stepped h.shape (h.calls t x _ hpc))
    refine ⟨_, proceed_eq hpc, fun call' hout => ?_, fun o hout _ => ?_⟩
    · simp only [Call.step, hout, Call.ofNextShared] at h' ⊢
      exact ⟨⟨h', Function.update_self ..⟩, rfl⟩
    · simp only [Call.step, hout, Call.ofNextShared]
      exact done_ends

/-- In every state of every run, a method that a thread calls and runs alone returns. -/
theorem returns (h : Inv w order tgt) (t : Fin n) (x : Addr) (op : Op T) : Returns w t x op := by
  intro w' hw
  obtain ⟨order', tgt', h'⟩ := h.step hw
  simp only [World.step] at hw
  split at hw
  · cases hw
    cases op with
    | pushBack val mark => exact pushBack_ends h' (Function.update_self ..)
    | updateTag op => exact updateTag_ends h' (Function.update_self ..)
    | nextPtr => exact nextPtr_returns h' (Function.update_self ..)
    | nextShared => exact nextShared_returns h' (Function.update_self ..)
  · cases hw

end Sdd.Proofs.SharedList
