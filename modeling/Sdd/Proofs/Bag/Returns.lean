import Sdd.Proofs.Bag.Alone

/-!
# `Sdd.Proofs.Bag.Returns`: the methods of a bag return

The main result is `returns`: in every state of a run, a method of a bag that a thread calls and
runs alone returns, whatever slots the other threads own. The lemmas follow the calls from their
last part to the first one. A call of `pop_all` pops the entries of a stack that no other thread
uses: they become fewer with each turn of its loop.
-/

set_option autoImplicit false

namespace Sdd.Proofs.Bag

open Sdd.Lib
open Sdd.Bag (Mem Call Pc Op Res World)

variable {bits n len : Nat} {T : Type} {w : World bits T n} {t : Fin n}

/-- The call has returned. -/
def Idle (t : Fin n) (w : World bits T n) : Prop := w.pc t = .idle

section calls

variable (hlen : ArrayLen bits len)
include hlen

/-- `pop` of the primary storage returns. -/
theorem popPrimary_ends (h : Inv len w.mem w.pc) (hpc : w.pc t = .call (.popPrimary .load)) :
    Solo len t (Idle t) w := by
  refine storage_ends hlen none (fun s c => c.step len false s) PopSolo popRank .popPrimary
    Call.poppedPrimary (fun _ => True) (fun _ _ => rfl) (fun _ => rfl) (fun w c c' h hpc hs => ?_)
    (fun _ _ _ => trivial) (fun _ _ _ => trivial) (fun w r _ hpc _ => .done ?_) h hpc trivial trivial
  · refine popCall_alone hs fun hc => ?_
    subst hc
    exact h.calls t _ hpc
  · exact hpc

/-- `pop` deletes an entry. -/
theorem popDelete_ends {x : Addr} {val : Option T} (h : Inv len w.mem w.pc)
    (hpc : w.pc t = .call (.popDelete x val)) : Solo len t (Idle t) w := by
  refine Ends.of_step (fun w => Inv len w.mem w.pc ∧ w.pc t = .call (.popDelete x val))
    (fun w w' hat he => ?_) (fun w hat => ⟨_, proceed_eq hat.2, ?_⟩) ⟨h, hpc⟩
  · obtain ⟨y, rfl, h', -⟩ := releases_eq hat.1 he
    exact ⟨h', hat.2⟩
  · have h' := called_inv hlen false hat.1 hat.2
    cases val with
    | some v => exact .done (Function.update_self ..)
    | none => exact popPrimary_ends hlen h' (Function.update_self ..)

/-- `pop` of the storage in an entry returns. -/
theorem popStorage_ends {x : Addr} (h : Inv len w.mem w.pc)
    (hpc : w.pc t = .call (.popStorage x .load)) : Solo len t (Idle t) w := by
  refine storage_ends hlen (some x) (fun s c => c.step len false s) PopSolo popRank (.popStorage x)
    (Call.poppedStorage x) (fun _ => True) (fun _ _ => rfl) (fun _ => rfl)
    (fun w c c' h hpc hs => ?_) (fun _ _ _ => trivial) (fun _ _ _ => trivial)
    (fun w r h hpc _ => ?_) h hpc trivial trivial
  · refine popCall_alone hs fun hc => ?_
    subst hc
    exact h.calls t _ hpc
  · obtain ⟨val, empty⟩ := r
    cases empty with
    | true => exact popDelete_ends hlen h hpc
    | false =>
      cases val with
      | some v => exact .done hpc
      | none => exact popPrimary_ends hlen h hpc

/-- `pop` returns. -/
theorem popPeek_ends (h : Inv len w.mem w.pc) (hpc : w.pc t = .call (.popPeek (.start .peek))) :
    Solo len t (Idle t) w := by
  refine stack_ends hlen none .popPeek Call.popPeeked _ (fun _ _ => rfl) (fun _ => rfl)
    (fun _ _ => rfl) (fun w res h hpc _ => ?_) h hpc (Nat.le_refl _)
  cases res with
  | peeked o =>
    cases o with
    | some x => exact popStorage_ends hlen h hpc
    | none => exact popPrimary_ends hlen h hpc
  | _ => exact popPrimary_ends hlen h hpc

/-- `push_unchecked` returns. -/
theorem pushNew_ends {val : T} (h : Inv len w.mem w.pc)
    (hpc : w.pc t = .call (.pushNew val (.start (.push (.withVal len val))))) :
    Solo len t (Idle t) w :=
  stack_ends hlen none (.pushNew val) (Call.pushedNew val) _ (fun _ _ => rfl) (fun _ => rfl)
    (fun _ _ => rfl) (fun _ _ _ hpc _ => .done hpc) h hpc (Nat.le_refl _)

/-- `push` of the storage in an entry returns. -/
theorem pushStorage_ends {val : T} {x : Addr} (h : Inv len w.mem w.pc)
    (hpc : w.pc t = .call (.pushStorage val x (.load val))) : Solo len t (Idle t) w := by
  refine storage_ends hlen (some x) (fun s c => c.step len false false s) PushSolo pushRank
    (.pushStorage val x) (Call.pushedStorage len val x) (fun _ => True) (fun _ _ => rfl)
    (fun _ => rfl) (fun w c c' h hpc hs => ?_) (fun _ _ _ => trivial) (fun _ _ _ => trivial)
    (fun w r h hpc _ => ?_) h hpc trivial trivial
  · refine pushCall_alone hs fun hc => ?_
    subst hc
    exact h.calls t _ hpc
  · cases r with
    | none => exact .done hpc
    | some v => exact pushNew_ends hlen h hpc

/-- `push` returns when the primary storage is full. -/
theorem pushPeek_ends {val : T} (h : Inv len w.mem w.pc)
    (hpc : w.pc t = .call (.pushPeek val (.start .peek))) : Solo len t (Idle t) w := by
  refine stack_ends hlen none (.pushPeek val) (Call.pushPeeked len val) _ (fun _ _ => rfl)
    (fun _ => rfl) (fun _ _ => rfl) (fun w res h hpc _ => ?_) h hpc (Nat.le_refl _)
  cases res with
  | peeked o =>
    cases o with
    | some x => exact pushStorage_ends hlen h hpc
    | none => exact pushNew_ends hlen h hpc
  | _ => exact pushNew_ends hlen h hpc

/-- `push` and `try_push` return. -/
theorem pushPrimary_ends {tries : Bool} {val : T} (h : Inv len w.mem w.pc)
    (hpc : w.pc t = .call (.pushPrimary tries val (.load val))) : Solo len t (Idle t) w := by
  refine storage_ends hlen none (fun s c => c.step len true false s) PushSolo pushRank
    (.pushPrimary tries val) (Call.pushedPrimary tries val) (fun _ => True) (fun _ _ => rfl)
    (fun _ => rfl) (fun w c c' h hpc hs => ?_) (fun _ _ _ => trivial) (fun _ _ _ => trivial)
    (fun w r h hpc _ => ?_) h hpc trivial trivial
  · refine pushCall_alone hs fun hc => ?_
    subst hc
    exact h.calls t _ hpc
  · cases r with
    | none => exact .done hpc
    | some v =>
      cases tries with
      | true => exact .done hpc
      | false => exact pushPeek_ends hlen h hpc

/-- `pop_all` of the primary storage returns. -/
theorem allPrimary_ends {acc : List T} (h : Inv len w.mem w.pc)
    (hpc : w.pc t = .call (.allPrimary (.load acc))) : Solo len t (Idle t) w :=
  storage_ends hlen none (fun s c => c.step len false s) AllSolo (allRank len) .allPrimary
    Call.allTakenPrimary (fun _ => True) (fun _ _ => rfl) (fun _ => rfl)
    (fun _ _ _ h hpc hs => allCall_alone hlen hs (h.calls t _ hpc)) (fun _ _ _ => trivial)
    (fun _ _ _ => trivial) (fun _ _ _ hpc _ => .done hpc) h hpc trivial trivial

/-- `pop_all` returns. The induction is on the number of entries that are left. -/
theorem allPop_ends {acc : List T} {K : Nat} (h : Inv len w.mem w.pc)
    (hpc : w.pc t = .call (.allPop acc (.start .pop)))
    (hK : (w.mem.family.mem (some t)).contents.length = K) : Solo len t (Idle t) w := by
  induction K using Nat.strongRecOn generalizing w acc with
  | _ K ih =>
    refine stack_ends hlen (some t) (.allPop acc) (Call.allPopped acc) K (fun _ _ => rfl)
      (fun _ => rfl) (fun _ _ => rfl) (fun w res h hpc hpop => ?_) h hpc (Nat.le_of_eq hK)
    cases res with
    | popped o =>
      cases o with
      | none => exact allPrimary_ends hlen h hpc
      | some x =>
        -- The storage in the entry is emptied.
        exact storage_ends hlen (some x) (fun s c => c.step len false s) AllSolo (allRank len)
          (.allStorage x) (Call.allTaken x)
          (fun m => (m.family.mem (some t)).contents.length < K) (fun _ _ => rfl) (fun _ => rfl)
          (fun _ _ _ h hpc hs => allCall_alone hlen hs (h.calls t _ hpc).1)
          (fun m s hm => by rw [contents_set]; exact hm) (fun _ _ hm => hm)
          (fun w r h hpc hlt => ih _ hlt h hpc rfl) h hpc trivial (hpop x rfl)
    | _ => exact allPrimary_ends hlen h hpc

/-- The stack is swapped, and then emptied. -/
theorem allSwap_ends (h : Inv len w.mem w.pc) (hpc : w.pc t = .call .allSwap) :
    Solo len t (Idle t) w := by
  refine Ends.of_step (fun w => Inv len w.mem w.pc ∧ w.pc t = .call .allSwap)
    (fun w w' hat he => ?_) (fun w hat => ⟨_, proceed_eq hat.2, ?_⟩) ⟨h, hpc⟩
  · obtain ⟨y, rfl, h', -⟩ := releases_eq hat.1 he
    exact ⟨h', hat.2⟩
  · exact allPop_ends hlen (called_inv hlen false hat.1 hat.2) (Function.update_self ..) rfl

/-- In every state of every run, a method that a thread begins and runs alone returns. -/
theorem returns (h : Inv len w.mem w.pc) (t : Fin n) (op : Op T) : w.Returns len t op := by
  intro w' hw
  have hinv := inv_step hlen h hw
  cases stepped hw with
  | invoke t op hpc =>
    cases op with
    | push val => exact pushPrimary_ends hlen hinv (Function.update_self ..)
    | tryPush val => exact pushPrimary_ends hlen hinv (Function.update_self ..)
    | pop => exact popPeek_ends hlen hinv (Function.update_self ..)
    | popAll => exact allSwap_ends hlen hinv (Function.update_self ..)

end calls

end Sdd.Proofs.Bag
