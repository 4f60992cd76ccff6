import Sdd.Proofs.LinkedList
import Sdd.Queue

/-!
# `Sdd.Proofs.Queue.Threads`: what the threads of a queue rely on

`Shared w tgt` says how `oldest`, `newest` and the links are related: from `oldest` on, the
entries that are not deleted come in the order in which they were attached, and `newest` is
any entry that was attached, or null. `tgt` is the ghost function that leads each entry to
the first one from it on that is not deleted.

`PcOk` is what a thread knows at the place where it stands. An entry that was found in
`oldest` is the oldest one for as long as it is not deleted (`OldOrDead`), and the entry of
a push is not attached. `Ext` is what the step of another thread leaves as it is, and
`PcOk.ext` says that it is enough.
-/

set_option autoImplicit false

namespace Sdd.Proofs.Queue

open Sdd.Lib Sdd.Queue

variable {T : Type} {n : Nat}

/-- The entries of a queue, in the order in which they were attached. -/
def view (w : World T n) (tgt : Addr → Option Addr) : View :=
  listView w.attached w.heap.isDeleted tgt

/-- How the words of a queue are related. -/
structure Shared (w : World T n) (tgt : Addr → Option Addr) : Prop where
  heap : HeapOk w.heap (view w tgt)
  list : Threaded (next w.heap) tgt w.oldest w.contents
  nodup : w.attached.Nodup
  roots : ∀ x, w.oldest = some x ∨ w.newest = some x →
    x ∈ w.attached ∧ w.heap.released x = false
  unattached : ∀ x, x ∉ w.attached → w.heap.link x = .null

/-- `x` was found in `oldest`: it is the oldest entry, unless it is deleted. -/
def OldOrDead (w : World T n) (x : Addr) : Prop :=
  w.heap.isDeleted x = true ∨ w.oldest = some x

/-- The entry of a push, if it has been created, holds the instance and is not attached. -/
def PushOk (w : World T n) (p : Push T) : Prop :=
  ∀ e, p.entry = some e →
    e < w.heap.nextAddr ∧ e ∉ w.attached ∧ w.heap.value e = some p.val

def CleanOk (w : World T n) : Clean T → Prop
  | .push p => PushOk w p
  | _ => True

/-- What a thread knows. -/
def PcOk (w : World T n) (tgt : Addr → Option Addr) : Pc T → Prop
  | .loadNewest p | .loadOldest p => PushOk w p
  | .traverse p current call =>
    PushOk w p ∧ current ∈ w.attached ∧ CallOk (view w tgt) False current call
  | .attach p e newest => PushOk w p ∧ p.entry = some e ∧ (∀ l, newest = some l → l ∈ w.attached) ∧
      p.cond (newest.bind w.heap.value) = true
  | .swapNewest _ e | .checkOldest _ e | .resetNewest _ e => e ∈ w.attached
  | .cleanLoad k | .cleanReset k => CleanOk w k
  | .cleanDeleted k x => CleanOk w k ∧ x ∈ w.attached ∧ OldOrDead w x
  | .cleanNext k x call => CleanOk w k ∧ x ∈ w.attached ∧ w.heap.isDeleted x = true ∧
      SharedOk (view w tgt) x call
  | .cleanExchange k x next => CleanOk w k ∧ x ∈ w.attached ∧ w.heap.isDeleted x = true ∧
      Returned (view w tgt) True x next
  | .popGetShared _ x | .popDeleted _ x | .peekDeleted x => x ∈ w.attached ∧ OldOrDead w x
  | .popDelete cond x => x ∈ w.attached ∧ OldOrDead w x ∧
      (w.heap.isDeleted x = true ∨ (w.heap.value x).any cond = true)
  | .drop call => ∃ b, CallOk (view w tgt) False b call
  | .idle | .popLoad _ | .peekLoad | .isEmpty => True

/-- The entry that a thread has created for a push and not attached yet. -/
def ownEntry : Pc T → Option Addr
  | .loadNewest p | .loadOldest p | .traverse p _ _ => p.entry
  | .attach _ e _ => some e
  | .cleanLoad (.push p) | .cleanDeleted (.push p) _ | .cleanNext (.push p) _ _
  | .cleanExchange (.push p) _ _ | .cleanReset (.push p) => p.entry
  | _ => none

/-- The step of a thread, which can attach its own entry `own`, leaves to the others what
they rely on. -/
structure Ext (w w' : World T n) (tgt tgt' : Addr → Option Addr) (own : Option Addr) : Prop where
  later : (view w tgt).Later (view w' tgt')
  old : ∀ x, OldOrDead w x → OldOrDead w' x
  value : ∀ x, x < w.heap.nextAddr → w'.heap.value x = w.heap.value x
  nextAddr : w.heap.nextAddr ≤ w'.heap.nextAddr
  attached : ∀ x, x ∈ w'.attached → x ∈ w.attached ∨ own = some x

section ext

variable {w w' : World T n} {tgt tgt' : Addr → Option Addr} {own : Option Addr}

/-- The entry of another push is not attached. -/
theorem PushOk.ext (h : Ext w w' tgt tgt' own) {p : Push T} (hp : PushOk w p)
    (hown : ∀ e, p.entry = some e → own ≠ some e) : PushOk w' p := by
  intro e he
  obtain ⟨hlt, hnot, hval⟩ := hp e he
  refine ⟨Nat.lt_of_lt_of_le hlt h.nextAddr, ?_, (h.value e hlt).trans hval⟩
  intro hmem
  rcases h.attached e hmem with hmem | hmem
  · exact hnot hmem
  · exact hown e he hmem

theorem CleanOk.ext (h : Ext w w' tgt tgt' own) {k : Clean T} (hk : CleanOk w k)
    (hown : ∀ p e, k = .push p → p.entry = some e → own ≠ some e) : CleanOk w' k := by
  cases k with
  | push p => exact PushOk.ext h hk fun e he => hown p e rfl he
  | popped cond e => exact trivial
  | retry cond => exact trivial
  | peek => exact trivial
  | iter => exact trivial

/-- What another thread knows remains true. -/
theorem PcOk.ext (h : Ext w w' tgt tgt' own) (hs : Shared w tgt) {pc : Pc T}
    (hpc : PcOk w tgt pc) (hown : ∀ e, ownEntry pc = some e → own ≠ some e) :
    PcOk w' tgt' pc := by
  have hvalue : ∀ x ∈ w.attached, w'.heap.value x = w.heap.value x :=
    fun x hx => h.value x (hs.heap.bound x hx)
  cases pc with
  | idle => exact trivial
  | loadNewest p => exact PushOk.ext h hpc hown
  | loadOldest p => exact PushOk.ext h hpc hown
  | traverse p current call =>
    obtain ⟨hp, hmem, hcall⟩ := hpc
    exact ⟨hp.ext h hown, h.later.att current hmem, h.later.callOk hcall⟩
  | attach p e newest =>
    obtain ⟨hp, hentry, hmem, hcond⟩ := hpc
    have hown' : ∀ e', p.entry = some e' → own ≠ some e' := by
      intro e' he'
      rw [← he', hentry]
      rw [hentry] at he'
      exact hown e rfl
    refine ⟨hp.ext h hown', hentry, fun l hl => h.later.att l (hmem l hl), ?_⟩
    cases newest with
    | none => exact hcond
    | some l =>
      show p.cond (w'.heap.value l) = true
      rw [hvalue l (hmem l rfl)]
      exact hcond
  | swapNewest p e => exact h.later.att e hpc
  | checkOldest p e => exact h.later.att e hpc
  | resetNewest p e => exact h.later.att e hpc
  | cleanLoad k => exact CleanOk.ext h hpc fun p e hk he => hown e (by rw [hk]; exact he)
  | cleanReset k => exact CleanOk.ext h hpc fun p e hk he => hown e (by rw [hk]; exact he)
  | cleanDeleted k x =>
    obtain ⟨hk, hmem, hold⟩ := hpc
    have hk' := hk.ext h fun p e hk he => hown e (by rw [hk]; exact he)
    exact ⟨hk', h.later.att x hmem, h.old x hold⟩
  | cleanNext k x call =>
    obtain ⟨hk, hmem, hdead, hcall⟩ := hpc
    have hk' := hk.ext h fun p e hk he => hown e (by rw [hk]; exact he)
    exact ⟨hk', h.later.att x hmem, h.later.dead x hdead, h.later.sharedOk hcall⟩
  | cleanExchange k x next =>
    obtain ⟨hk, hmem, hdead, hret⟩ := hpc
    have hk' := hk.ext h fun p e hk he => hown e (by rw [hk]; exact he)
    exact ⟨hk', h.later.att x hmem, h.later.dead x hdead, h.later.returned hret⟩
  | popLoad cond => exact trivial
  | popGetShared cond x => exact ⟨h.later.att x hpc.1, h.old x hpc.2⟩
  | popDeleted cond x => exact ⟨h.later.att x hpc.1, h.old x hpc.2⟩
  | popDelete cond x =>
    obtain ⟨hmem, hold, hcond⟩ := hpc
    refine ⟨h.later.att x hmem, h.old x hold, ?_⟩
    rw [hvalue x hmem]
    exact hcond.imp_left (h.later.dead x)
  | peekLoad => exact trivial
  | peekDeleted x => exact ⟨h.later.att x hpc.1, h.old x hpc.2⟩
  | isEmpty => exact trivial
  | drop call =>
    obtain ⟨b, hcall⟩ := hpc
    exact ⟨b, h.later.callOk hcall⟩

end ext

end Sdd.Proofs.Queue
