import Sdd.Drain
import Sdd.Proofs.Bag.Invariant

/-!
# `Sdd.Proofs.Bag.Drain`: a drained storage stays drained

A fallback storage with any number of calls. `StepOk` is what one access of a call does: it moves
the claims of the call, it makes no slot valid when none is, and it makes no slot instantiated when
none is valid. The flag that `pop` returns is what its last access has done. `Inv` is what holds in
every state, and `drained` puts it together.
-/

set_option autoImplicit false

namespace Sdd.Proofs.Drain

open Sdd.Lib Sdd.Drain Sdd.Storage
open Sdd.Proofs.Bag

variable {bits len n : Nat} {T : Type} {s : Storage bits T} {fails : Bool}

/-- The claims of a call. -/
def claimsOf : Call bits T → Claims T
  | .push val call => pushClaims val call
  | .publish val index _ => claims index (.written val)
  | .pop call => popClaims call
  | .clear _ index _ _ => claims index .taken
  | .popAll call => allClaims call

/-- What a call knows. -/
def CallOk (len : Nat) : Call bits T → Prop
  | .push val call => PushOk len val call
  | .publish _ _ m => instanceBitmap len m &&& ~~~ownedBitmap len m ≠ 0
  | .pop call => PopOk len call
  | .clear _ index m empty => empty = (instanceBitmap len (Call.cleared len m index) == 0)
  | .popAll call => AllOk len call

/-- Every slot that is instantiated in `s'` is so in `s`. -/
def Fewer (len : Nat) (s s' : Storage bits T) : Prop :=
  ∀ i < len, inst len s'.metadata i = true → inst len s.metadata i = true

/-- One access of a call. -/
structure StepOk (len : Nat) (s : Storage bits T) (call : Call bits T)
    (r : Storage bits T × Outcome (Call bits T) (Res T)) : Prop where
  moves : Moves len s r.1 (claimsOf call) (outcome claimsOf (fun _ => unclaimed) r.2)
  ok : outcome (CallOk len) (fun _ => True) r.2
  dead : Dead len s → Dead len r.1
  fewer : Dead len s → Fewer len s r.1
  answer : ∀ val empty, r.2 = .done (.popped val empty) → empty = World.drained len s r.1

theorem Fewer.refl (s : Storage bits T) : Fewer len s s := fun _ _ hi => hi

/-- `push` instantiates a slot in `fetch_update` only. -/
theorem pushCall_fewer (h : ArrayLen bits len) {val : T} {call : PushCall bits T}
    (hk : Knows len s (pushClaims val call)) (hok : PushOk len val call)
    (hne : ∀ index, call ≠ .publish index) : Fewer len s (call.step len false fails s).1 := by
  intro i hi hinst
  cases call with
  | load v | write v index => exact hinst
  | exchange v m index =>
    simp only [PushCall.step] at hinst
    split at hinst
    · rename_i heq
      change inst len (m ||| _) i = true at hinst
      rw [inst_lock h hok.2.1] at hinst
      rw [heq.1]
      exact hinst
    · exact hinst
  | publish index => exact absurd rfl (hne index)
  | readBack index =>
    simp only [PushCall.step] at hinst
    split at hinst <;> exact hinst
  | rollBack v index =>
    obtain ⟨hindex, -⟩ := hk.claimed index _ claims_self
    exact (inst_rollBack h hindex).symm.trans hinst
  | uninit => exact hinst

/-- `pop` instantiates no slot. -/
theorem popCall_fewer (h : ArrayLen bits len) {call : PopCall bits T} (hok : PopOk len call)
    (hne : ∀ inst index, call ≠ .clear inst index) : Fewer len s (call.step len fails s).1 := by
  intro i hi hinst
  cases call with
  | load => exact hinst
  | exchange m index =>
    simp only [PopCall.step] at hinst
    split at hinst
    · rename_i heq
      change inst len (m ||| _) i = true at hinst
      rw [inst_lock h hok.1] at hinst
      rw [heq.1]
      exact hinst
    · exact hinst
  | read index =>
    simp only [PopCall.step] at hinst
    split at hinst <;> exact hinst
  | clear v index => exact absurd rfl (hne v index)
  | uninit => exact hinst

/-- `pop_all` instantiates no slot. -/
theorem allCall_fewer (h : ArrayLen bits len) {call : AllCall bits T}
    (hk : Knows len s (allClaims call)) (hok : AllOk len call) :
    Fewer len s (call.step len fails s).1 := by
  intro i hi hinst
  cases call with
  | load acc => exact hinst
  | exchange acc m instances =>
    cases hok
    simp only [AllCall.step] at hinst
    split at hinst
    · rename_i heq
      change inst len (m ||| _) i = true at hinst
      rw [← heq.1, inst_lockAll fun j hj => ?_] at hinst
      · exact hinst
      · rw [getLsbD_instancesToPop h hk.high, Bool.and_eq_true] at hj
        exact of_decide_eq_true hj.1
    · exact hinst
  | fold acc m instances index =>
    simp only [AllCall.step] at hinst
    split at hinst <;> exact hinst
  | unlock acc m instances =>
    simp only [AllCall.step] at hinst
    split at hinst
    · rename_i heq
      change inst len (m &&& _) i = true at hinst
      rw [inst_unlock h hi hok, Bool.and_eq_true] at hinst
      rw [heq.1]
      exact hinst.1
    · exact hinst
  | uninit acc => exact hinst

/-- A storage without instantiated slots has no valid ones. -/
theorem dead_of_empty (hnone : ∀ i < len, inst len s.metadata i = false) : Dead len s := by
  intro i hi
  unfold valid
  rw [hnone i hi, Bool.false_and]

/-- The instance bitmap is zero if no slot is instantiated. -/
theorem bitmap_eq_zero (hhigh : High len s.metadata)
    (hnone : ∀ i < len, inst len s.metadata i = false) : instanceBitmap len s.metadata = 0 := by
  by_contra hne
  obtain ⟨i, hi, hinst⟩ := inst_of_ne_zero hhigh hne
  rw [hnone i hi] at hinst
  cases hinst

/-- A step that leaves the metadata drains nothing. -/
theorem drained_same {s' : Storage bits T} (hm : s'.metadata = s.metadata) :
    World.drained len s s' = false := by
  unfold World.drained
  rw [hm]
  cases hzero : instanceBitmap len s.metadata == 0 with
  | true => simp [beq_iff_eq.mp hzero]
  | false => simp

/-- The closure of `pop` is called on `m`. -/
theorem clearing_ok {call : Call bits T} {val : T} {index : Nat} {m : BitVec bits}
    (hk : Knows len s (claims index .taken)) (hc : claimsOf call = claims index .taken) :
    StepOk len s call (s, Call.clearing len val index m) where
  moves := by
    rw [hc]
    exact hk.stays (v := 0) |>.moves
  ok := rfl
  dead hd := hd
  fewer _ := .refl s
  answer _ _ hres := by cases hres

/-- The closure of `push` is called on `m`. -/
theorem publishing_ok {call : Call bits T} {val : T} {index : Nat} {m : BitVec bits}
    (hk : Knows len s (claims index (.written val)))
    (hc : claimsOf call = claims index (.written val)) :
    StepOk len s call (s, Call.publishing len val index m) := by
  have hstays := (hk.stays (v := 0)).moves
  unfold Call.publishing
  split
  · exact ⟨by rw [hc]; exact hstays, trivial, fun hd => hd, fun _ => .refl s, nofun⟩
  · rename_i hvalid
    exact ⟨by rw [hc]; exact hstays, hvalid, fun hd => hd, fun _ => .refl s, nofun⟩

/-- One access of a call. -/
theorem step_ok (h : ArrayLen bits len) {call : Call bits T} (hk : Knows len s (claimsOf call))
    (hok : CallOk len call) : StepOk len s call (call.step len fails s) := by
  cases call with
  | push val call =>
    by_cases hpub : ∃ index, call = .publish index
    · obtain ⟨index, rfl⟩ := hpub
      exact publishing_ok hk rfl
    · have hne : ∀ index, call ≠ .publish index := fun index hc => hpub ⟨index, hc⟩
      have hstep : PushStep len val s call (call.step len false fails s) := pushCall_step h hk hok
      have hr : (Call.push val call).step len fails s = ((call.step len false fails s).1,
          Call.pushed val (call.step len false fails s).2) := by
        cases call with
        | publish index => exact absurd rfl (hne index)
        | _ => rfl
      rw [hr]
      refine ⟨?_, ?_, pushCall_dead h hk hok, fun _ => pushCall_fewer h hk hok hne, ?_⟩
      · have hmoves := hstep.step.moves
        cases hout : (call.step len false fails s).2 with
        | running call' | done res =>
          rw [hout] at hmoves
          exact hmoves
      · have hok' := hstep.ok
        cases hout : (call.step len false fails s).2 with
        | running call' =>
          rw [hout] at hok'
          exact hok'
        | done res => exact trivial
      · intro v empty hres
        cases hout : (call.step len false fails s).2 with
        | running call' | done res =>
          rw [hout] at hres
          cases hres
  | publish val index m =>
    simp only [Call.step]
    split
    · rename_i heq
      obtain ⟨rfl, -⟩ := heq
      have hlive : ¬Dead len s := fun hd => hok ((valid_eq_zero h hk.high).mpr hd)
      exact ⟨(hk.publish (v := 0) h).moves, trivial, fun hd => absurd hd hlive,
        fun hd => absurd hd hlive, nofun⟩
    · exact publishing_ok hk rfl
  | pop call =>
    by_cases hclear : ∃ val index, call = .clear val index
    · obtain ⟨val, index, rfl⟩ := hclear
      exact clearing_ok hk rfl
    · have hne : ∀ val index, call ≠ .clear val index := fun val index hc => hclear ⟨val, index, hc⟩
      have hstep : PopStep len s call (call.step len fails s) := popCall_step h hk hok
      have hr : (Call.pop call).step len fails s = ((call.step len fails s).1,
          Call.popped (call.step len fails s).2) := by
        cases call with
        | clear val index => exact absurd rfl (hne val index)
        | _ => rfl
      rw [hr]
      refine ⟨?_, ?_, popCall_dead h hk hok, fun _ => popCall_fewer h hok hne, ?_⟩
      · have hmoves := hstep.step.moves
        cases hout : (call.step len fails s).2 with
        | running call' | done res =>
          rw [hout] at hmoves
          exact hmoves
      · have hok' := hstep.ok
        cases hout : (call.step len fails s).2 with
        | running call' =>
          rw [hout] at hok'
          exact hok'
        | done res => exact trivial
      · -- Outside of `fetch_update`, `pop` returns when it finds nothing.
        intro v empty hres
        have hloop : ∀ m : BitVec bits, Call.popped (PopCall.loop len m : Outcome (PopCall bits T) _)
            = .done (.popped v empty) → empty = false := by
          intro m hm
          unfold PopCall.loop at hm
          simp only at hm
          split at hm <;> cases hm
          rfl
        cases call with
        | load =>
          rw [hloop _ hres]
          exact (drained_same rfl).symm
        | exchange m index =>
          simp only [PopCall.step] at hres ⊢
          split at hres
          · cases hres
          · rename_i hneq
            rw [if_neg hneq, hloop _ hres]
            exact (drained_same rfl).symm
        | read index =>
          simp only [PopCall.step] at hres
          split at hres <;> cases hres
        | clear val index => exact absurd rfl (hne val index)
        | uninit => cases hres
  | clear val index m empty =>
    simp only [Call.step]
    split
    · rename_i heq
      obtain ⟨rfl, -⟩ := heq
      obtain ⟨hindex, -, hinst, -⟩ := hk.claimed index _ claims_self
      have hcleared : ∀ i, inst len (Call.cleared len s.metadata index) i =
          (inst len s.metadata i && !decide (i = index)) := fun i => inst_clear h hindex
      refine ⟨(hk.clear (v := 0) h).moves, trivial, fun hd => ?_, fun _ i _ hi => ?_, ?_⟩
      · refine hd.of_valid fun i hi hv => ?_
        exact (Bool.and_eq_true_iff.mp ((valid_clear h hindex hi).symm.trans hv)).1
      · exact (Bool.and_eq_true_iff.mp ((hcleared i).symm.trans hi)).1
      · intro v b hres
        cases hres
        -- The slot was instantiated, so that the bitmap was not zero.
        have hne : instanceBitmap len s.metadata ≠ 0 := by
          intro hzero
          have hno := inst_eq_zero h hzero hindex
          rw [show inst len s.metadata index = true from hinst] at hno
          cases hno
        unfold World.drained
        rw [bne_iff_ne.mpr hne, Bool.true_and]
        exact hok
    · exact clearing_ok hk rfl
  | popAll call =>
    have hstep : AllStep len s call (call.step len fails s) := allCall_step h hk hok
    refine ⟨?_, ?_, allCall_dead h hk hok, fun _ => allCall_fewer h hk hok, ?_⟩
    · have hmoves := hstep.step.moves
      simp only [Call.step]
      cases hout : (call.step len fails s).2 with
      | running call' | done res =>
        rw [hout] at hmoves
        exact hmoves
    · have hok' := hstep.ok
      simp only [Call.step]
      cases hout : (call.step len fails s).2 with
      | running call' =>
        rw [hout] at hok'
        exact hok'
      | done res => exact trivial
    · intro v empty hres
      simp only [Call.step] at hres
      cases hout : (call.step len fails s).2 with
      | running call' | done res =>
        rw [hout] at hres
        cases hres

section run

variable {w w' : World bits T n}

/-- The claims of the call that a thread is in. -/
def callClaims (c : Option (Call bits T)) : Claims T := c.elim unclaimed claimsOf

/-- No slot is instantiated. -/
def Empty (len : Nat) (s : Storage bits T) : Prop := ∀ i < len, inst len s.metadata i = false

/-- What holds in every state. -/
structure Inv (len : Nat) (w : World bits T n) : Prop where
  storage : StorageInv len w.storage fun t => callClaims (w.call t)
  ok : ∀ t call, w.call t = some call → CallOk len call
  drains : w.drains = 0 ∨ w.drains = 1 ∧ Empty len w.storage
  answers : ∀ a ∈ w.answers, (∀ val empty, a.res = .popped val empty → empty = a.drained) ∧
    (a.drained = true → w.drains = 1)

/-- A storage that is drained is empty, and was not before. -/
theorem drained_iff (h : ArrayLen bits len) {s' : Storage bits T} (hm : High len s.metadata)
    (hm' : High len s'.metadata) :
    World.drained len s s' = true ↔ ¬Empty len s ∧ Empty len s' := by
  have hzero : ∀ {s : Storage bits T}, High len s.metadata →
      (instanceBitmap len s.metadata = 0 ↔ Empty len s) := fun hm =>
    ⟨fun hzero i hi => inst_eq_zero h hzero hi, bitmap_eq_zero hm⟩
  unfold World.drained
  rw [Bool.and_eq_true, bne_iff_ne, beq_iff_eq, ne_eq, hzero hm, hzero hm']

/-- A thread makes the next access of its call. -/
theorem Inv.called (h : ArrayLen bits len) (hinv : Inv len w) {t : Fin n} {call : Call bits T}
    (hcall : w.call t = some call) : Inv len (w.called len t (call.step len fails w.storage)) ∧
      (Dead len w.storage → Dead len (call.step len fails w.storage).1) ∧
      (w.drains = 1 → (w.called len t (call.step len fails w.storage)).drains = 1) := by
  have hk : Knows len w.storage (claimsOf call) := by
    have hk := hinv.storage.knows t
    rw [hcall] at hk
    exact hk
  have hstep : StepOk len w.storage call (call.step len fails w.storage) :=
    step_ok h hk (hinv.ok t call hcall)
  generalize call.step len fails w.storage = r at hstep
  have hmoves : Moves len w.storage r.1 ((w.call t).elim unclaimed claimsOf)
      (outcome claimsOf (fun _ => unclaimed) r.2) := by
    rw [hcall]
    exact hstep.moves
  have hmove := hinv.storage.move hmoves
  have hdrained := drained_iff h hinv.storage.high hmove.high
  have hafter : (w.called len t r).drains = 0 ∨
      (w.called len t r).drains = 1 ∧ Empty len r.1 := by
    show (if World.drained len w.storage r.1 then w.drains + 1 else w.drains) = 0 ∨ _
    by_cases hd : World.drained len w.storage r.1 = true
    · rw [World.called, if_pos hd]
      obtain ⟨hfull, hempty⟩ := hdrained.mp hd
      rcases hinv.drains with hzero | ⟨-, hbefore⟩
      · rw [hzero]
        exact .inr ⟨rfl, hempty⟩
      · exact absurd hbefore hfull
    · rw [World.called, if_neg hd]
      -- An empty storage has no valid slots, and stays empty.
      refine hinv.drains.imp id fun hone => ⟨hone.1, fun i hi => ?_⟩
      by_contra hinst
      have hold := hstep.fewer (dead_of_empty hone.2) i hi ((Bool.not_eq_false _).mp hinst)
      rw [hone.2 i hi] at hold
      cases hold
  have hgrows : w.drains = 1 → (w.called len t r).drains = 1 := by
    intro hone
    rcases hafter with hzero | hafter
    · rw [World.called] at hzero
      simp only at hzero
      split at hzero <;> omega
    · exact hafter.1
  refine ⟨?_, hstep.dead, hgrows⟩
  constructor
  case storage =>
    refine cast ?_ hmove
    congr 1
    funext u
    show _ = callClaims (Function.update w.call t _ u)
    by_cases hu : u = t
    · rw [hu, Function.update_self, Function.update_self]
      cases r.2 <;> rfl
    · rw [Function.update_of_ne hu, Function.update_of_ne hu]
  case ok =>
    intro u c hc
    change Function.update w.call t _ u = some c at hc
    by_cases hu : u = t
    · rw [hu, Function.update_self] at hc
      have hok := hstep.ok
      cases hout : r.2 with
      | running call' =>
        rw [hout] at hc hok
        cases hc
        exact hok
      | done res =>
        rw [hout] at hc
        cases hc
    · rw [Function.update_of_ne hu] at hc
      exact hinv.ok u c hc
  case drains => exact hafter
  case answers =>
    intro a ha
    have hold : a ∈ w.answers → (∀ val empty, a.res = .popped val empty → empty = a.drained) ∧
        (a.drained = true → (w.called len t r).drains = 1) := fun ha =>
      ⟨(hinv.answers a ha).1, fun hd => hgrows ((hinv.answers a ha).2 hd)⟩
    simp only [World.called] at ha
    cases hout : r.2 with
    | running call' =>
      rw [hout] at ha
      exact hold ha
    | done res =>
      rw [hout] at ha
      rcases List.mem_cons.mp ha with rfl | ha
      · refine ⟨fun val empty hres => ?_, fun hd => ?_⟩
        · change res = _ at hres
          rw [hres] at hout
          exact hstep.answer val empty hout
        · rcases hafter with hzero | hafter
          · change (if World.drained len w.storage r.1 then w.drains + 1 else w.drains) = 0 at hzero
            rw [if_pos hd] at hzero
            cases hzero
          · exact hafter.1
      · exact hold ha

/-- Every action keeps the invariant, and makes no slot valid if none is. -/
theorem Inv.step (h : ArrayLen bits len) (hinv : Inv len w) {a : Action T n}
    (hw : w.step len a = some w') :
    Inv len w' ∧ (Dead len w.storage → Dead len w'.storage) ∧
      (w.drains = 1 → w'.drains = 1) := by
  cases a with
  | proceed t fails =>
    obtain ⟨call, hcall, rfl⟩ := Option.map_eq_some_iff.mp hw
    exact hinv.called h hcall
  | invoke t op =>
    simp only [World.step] at hw
    split at hw
    · rename_i hidle
      cases hw
      have hstart : claimsOf (.start op : Call bits T) = unclaimed := by cases op <;> rfl
      refine ⟨⟨cast ?_ hinv.storage, fun u c hc => ?_, hinv.drains, hinv.answers⟩, fun hd => hd,
        fun hd => hd⟩
      · congr 1
        funext u
        show _ = callClaims (Function.update w.call t _ u)
        by_cases hu : u = t
        · rw [hu, Function.update_self, hidle]
          exact hstart.symm
        · rw [Function.update_of_ne hu]
      · change Function.update w.call t _ u = some c at hc
        by_cases hu : u = t
        · rw [hu, Function.update_self] at hc
          cases hc
          cases op with
          | push val => exact rfl
          | pop | popAll => exact trivial
        · rw [Function.update_of_ne hu] at hc
          exact hinv.ok u c hc
    · cases hw

/-- The invariant of a new storage. -/
theorem inv_init (h : ArrayLen bits len) (val : T) :
    Inv len (World.init len val : World bits T n) where
  storage := (withVal_inv h val).1
  ok _ _ hc := by cases hc
  drains := .inl rfl
  answers _ ha := by cases ha

/-- Once no slot of a fallback storage is instantiated and not owned, no slot is so again; at most
one step brings the instance bitmap to zero, `pop` says so exactly when its own last step has done
it, and then no slot is instantiated again. -/
theorem drained {val : T} (h : ArrayLen bits len)
    (hbefore : Run (World.step len) (fun _ _ => True) (World.init len val) w)
    (hrun : Run (World.step len) (fun _ _ => True) w w') :
    (Dead len w.storage → Dead len w'.storage) ∧ w'.drains ≤ 1 ∧
      (∀ a ∈ w'.answers, ∀ v empty, a.res = .popped v empty → (empty = true ↔ a.drained = true)) ∧
      ∀ a ∈ w.answers, ∀ v, a.res = .popped v true →
        instanceBitmap len w'.storage.metadata = 0 ∧ Dead len w'.storage := by
  have hinv : Inv len w := hbefore.invariant (Inv len) (inv_init h val)
    fun _ _ _ hx _ hs => (hx.step h hs).1
  obtain ⟨hinv', hdead, hkept⟩ := hrun.invariant
    (fun x => Inv len x ∧ (Dead len w.storage → Dead len x.storage) ∧
      (w.drains = 1 → x.drains = 1)) ⟨hinv, fun hd => hd, fun hd => hd⟩ fun x a x' hx _ hs => by
    obtain ⟨hxinv, hxdead, hxkept⟩ := hx
    obtain ⟨hinv', hdead, hkept⟩ := hxinv.step h hs
    exact ⟨hinv', fun hd => hdead (hxdead hd), fun hd => hkept (hxkept hd)⟩
  refine ⟨hdead, ?_, fun a ha v empty hres => ?_, fun a ha v hres => ?_⟩
  · rcases hinv'.drains with hzero | hone
    · omega
    · omega
  · rw [(hinv'.answers a ha).1 v empty hres]
  · -- The drain has happened before, and there is no other one.
    have hdrained : a.drained = true := ((hinv.answers a ha).1 v true hres).symm
    rcases hinv'.drains with hzero | ⟨-, hempty⟩
    · rw [hkept ((hinv.answers a ha).2 hdrained)] at hzero
      cases hzero
    · exact ⟨bitmap_eq_zero hinv'.storage.high hempty, dead_of_empty hempty⟩

/-- `pop` has returned the last value, and no other call has returned. -/
def tookLast (w : World 64 Nat 2) : Bool :=
  match w.answers with
  | [⟨.popped (some 7) true, true⟩] => true
  | _ => false

/-- A thread has claimed a slot in `push(5, false)`. Another one takes the only value. -/
def takes (t u : Fin 2) : List (Action Nat 2) :=
  [.invoke t (.push 5), .proceed t false, .proceed t false, .proceed t false, .invoke u .pop,
    .proceed u false, .proceed u false, .proceed u false, .proceed u false, .proceed u false]

/-- Thread 0 rolls back, and gets its value back. -/
def rollsBack (w : World 64 Nat 2) : Bool :=
  match w.answers with
  | ⟨.pushed (some 5), false⟩ :: _ => true
  | _ => false

theorem drained_two : ∃ w w' : World 64 Nat 2, tookLast w = true ∧ rollsBack w' = true ∧
    w'.drains ≤ 1 ∧ Dead 2 w'.storage := by
  have hlen : ArrayLen 64 2 := ⟨by decide, by decide, by decide⟩
  have hex : (exec (World.step 2) (fun _ _ => true) (World.init 2 7 : World 64 Nat 2)
      (takes 0 1)).any (fun w => tookLast w && (exec (World.step 2) (fun _ _ => true) w
        [.proceed 0 false, .proceed 0 false, .proceed 0 false]).any rollsBack) = true := by
    decide +kernel
  obtain ⟨w, hbefore, hw⟩ := Run.of_exec_any hex
  obtain ⟨htook, hw⟩ := (Bool.and_eq_true _ _).mp hw
  obtain ⟨w', hrun, hback⟩ := Run.of_exec_any hw
  obtain ⟨-, hdrains, -, hmarked⟩ := drained hlen (hbefore.mono fun _ _ _ => trivial)
    (hrun.mono fun _ _ _ => trivial)
  refine ⟨w, w', htook, hback, hdrains, ?_⟩
  unfold tookLast at htook
  split at htook
  · rename_i heq
    exact (hmarked _ (by rw [heq]; exact List.mem_cons_self) (some 7) rfl).2
  · cases htook

end run

end Sdd.Proofs.Drain
