import Sdd.GetShared
import Sdd.Proofs.RefCounted

/-!
# `Sdd.Proofs.GetShared`: what a new handle points to

A call of `get_shared` always knows the word it has loaded last, and that word is among those
that `self` has held since the invocation (`CallOk`). `answered` sums up what a return says:
the new reference is to the instance of the last loaded word, the tag of that word is
gone, and the instance had handles when the reference was added, because its word was odd.
-/

set_option autoImplicit false

namespace Sdd.Proofs.GetShared

open Sdd.RefCounted (Tid InstId CellId World Pc)
open Sdd.RefCounted.World
open Sdd.GetShared
open Sdd.Proofs.RefCounted (Few FewRun passing)

variable {w w' : World} {s s' : State} {t t' : Tid} {i : InstId} {l : CellId} {bits : Nat}

/-! ## Steps of the world -/

/-- A call moves no other thread. -/
theorem pc_of_call {act : RefCounted.Act} (h : w.call t act = some w') (ht : t' ≠ t) :
    w'.pc t' = w.pc t' := by
  -- The calls write the place of the calling thread only.
  cases act with
  | proceed spurious => cases h
  | collect next => cases h
  | newShared =>
    cases h
    rfl
  | newUnique =>
    cases h
    rfl
  | null =>
    cases h
    rfl
  | «from» i =>
    obtain ⟨_, hw⟩ := Option.ite_none_right_eq_some.mp h
    cases hw
    rfl
  | clone i =>
    obtain ⟨_, hw⟩ := Option.ite_none_right_eq_some.mp h
    cases hw
    exact Function.update_of_ne ht _ _
  | getShared cell =>
    obtain ⟨_, _, rfl⟩ := Option.map_eq_some_iff.mp h
    exact Function.update_of_ne ht _ _
  | ptrGetShared i =>
    obtain ⟨_, hw⟩ := Option.ite_none_right_eq_some.mp h
    cases hw
    exact Function.update_of_ne ht _ _
  | swap cell new tag =>
    obtain ⟨_, h⟩ := Option.ite_none_right_eq_some.mp h
    obtain ⟨prev, _, rfl⟩ := Option.map_eq_some_iff.mp h
    simp [exchange, setCell]
  | compareExchange cell current new tag spurious =>
    obtain ⟨_, h⟩ := Option.ite_none_right_eq_some.mp h
    obtain ⟨prev, _, rfl⟩ := Option.map_eq_some_iff.mp h
    split
    · simp [exchange, setCell]
    · rfl
  | updateTag cell tag =>
    obtain ⟨_, _, rfl⟩ := Option.map_eq_some_iff.mp h
    rfl
  | intoShared cell =>
    obtain ⟨p, _, rfl⟩ := Option.map_eq_some_iff.mp h
    simp [setCell, ht]
  | dropAtomic cell =>
    obtain ⟨p, _, rfl⟩ := Option.map_eq_some_iff.mp h
    simp [setCell, ht]
  | drop i =>
    obtain ⟨_, hw⟩ := Option.ite_none_right_eq_some.mp h
    cases hw
    exact Function.update_of_ne ht _ _
  | release i =>
    obtain ⟨_, hw⟩ := Option.ite_none_right_eq_some.mp h
    cases hw
    exact Function.update_of_ne ht _ _
  | dropOwned i =>
    obtain ⟨_, hw⟩ := Option.ite_none_right_eq_some.mp h
    cases hw
    simp [ht]
  | send i receiver =>
    obtain ⟨_, hw⟩ := Option.ite_none_right_eq_some.mp h
    cases hw
    simp
  | setNextPtr i next =>
    obtain ⟨_, hw⟩ := Option.ite_none_right_eq_some.mp h
    cases hw
    simp [ht]

/-- An access of a call moves no other thread and leaves the cells alone. -/
theorem proceed_frame {spurious : Bool} (h : w.proceed bits t spurious = some w') :
    (∀ t', t' ≠ t → w'.pc t' = w.pc t') ∧ w'.cells = w.cells := by
  have hdone : ∀ (x : World) j cell ok,
      (∀ t', t' ≠ t → (x.tryAddRefDone t j cell ok).pc t' = x.pc t') ∧
      (x.tryAddRefDone t j cell ok).cells = x.cells := by
    intro x j cell ok
    cases ok <;> cases cell <;> exact ⟨fun t' ht => by simp [tryAddRefDone, ht], rfl⟩
  have hloaded : ∀ j cell r, (∀ t', t' ≠ t → (w.tryAddRefLoaded t j cell r).pc t' = w.pc t') ∧
      (w.tryAddRefLoaded t j cell r).cells = w.cells := by
    intro j cell r
    rw [tryAddRefLoaded]
    split
    · exact ⟨fun t' ht => by simp [ht], rfl⟩
    · exact hdone w j cell false
  -- Neither do the later accesses write the place of another thread, or a cell.
  simp only [World.proceed] at h
  cases hpc : w.pc t with
  | idle =>
    rw [hpc] at h
    cases h
  | addRefLoad j =>
    rw [hpc] at h
    cases h
    exact ⟨fun t' ht => by simp [ht], rfl⟩
  | addRef j current =>
    simp only [hpc] at h
    split at h <;> cases h <;> exact ⟨fun t' ht => by simp [ht], rfl⟩
  | getShared cell =>
    simp only [hpc] at h
    split at h
    · cases h
    · split at h <;> cases h <;> exact ⟨fun t' ht => by simp [ht], rfl⟩
  | tryAddRefLoad j cell =>
    simp only [hpc] at h
    cases h
    exact hloaded j cell _
  | tryAddRef j cell r =>
    simp only [hpc] at h
    split at h <;> cases h
    · exact hdone (w.modify j _) j cell true
    · exact hloaded j cell _
  | dropRefLoad j =>
    rw [hpc] at h
    cases h
    exact ⟨fun t' ht => by simp [ht], rfl⟩
  | dropRef j current =>
    simp only [hpc] at h
    split at h <;> cases h <;> exact ⟨fun t' ht => by simp [ht], rfl⟩
  | pass j =>
    rw [hpc] at h
    cases h
  | setNextPtr j next collect =>
    rw [hpc] at h
    cases h
    exact ⟨fun t' ht => by simp [ht], rfl⟩
  | link j =>
    rw [hpc] at h
    cases h
    exact ⟨fun t' ht => by simp [ht], rfl⟩

/-- A step moves no other thread. -/
theorem pc_of_step {a : RefCounted.Action} (h : w.step bits a = some w') (ht : t ≠ a.tid) :
    w'.pc t = w.pc t := by
  simp only [RefCounted.World.step] at h
  split at h
  · exact (proceed_frame h).1 t ht
  · cases h
    simp [ht]
  · exact pc_of_call h ht
  · cases h

/-- In the midst of a call the only action of a thread is its next access. -/
theorem proceed_of_step {act : RefCounted.Act} (h : w.step bits ⟨t, act⟩ = some w')
    (hpc : got (w.pc t) ≠ none ∨ (∃ l, w.pc t = .getShared l) ∨
      ∃ i l, w.pc t = .tryAddRefLoad i l) :
    ∃ spurious, act = .proceed spurious ∧ w.proceed bits t spurious = some w' := by
  simp only [RefCounted.World.step] at h
  split at h
  · exact ⟨_, rfl, h⟩
  · rename_i hp
    rw [hp] at hpc
    rcases hpc with h | ⟨_, h⟩ | ⟨_, _, h⟩
    · exact absurd rfl h
    · cases h
    · cases h
  · rename_i hp
    rw [hp] at hpc
    rcases hpc with h | ⟨_, h⟩ | ⟨_, _, h⟩
    · exact absurd rfl h
    · cases h
    · cases h
  · cases h

/-! ## The places of `get_shared` -/

/-- The load of the pointer: a null pointer is the end, and an instance is asked for a
reference. -/
theorem proceed_getShared {spurious : Bool} (hpc : w.pc t = .getShared l)
    (h : w.proceed bits t spurious = some w') :
    ∃ p, w.word l = some p ∧
      w' = w.goto t (p.addr.elim .idle fun i => .tryAddRefLoad i (some l)) := by
  simp only [World.proceed, hpc] at h
  split at h
  · cases h
  · rename_i p hp
    refine ⟨p, hp, ?_⟩
    split at h <;> rename_i ha <;> cases h <;> rw [ha] <;> rfl

/-- A look at the counter: it is odd and the compare-and-exchange comes next, or the loop
starts anew. -/
theorem tryAddRefLoaded_cases (r : Nat) :
    w.tryAddRefLoaded t i (some l) r = w.goto t (.tryAddRef i (some l) r) ∨
      w.tryAddRefLoaded t i (some l) r = (w.log (.tryAddRef t i false)).goto t (.getShared l) := by
  rw [tryAddRefLoaded]
  split
  · exact .inl rfl
  · exact .inr rfl

/-- The compare-and-exchange: it adds the reference to a word that has not changed, or it
is a look at the counter. -/
theorem proceed_tryAddRef {spurious : Bool} {r : Nat} (hpc : w.pc t = .tryAddRef i (some l) r)
    (h : w.proceed bits t spurious = some w') :
    (w.refCnt i = r ∧ spurious = false ∧
      w' = (((w.modify i fun k => { k with refCnt := (r + 2) % 2 ^ bits }).log
        (.tryAddRef t i true)).give t (some i)).goto t .idle) ∨
    w' = w.tryAddRefLoaded t i (some l) (w.refCnt i) := by
  simp only [World.proceed, hpc] at h
  split at h
  · rename_i hc
    cases h
    exact .inl ⟨hc.1, hc.2, rfl⟩
  · cases h
    exact .inr rfl

/-! ## The calls in progress -/

/-- The thread stands in a call of `get_shared` on `self`. When it asks an instance for a
reference, that is the one of the word it loaded last. -/
def AtCall (c : Call) : Pc → Prop
  | .getShared l => l = c.self
  | .tryAddRefLoad i l | .tryAddRef i l _ =>
    l = some c.self ∧ ∃ p, c.loaded = some p ∧ p.addr = some i
  | _ => False

/-- What a call knows: the word that `self` holds now and the one it has loaded last are
among the words that `self` has held since the invocation. -/
structure CallOk (w : World) (t : Tid) (c : Call) : Prop where
  current : ∀ p, w.word c.self = some p → p ∈ c.held
  loaded : ∀ p, c.loaded = some p → p ∈ c.held
  place : AtCall c (w.pc t)

structure Inv (s : State) : Prop where
  world : RefCounted.Inv s.world
  call : ∀ t c, s.calls t = some c → CallOk s.world t c

/-- The first state. -/
theorem inv_init : Inv .init := ⟨RefCounted.inv_init, nofun⟩

/-- A call that sees a new world. -/
theorem CallOk.see {c : Call} (hloaded : ∀ p, c.loaded = some p → p ∈ c.held)
    (hplace : AtCall c (w.pc t)) : CallOk w t (c.see w) where
  current := fun p hp => by
    have hw : w.word c.self = some p := hp
    simp [Call.see, hw]
  loaded := fun p hp => List.mem_append_right _ (hloaded p hp)
  place := hplace

/-- The whole state sees a new world. -/
theorem inv_look (hw : RefCounted.Inv w) (h : ∀ t c, s.calls t = some c →
    (∀ p, c.loaded = some p → p ∈ c.held) ∧ AtCall c (w.pc t)) : Inv (s.look w) where
  world := hw
  call := by
    intro t c hc
    obtain ⟨c₀, hc₀, rfl⟩ := Option.map_eq_some_iff.mp hc
    exact .see (h t c₀ hc₀).1 (h t c₀ hc₀).2

/-- What the thread knows of its call when the next access is over: it is still in the
call, or it is at the end, with the answer that the last loaded word says. -/
theorem CallOk.proceed {c : Call} {spurious : Bool} (hok : CallOk s.world t c)
    (h : s.world.proceed bits t spurious = some w') :
    (∀ p, (c.load (s.loads t)).loaded = some p → p ∈ c.held) ∧
      (AtCall (c.load (s.loads t)) (w'.pc t) ∨ w'.pc t = .idle ∧
        ∃ p, (c.load (s.loads t)).loaded = some p ∧ got (s.world.pc t) = p.addr) := by
  have hplace := hok.place
  have hlook : ∀ i r, (∃ p, c.loaded = some p ∧ p.addr = some i) →
      AtCall c ((s.world.tryAddRefLoaded t i (some c.self) r).pc t) := by
    intro i r hp
    rcases tryAddRefLoaded_cases (w := s.world) (t := t) (i := i) (l := c.self) r with he | he
    · rw [he, goto_pc, Function.update_self]
      exact ⟨rfl, hp⟩
    · rw [he, goto_pc, Function.update_self]
      exact rfl
  -- The load of the word, the load of the counter, and the exchange of the counter.
  cases hpc : s.world.pc t with
  | getShared l =>
    rw [hpc] at hplace
    obtain ⟨p, hp, rfl⟩ := proceed_getShared hpc h
    have hloads : s.loads t = some p := by rw [State.loads, hpc]; exact hp
    have hself : l = c.self := hplace
    subst hself
    -- What is loaded is what `self` holds at this moment.
    rw [hloads, goto_pc, Function.update_self]
    refine ⟨fun q hq => ?_, ?_⟩
    · cases hq
      exact hok.current p hp
    -- A null pointer is the end of the call, and otherwise the counter comes next.
    · cases ha : p.addr with
      | none => exact .inr ⟨rfl, p, rfl, ha.symm⟩
      | some i => exact .inl ⟨rfl, p, rfl, ha⟩
  | tryAddRefLoad i cell =>
    rw [hpc] at hplace
    obtain ⟨rfl, hp⟩ := hplace
    have hloads : s.loads t = none := by rw [State.loads, hpc]
    rw [hloads]
    simp only [RefCounted.World.proceed, hpc, Option.some.injEq] at h
    subst h
    exact ⟨hok.loaded, .inl (hlook i _ hp)⟩
  | tryAddRef i cell r =>
    rw [hpc] at hplace
    obtain ⟨rfl, p, hp, ha⟩ := hplace
    have hloads : s.loads t = none := by rw [State.loads, hpc]
    rw [hloads]
    -- The exchange succeeds, or the counter is looked at again.
    rcases proceed_tryAddRef hpc h with ⟨_, _, rfl⟩ | rfl
    · rw [goto_pc, Function.update_self]
      exact ⟨hok.loaded, .inr ⟨rfl, p, hp, ha.symm⟩⟩
    · exact ⟨hok.loaded, .inl (hlook i _ ⟨p, hp, ha⟩)⟩
  | _ =>
    rw [hpc] at hplace
    exact hplace.elim

/-! ## The steps -/

/-- What a return says. The new reference is to the instance of the word that was loaded last,
which `self` has held since the invocation; `clone` returns a new handle to it, without the
tag. The instance had handles, its counter counted them, it was not retired, and now it has
one handle more. -/
structure Answered (s s' : State) (r : Answer) : Prop where
  loaded : ∃ p ∈ r.call.held, r.call.loaded = some p ∧ r.got = p.addr
  word : r.call.clone = true →
    r.word = some ⟨r.got, .none⟩ ∧ s'.world.cells = s.world.cells ++ [some ⟨r.got, .none⟩]
  held : ∀ i ∈ r.got, 0 < s.world.holders i ∧ s.world.refCnt i = 2 * s.world.holders i - 1
  live : ∀ i ∈ r.got, i ∉ s.world.passed ∧ ∀ t, ¬passing i (s.world.pc t)
  counted : ∀ i ∈ r.got, s'.world.holders i = s.world.holders i + 1 ∧
    s'.world.refCnt i = 2 * s'.world.holders i - 1

/-- The access with which `try_add_ref` takes the reference: the counter was odd. -/
theorem taken (hinv : RefCounted.Inv w) {spurious : Bool} (h : w.proceed bits t spurious = some w')
    {r : Nat} (hpc : w.pc t = .tryAddRef i (some l) r) (hidle : w'.pc t = .idle) :
    (w.instances i).kind = .shared ∧ 0 < w.holders i ∧ w'.holders i = w.holders i + 1 ∧
      (t, i) ∈ w'.handles ∧ i < w.nextInst := by
  have hok := hinv.pc t
  unfold RefCounted.PcOk at hok
  rw [hpc] at hok
  rcases proceed_tryAddRef hpc h with ⟨hcnt, _, rfl⟩ | rfl
  · obtain ⟨hshared, hpos⟩ := hinv.odd hok.1 (hcnt ▸ hok.2)
    refine ⟨hshared, hpos, ?_, List.mem_cons_self, hok.1⟩
    rw [goto_holders, RefCounted.holders_give, log_holders, modify_holders, RefCounted.refs_self]
  · rcases tryAddRefLoaded_cases (w := w) (t := t) (i := i) (l := l) (w.refCnt i) with he | he <;>
      rw [he, goto_pc, Function.update_self] at hidle <;> cases hidle

/-- `clone` makes a handle out of what `get_shared` returned. -/
theorem call_made {g : Option InstId} {w'' : World}
    (hg : ∀ i ∈ g, (t, i) ∈ w.handles)
    (h : w.call t (g.elim .null .from) = some w'') :
    w''.cells = w.cells ++ [some ⟨g, .none⟩] ∧ w''.pc = w.pc ∧ ∀ i, w''.holders i = w.holders i := by
  cases g with
  | none =>
    cases h
    refine ⟨rfl, rfl, fun i => ?_⟩
    simp [holders, Ptr.null]
  | some i =>
    obtain ⟨_, hw⟩ := Option.ite_none_right_eq_some.mp h
    cases hw
    exact ⟨rfl, rfl, fun j => RefCounted.holders_from (hg i rfl)⟩

/-- The last access of a call leaves the cells alone. When it took a reference, the instance
had handles and has one more. -/
theorem last_access (hinv : Inv s) {c : Call} (hc : s.calls t = some c) {spurious : Bool}
    (h : s.world.proceed bits t spurious = some w) (hidle : w.pc t = .idle) :
    w.cells = s.world.cells ∧ ∀ i ∈ got (s.world.pc t),
      i < s.world.nextInst ∧ (s.world.instances i).kind = .shared ∧ 0 < s.world.holders i ∧
        w.holders i = s.world.holders i + 1 ∧ (t, i) ∈ w.handles := by
  refine ⟨(proceed_frame h).2, ?_⟩
  have hplace := (hinv.call t c hc).place
  cases hpc : s.world.pc t with
  | getShared l => exact nofun
  | tryAddRefLoad i cell => exact nofun
  | tryAddRef i cell r =>
    rw [hpc] at hplace
    obtain ⟨rfl, _⟩ := hplace
    obtain ⟨hshared, hpos, hone, hmem, hi⟩ := taken hinv.world h hpc hidle
    intro j hj
    cases hj
    exact ⟨hi, hshared, hpos, hone, hmem⟩
  | _ =>
    rw [hpc] at hplace
    exact hplace.elim

/-- What holds at the return of `get_shared`, with the world in which the answer is given:
for `clone`, that is the one with the new handle. -/
theorem answered (hinv : Inv s) (hfew : Few bits s.world) {c : Call} (hc : s.calls t = some c)
    {spurious : Bool} (h : s.world.proceed bits t spurious = some w) (hidle : w.pc t = .idle)
    {r : Answer} (hcall : r.call = (c.load (s.loads t)).see w) (hgot : r.got = got (s.world.pc t))
    (hnext : w.nextInst ≤ s'.world.nextInst)
    (hkind : ∀ i, i < w.nextInst → (s'.world.instances i).kind = (w.instances i).kind)
    (hinv' : RefCounted.Inv s'.world) (hholders : ∀ i, s'.world.holders i = w.holders i)
    (hword : r.call.clone = true →
      r.word = some ⟨r.got, .none⟩ ∧ s'.world.cells = s.world.cells ++ [some ⟨r.got, .none⟩]) :
    Answered s s' r := by
  have hok : CallOk s.world t c := hinv.call t c hc
  have hstep := RefCounted.stepped_proceed hinv.world hfew h
  obtain ⟨hknown, hend⟩ := hok.proceed h
  obtain ⟨_, hlast⟩ := last_access hinv hc h hidle
  rw [← hgot] at hend hlast
  -- The four parts of the answer: where it was held, what the counter counts, that the instance was
  -- not passed, and the new handle.
  refine ⟨?_, hword, fun i hi => ?_, fun i hi => ?_, fun i hi => ?_⟩
  · rcases hend with hat | ⟨_, p, hp, hg⟩
    · rw [hidle] at hat
      exact hat.elim
    · rw [hcall]
      exact ⟨p, List.mem_append_right _ (hknown p hp), hp, hg⟩
  · obtain ⟨hlt, hshared, hpos, _⟩ := hlast i hi
    exact ⟨hpos, (hinv.world.inst i hlt).counted hshared hpos⟩
  · obtain ⟨hlt, _, hpos, _⟩ := hlast i hi
    have hheld := (hinv.world.inst i hlt).held hpos
    exact ⟨List.count_eq_zero.mp hheld.1, hheld.2⟩
  · obtain ⟨hlt, hshared, hpos, hone, _⟩ := hlast i hi
    have hlt' : i < w.nextInst := Nat.lt_of_lt_of_le hlt hstep.next
    have hcount : s'.world.holders i = s.world.holders i + 1 := (hholders i).trans hone
    refine ⟨hcount, (hinv'.inst i (Nat.lt_of_lt_of_le hlt' hnext)).counted ?_ (by omega)⟩
    rw [hkind i hlt', hstep.kind i hlt, hshared]

/-- The return from `get_shared`, and from `clone`. -/
theorem answer_spec (hinv : Inv s) (hfew : Few bits s.world) {c : Call} (hc : s.calls t = some c)
    {spurious : Bool} (h : s.world.proceed bits t spurious = some w) (hidle : w.pc t = .idle)
    (ha : (s.advance w t).answer t ((c.load (s.loads t)).see w) (got (s.world.pc t)) = some s') :
    Inv s' ∧ ∃ r, s'.answers = r :: s.answers ∧ r.tid = t ∧
      r.call = (c.load (s.loads t)).see w ∧ Answered s s' r := by
  have hstep := RefCounted.stepped_proceed hinv.world hfew h
  obtain ⟨hcells, hlast⟩ := last_access hinv hc h hidle
  -- The other calls go on.
  have hothers : ∀ t' c', ((s.advance w t).setCall t none).calls t' = some c' →
      CallOk w t' c' := by
    intro t' c' hc'
    rw [State.setCall_calls] at hc'
    by_cases ht : t' = t
    · rw [ht, Function.update_self] at hc'
      cases hc'
    · rw [Function.update_of_ne ht] at hc'
      obtain ⟨c₀, hc₀, rfl⟩ := Option.map_eq_some_iff.mp hc'
      rw [State.setCall_calls, Function.update_of_ne ht] at hc₀
      have hok₀ := hinv.call t' c₀ hc₀
      refine .see hok₀.loaded ?_
      rw [(proceed_frame h).1 t' ht]
      exact hok₀.place
  simp only [State.answer] at ha
  split at ha
  · obtain ⟨w', hcall, rfl⟩ := Option.map_eq_some_iff.mp ha
    have hstep' := RefCounted.stepped_call hstep.inv hidle hcall
    obtain ⟨hnew, hpc, hholders⟩ := call_made (fun i hi => (hlast i hi).2.2.2.2) hcall
    refine ⟨?_, _, rfl, rfl, rfl, ?_⟩
    · refine ⟨hstep'.inv, (inv_look (s := (s.advance w t).setCall t none) hstep'.inv
        fun t' c' hc' => ⟨(hothers t' c' hc').loaded, ?_⟩).call⟩
      rw [hpc]
      exact (hothers t' c' hc').place
    · refine answered hinv hfew hc h hidle rfl rfl hstep'.next hstep'.kind hstep'.inv hholders
        fun _ => ⟨?_, by rw [← hcells]; exact hnew⟩
      have hlen : (s.advance w t).world.cells.length = w.cells.length := rfl
      rw [hlen, RefCounted.word_eq, hnew]
      simp
  · rename_i hclone
    cases ha
    exact ⟨⟨hstep.inv, hothers⟩, _, rfl, rfl, rfl,
      answered hinv hfew hc h hidle rfl rfl (Nat.le_refl _) (fun _ _ => rfl) hstep.inv
        (fun _ => rfl) fun hcl => absurd hcl hclone⟩

/-- A step is an invocation, an action of a thread that is in no call, or an access of a call
in progress. -/
theorem step_cases {a : Action} (h : s.step bits a = some s') :
    (∃ cell clone w, s.world.step bits ⟨a.tid, .getShared cell⟩ = some w ∧
      s' = s.invoke w a.tid cell clone) ∨
    ∃ act w, a.act = .world act ∧ s.world.step bits ⟨a.tid, act⟩ = some w ∧
      (s.advance w a.tid).finish a.tid (got (s.world.pc a.tid)) = some s' := by
  simp only [State.step] at h
  split at h
  · obtain ⟨w, hw, rfl⟩ := Option.map_eq_some_iff.mp h
    exact .inl ⟨_, _, w, hw, rfl⟩
  · obtain ⟨w, hw, rfl⟩ := Option.map_eq_some_iff.mp h
    exact .inl ⟨_, _, w, hw, rfl⟩
  · rename_i act _ hact
    obtain ⟨w, hw, hfin⟩ := Option.bind_eq_some_iff.mp h
    exact .inr ⟨act, w, hact, hw, hfin⟩

/-- The place after the invocation. -/
theorem pc_of_invoke (h : w.step bits ⟨t, .getShared l⟩ = some w') : w'.pc t = .getShared l := by
  simp only [RefCounted.World.step] at h
  split at h
  · rename_i hact
    cases hact
  · rename_i hact _
    cases hact
  · obtain ⟨_, _, rfl⟩ := Option.map_eq_some_iff.mp h
    rw [goto_pc, Function.update_self]
  · cases h

/-- The only action of a thread in a call is its next access. -/
theorem proceed_of_call {c : Call} (hok : CallOk w t c) {act : RefCounted.Act}
    (h : w.step bits ⟨t, act⟩ = some w') :
    ∃ spurious, act = .proceed spurious ∧ w.proceed bits t spurious = some w' := by
  refine proceed_of_step h ?_
  have hplace := hok.place
  cases hpc : w.pc t with
  | getShared l => exact .inr (.inl ⟨l, rfl⟩)
  | tryAddRefLoad i cell => exact .inr (.inr ⟨i, cell, rfl⟩)
  | tryAddRef i cell r => exact .inl nofun
  | _ =>
    rw [hpc] at hplace
    exact hplace.elim

/-- An action of a thread that is in no call. -/
theorem finish_of_none {g : Option InstId} (hc : s.calls t = none) :
    (s.advance w t).finish t g = some (s.advance w t) := by
  have hnone : (s.advance w t).calls t = none := by simp [State.advance, hc]
  rw [State.finish, hnone]

/-- An access after which the call goes on. -/
theorem finish_of_place {c : Call} {g : Option InstId}
    (hat : AtCall (c.load (s.loads t)) (w.pc t)) :
    (s.advance w t).finish t g = some (s.advance w t) := by
  have hw : (s.advance w t).world = w := rfl
  rw [State.finish, hw]
  split
  · rename_i hidle
    rw [hidle] at hat
    exact hat.elim
  · rfl

/-- The access after which the call returns. -/
theorem finish_of_idle {c : Call} {g : Option InstId} (hc : s.calls t = some c)
    (hidle : w.pc t = .idle) :
    (s.advance w t).finish t g =
      (s.advance w t).answer t ((c.load (s.loads t)).see w) g := by
  have hcall : (s.advance w t).calls t = some ((c.load (s.loads t)).see w) := by
    simp [State.advance, hc]
  have hw : (s.advance w t).world = w := rfl
  rw [State.finish, hcall, hw, hidle]

/-- The access returns from `get_shared`: it loads a null pointer, or it is the
compare-and-exchange that adds the reference. -/
def Returning (s : State) (a : Action) : Prop :=
  match s.world.pc a.tid with
  | .getShared cell => ∃ p, s.world.word cell = some p ∧ p.isNull = true
  | .tryAddRef i _ r => s.world.refCnt i = r ∧ a.act = .world (.proceed false)
  | _ => False

/-- An access with which a thread leaves a call is such a return. -/
theorem returning_of_idle {a : Action} {c : Call} (hok : CallOk s.world a.tid c)
    {spurious : Bool} (hact : a.act = .world (.proceed spurious))
    (h : s.world.proceed bits a.tid spurious = some w) (hidle : w.pc a.tid = .idle) :
    Returning s a := by
  have hplace := hok.place
  -- A load of the counter is not the last access.
  have hlook : ∀ i r, (s.world.tryAddRefLoaded a.tid i (some c.self) r).pc a.tid ≠ .idle := by
    intro i r he
    rcases tryAddRefLoaded_cases (w := s.world) (t := a.tid) (i := i) (l := c.self) r with hl | hl <;>
      rw [hl, goto_pc, Function.update_self] at he <;> cases he
  unfold Returning
  cases hpc : s.world.pc a.tid with
  | getShared l =>
    obtain ⟨p, hp, rfl⟩ := proceed_getShared hpc h
    rw [goto_pc, Function.update_self] at hidle
    refine ⟨p, hp, ?_⟩
    cases ha : p.addr with
    | none => rw [Ptr.isNull, ha]; rfl
    | some i =>
      rw [ha] at hidle
      cases hidle
  | tryAddRefLoad i cell =>
    rw [hpc] at hplace
    obtain ⟨rfl, _⟩ := hplace
    simp only [RefCounted.World.proceed, hpc, Option.some.injEq] at h
    subst h
    exact absurd hidle (hlook i _)
  | tryAddRef i cell r =>
    rw [hpc] at hplace
    obtain ⟨rfl, _⟩ := hplace
    rcases proceed_tryAddRef hpc h with ⟨hcnt, rfl, _⟩ | rfl
    · exact ⟨hcnt, hact⟩
    · exact absurd hidle (hlook i _)
  | _ =>
    rw [hpc] at hplace
    exact hplace.elim

/-- The action is the last access of the call `c`, it leads to the world `w`, and `r` is the
answer. -/
structure Returned (bits : Nat) (s : State) (a : Action) (w : World) (c : Call) (r : Answer) :
    Prop where
  access : ∃ act, a.act = .world act ∧ s.world.step bits ⟨a.tid, act⟩ = some w
  running : s.calls a.tid = some c
  tid : r.tid = a.tid
  call : r.call = (c.load (s.loads a.tid)).see w
  returning : Returning s a

/-- Every step keeps the invariant, and a step that answers a call is a return. -/
theorem step_spec (hinv : Inv s) (hfew : Few bits s.world) {a : Action}
    (h : s.step bits a = some s') :
    Inv s' ∧ (s'.answers = s.answers ∨ ∃ r c w, s'.answers = r :: s.answers ∧
      Returned bits s a w c r ∧ Answered s s' r) := by
  -- A call begins, or it takes a step. In a step the call of another thread only sees what `self`
  -- holds now.
  rcases step_cases h with ⟨cell, clone, w, hw, rfl⟩ | ⟨act, w, hact, hw, hfin⟩
  · have hstep := RefCounted.stepped_step hinv.world hfew hw
    refine ⟨inv_look hstep.inv fun t c hc => ?_, .inl rfl⟩
    rw [State.setCall_calls] at hc
    by_cases ht : t = a.tid
    · subst ht
      rw [Function.update_self] at hc
      cases hc
      refine ⟨nofun, ?_⟩
      rw [pc_of_invoke hw]
      rfl
    · rw [Function.update_of_ne ht] at hc
      refine ⟨(hinv.call t c hc).loaded, ?_⟩
      rw [pc_of_step hw ht]
      exact (hinv.call t c hc).place
  · have hstep := RefCounted.stepped_step hinv.world hfew hw
    cases hc : s.calls a.tid with
    | none =>
      rw [finish_of_none hc, Option.some.injEq] at hfin
      subst hfin
      refine ⟨inv_look hstep.inv fun t c hc' => ?_, .inl rfl⟩
      rw [State.setCall_calls, hc, Option.map_none] at hc'
      have ht : t ≠ a.tid := by
        rintro rfl
        rw [Function.update_self] at hc'
        cases hc'
      rw [Function.update_of_ne ht] at hc'
      refine ⟨(hinv.call t c hc').loaded, ?_⟩
      rw [pc_of_step hw ht]
      exact (hinv.call t c hc').place
    | some c =>
      have hok := hinv.call _ c hc
      obtain ⟨spurious, rfl, hp⟩ := proceed_of_call hok hw
      obtain ⟨hknown, hend⟩ := hok.proceed hp
      -- The call is still in progress, or it has its answer.
      rcases hend with hat | ⟨hidle, _⟩
      · rw [finish_of_place hat, Option.some.injEq] at hfin
        subst hfin
        refine ⟨inv_look hstep.inv fun t c' hc' => ?_, .inl rfl⟩
        rw [State.setCall_calls, hc, Option.map_some] at hc'
        by_cases ht : t = a.tid
        · subst ht
          rw [Function.update_self] at hc'
          cases hc'
          exact ⟨hknown, hat⟩
        · rw [Function.update_of_ne ht] at hc'
          refine ⟨(hinv.call t c' hc').loaded, ?_⟩
          rw [pc_of_step hw ht]
          exact (hinv.call t c' hc').place
      · rw [finish_of_idle hc hidle] at hfin
        obtain ⟨hinv', r, hans, htid, hcall, hr⟩ := answer_spec hinv hfew hc hp hidle hfin
        exact ⟨hinv', .inr ⟨r, c, w, hans, ⟨⟨_, hact, hw⟩, hc, htid, hcall,
          returning_of_idle hok hact hp hidle⟩, hr⟩⟩

/-! ## Runs -/

/-- There are never too many handles. -/
abbrev FewHandles (bits : Nat) (s : State) : Prop := Few bits s.world

/-- Every state of a run has the invariant. -/
theorem inv_of_run (hrun : Lib.Run (State.step bits) (fun x _ => FewHandles bits x) s s')
    (hinv : Inv s) : Inv s' :=
  hrun.invariant Inv hinv fun _ _ _ h hfew hs => (step_spec h hfew hs).1

/-- When `get_shared` returns to `clone`, the word that it has loaded last carries no tag. -/
def Untagged (s : State) (a : Action) : Prop :=
  ∀ c, s.calls a.tid = some c → c.clone = true → Returning s a →
    ∀ p, (c.load (s.loads a.tid)).loaded = some p → p.tag = .none

/-- The answer of `clone` is a snapshot: `self` has held the pointer and the tag of the new handle
since the invocation. -/
def Snapshot (r : Answer) : Prop := ∃ p ∈ r.call.held, r.word = some p

/-- With every word untagged at the return, a step that answers a call of `clone` gives a
snapshot. -/
theorem snapshot_of_step (hinv : Inv s) {a : Action} (hfew : Few bits s.world)
    (hplain : Untagged s a) (h : s.step bits a = some s') {r : Answer}
    (hr : s'.answers = r :: s.answers) (hclone : r.call.clone = true) :
    ∃ p ∈ r.call.held, r.word = some p ∧ r.got = p.addr ∧ Answered s s' r := by
  rcases (step_spec hinv hfew h).2 with hsame | ⟨r', c, w, hr', hret, hans⟩
  · rw [hr] at hsame
    exact absurd hsame (List.cons_ne_self _ _)
  · obtain rfl : r = r' := by
      rw [hr] at hr'
      exact (List.cons.inj hr').1
    obtain ⟨p, hp, hloaded, hgot⟩ := hans.loaded
    rw [hret.call] at hloaded
    have hclone' : c.clone = true := by
      rw [hret.call] at hclone
      exact hclone
    have htag : p.tag = .none := hplain c hret.running hclone' hret.returning p hloaded
    refine ⟨p, hp, ?_, hgot, hans⟩
    rw [(hans.word hclone).1, hgot, ← htag]

/-- In every run of any number of threads in which `get_shared` returns to `clone` with an untagged
word only: every `AtomicShared` that `clone` has returned holds a pointer and a tag that `self`
held at some moment of the call; and the step with which `clone` returns adds that handle, and
the strong count of the instance goes up by one and counts it. -/
theorem clone_snapshot (hrun : Lib.Run (State.step bits)
      (fun x a => FewHandles bits x ∧ Untagged x a) .init s) :
    (∀ r ∈ s.answers, r.call.clone = true → Snapshot r) ∧
    ∀ a s' r, FewHandles bits s → Untagged s a → s.step bits a = some s' →
      s'.answers = r :: s.answers → r.call.clone = true →
      ∃ p ∈ r.call.held, s'.world.cells = s.world.cells ++ [some p] ∧
        ∀ i ∈ p.addr, s.world.refCnt i = 2 * s.world.holders i - 1 ∧
          s'.world.holders i = s.world.holders i + 1 ∧
          s'.world.refCnt i = 2 * s'.world.holders i - 1 := by
  -- The answers are snapshots: an invariant of the run, and what the last step of a call does.
  have hinv : Inv s := inv_of_run (hrun.mono fun _ _ h => h.1) inv_init
  constructor
  · refine (hrun.invariant (fun x => Inv x ∧ ∀ r ∈ x.answers, r.call.clone = true → Snapshot r)
      ⟨inv_init, nofun⟩ fun x a x' hx hcond hs => ?_).2
    obtain ⟨hinv', hsame | ⟨r, c, w, hr, _⟩⟩ := step_spec hx.1 hcond.1 hs
    · rw [hsame]
      exact ⟨hinv', hx.2⟩
    · refine ⟨hinv', fun r' hr' hclone => ?_⟩
      rw [hr] at hr'
      rcases List.mem_cons.mp hr' with rfl | hold
      · obtain ⟨p, hp, hword, _⟩ := snapshot_of_step hx.1 hcond.1 hcond.2 hs hr hclone
        exact ⟨p, hp, hword⟩
      · exact hx.2 r' hold hclone
  · intro a s' r hfew hplain hs hr hclone
    obtain ⟨p, hp, hword, hgot, hans⟩ := snapshot_of_step hinv hfew hplain hs hr hclone
    obtain ⟨hnew, hcells⟩ := hans.word hclone
    rw [hnew] at hword
    rw [Option.some.inj hword] at hcells
    refine ⟨p, hp, hcells, fun i hi => ?_⟩
    rw [← hgot] at hi
    exact ⟨(hans.held i hi).2, hans.counted i hi⟩

/-- The test of a run: few handles, and no loaded word with a tag. -/
theorem plain_of_check {a : Action}
    (h : (decide (s.world.handles.length + s.world.cells.length < 2 ^ (bits - 1)) &&
      (s.calls a.tid).all fun c => (c.load (s.loads a.tid)).loaded.all (·.tag == .none)) = true) :
    FewHandles bits s ∧ Untagged s a := by
  rw [Bool.and_eq_true] at h
  refine ⟨RefCounted.few_of_length (of_decide_eq_true h.1), fun c hc _ _ p hp => ?_⟩
  have hall := h.2
  rw [hc, Option.all_some, hp, Option.all_some] at hall
  exact eq_of_beq hall

/-- A thread asks for a clone while the instance is swapped for another one and released:
it starts anew, and gets a handle to the second instance. -/
theorem clone_snapshot_swapped :
    ∃ s : State, (s.answers.map fun r => (r.got, r.word)) = [(some 1, some ⟨some 1, .none⟩)] ∧
      (s.answers.all fun r => ⟨some 0, .none⟩ ∈ r.call.held) = true ∧
      ∀ r ∈ s.answers, r.call.clone = true → Snapshot r := by
  have hexec : (Lib.exec (State.step 64)
      (fun x a => decide (x.world.handles.length + x.world.cells.length < 2 ^ (64 - 1)) &&
        ((x.calls a.tid).all fun c => (c.load (x.loads a.tid)).loaded.all (·.tag == .none)))
      .init
      [⟨0, .world .newShared⟩, ⟨0, .world (.from 0)⟩, ⟨1, .world .newShared⟩, ⟨0, .clone 0⟩,
        ⟨0, .world (.proceed false)⟩, ⟨1, .world (.swap 0 (some 1) .none)⟩,
        ⟨1, .world (.drop 0)⟩, ⟨1, .world (.proceed false)⟩, ⟨1, .world (.proceed false)⟩,
        ⟨0, .world (.proceed false)⟩, ⟨0, .world (.proceed false)⟩, ⟨0, .world (.proceed false)⟩,
        ⟨0, .world (.proceed true)⟩, ⟨0, .world (.proceed false)⟩]).any
      (fun x => decide ((x.answers.map fun r => (r.got, r.word)) =
          [(some 1, some ⟨some 1, .none⟩)]) &&
        x.answers.all fun r => ⟨some 0, .none⟩ ∈ r.call.held) = true := by
    decide +kernel
  obtain ⟨s, hrun, hs⟩ := Lib.Run.of_exec_any hexec
  rw [Bool.and_eq_true] at hs
  exact ⟨s, of_decide_eq_true hs.1, hs.2, (clone_snapshot (hrun.mono fun _ _ => plain_of_check)).1⟩

/-- A tag is lost: `self` holds the tag all the time, and the handle that `clone` returns has
none. -/
theorem clone_loses_tag :
    ∃ s, Lib.Run (State.step 64) (fun x _ => FewHandles 64 x) .init s ∧
      ∃ r ∈ s.answers, r.call.clone = true ∧ r.word = some ⟨some 0, .none⟩ ∧
        (∀ p ∈ r.call.held, p = ⟨some 0, .first⟩) ∧ ¬Snapshot r := by
  have hexec : (Lib.exec (State.step 64)
      (fun x _ => decide (x.world.handles.length + x.world.cells.length < 2 ^ (64 - 1))) .init
      [⟨0, .world .newShared⟩, ⟨0, .world (.from 0)⟩, ⟨0, .world (.updateTag 0 .first)⟩,
        ⟨0, .clone 0⟩, ⟨0, .world (.proceed false)⟩, ⟨0, .world (.proceed false)⟩,
        ⟨0, .world (.proceed false)⟩]).any
      (fun x => x.answers.any fun r => r.call.clone && (r.word == some ⟨some 0, .none⟩) &&
        r.call.held.all (· == ⟨some 0, .first⟩)) = true := by
    decide +kernel
  obtain ⟨s, hrun, hs⟩ := Lib.Run.of_exec_any hexec
  obtain ⟨r, hr, h⟩ := List.any_eq_true.mp hs
  rw [Bool.and_eq_true, Bool.and_eq_true] at h
  have hheld : ∀ p ∈ r.call.held, p = ⟨some 0, .first⟩ := fun p hp =>
    eq_of_beq (List.all_eq_true.mp h.2 p hp)
  have hword : r.word = some ⟨some 0, .none⟩ := eq_of_beq h.1.2
  refine ⟨s, hrun.mono fun _ _ hx => RefCounted.few_of_length (of_decide_eq_true hx), r, hr,
    h.1.1, hword, hheld, ?_⟩
  rintro ⟨p, hp, hsnap⟩
  rw [hword, hheld p hp] at hsnap
  cases hsnap

/-! ## Cells that are never null -/

/-- The action stores a null pointer in the cell: with `swap`, or with a `compare_exchange` that
succeeds. -/
def StoresNull (l : CellId) (w : World) (a : Action) : Prop :=
  match a.act with
  | .world (.swap k none _) => k = l
  | .world (.compareExchange k current none _ spurious) =>
    k = l ∧ w.word l = some current ∧ spurious = false
  | _ => False

/-- The cell exists, and a word that it holds is not null. -/
def NeverNull (l : CellId) (w : World) : Prop :=
  l < w.cells.length ∧ ∀ p, w.word l = some p → p.addr ≠ none

/-- The cells are as they were. -/
theorem NeverNull.same (h : NeverNull l w) (hcells : w'.cells = w.cells) : NeverNull l w' := by
  unfold NeverNull word
  rw [hcells]
  exact h

/-- A new cell. -/
theorem NeverNull.append (h : NeverNull l w) {c : Option (Ptr InstId)}
    (hcells : w'.cells = w.cells ++ [c]) : NeverNull l w' := by
  unfold NeverNull word
  rw [hcells, List.length_append, List.getElem?_append_left h.1]
  exact ⟨Nat.lt_add_right _ h.1, h.2⟩

/-- A store to some cell: in this one, no null pointer is stored. -/
theorem NeverNull.store (h : NeverNull l w) {k : CellId} {c : Option (Ptr InstId)}
    (hcells : w'.cells = w.cells.set k c) (hc : k = l → ∀ p, c = some p → p.addr ≠ none) :
    NeverNull l w' := by
  unfold NeverNull word
  rw [hcells, List.length_set]
  refine ⟨h.1, fun p hp => ?_⟩
  by_cases hk : k = l
  · rw [hk, List.getElem?_set_self h.1] at hp
    exact hc hk p hp
  · rw [List.getElem?_set_ne hk] at hp
    exact h.2 p hp

/-- The exchange of the word of a cell. -/
theorem NeverNull.exchange (h : NeverNull l w) {k : CellId} {prev : Ptr InstId}
    {new : Option InstId} {tag : Tag} (hnew : k = l → new ≠ none) :
    NeverNull l (w.exchange t k prev new tag) := by
  refine h.store (k := k) (c := some ⟨new, tag⟩) ?_ fun hk p hp => ?_
  · cases ha : prev.addr <;> cases new <;> simp [World.exchange, setCell, give, forget, ha]
  · cases hp
    exact hnew hk

/-- A call that does not store a null pointer in the cell. -/
theorem NeverNull.call (h : NeverNull l w) {act : RefCounted.Act}
    (hstore : ¬StoresNull l w ⟨t, .world act⟩) (hs : w.call t act = some w') : NeverNull l w' := by
  -- The only stores of a null pointer are the ones that are excluded.
  cases act with
  | proceed spurious => cases hs
  | collect next => cases hs
  | newShared =>
    cases hs
    exact h.same rfl
  | newUnique =>
    cases hs
    exact h.same rfl
  | null =>
    cases hs
    exact h.append rfl
  | «from» i =>
    obtain ⟨_, hw⟩ := Option.ite_none_right_eq_some.mp hs
    cases hw
    exact h.append rfl
  | clone i =>
    obtain ⟨_, hw⟩ := Option.ite_none_right_eq_some.mp hs
    cases hw
    exact h.same rfl
  | getShared cell =>
    obtain ⟨_, _, rfl⟩ := Option.map_eq_some_iff.mp hs
    exact h.same rfl
  | ptrGetShared i =>
    obtain ⟨_, hw⟩ := Option.ite_none_right_eq_some.mp hs
    cases hw
    exact h.same rfl
  | swap cell new tag =>
    obtain ⟨_, hs⟩ := Option.ite_none_right_eq_some.mp hs
    obtain ⟨prev, _, rfl⟩ := Option.map_eq_some_iff.mp hs
    refine h.exchange fun hk hnew => hstore ?_
    rw [hnew]
    exact hk
  | compareExchange cell current new tag spurious =>
    obtain ⟨_, hs⟩ := Option.ite_none_right_eq_some.mp hs
    obtain ⟨prev, hprev, rfl⟩ := Option.map_eq_some_iff.mp hs
    split
    · rename_i heq
      refine h.exchange fun hk hnew => hstore ?_
      rw [hnew]
      exact ⟨hk, by rw [← hk, hprev, heq.1], heq.2⟩
    · exact h
  | updateTag cell tag =>
    obtain ⟨p, hp, rfl⟩ := Option.map_eq_some_iff.mp hs
    refine h.store (k := cell) rfl fun hk q hq => ?_
    cases hq
    exact h.2 p (hk ▸ hp)
  | intoShared cell =>
    obtain ⟨p, hp, rfl⟩ := Option.map_eq_some_iff.mp hs
    refine h.store (k := cell) (c := none) ?_ fun _ => nofun
    cases p.addr <;> rfl
  | dropAtomic cell =>
    obtain ⟨p, hp, rfl⟩ := Option.map_eq_some_iff.mp hs
    refine h.store (k := cell) (c := none) ?_ fun _ => nofun
    cases p.addr <;> rfl
  | drop i =>
    obtain ⟨_, hw⟩ := Option.ite_none_right_eq_some.mp hs
    cases hw
    exact h.same rfl
  | release i =>
    obtain ⟨_, hw⟩ := Option.ite_none_right_eq_some.mp hs
    cases hw
    exact h.same rfl
  | dropOwned i =>
    obtain ⟨_, hw⟩ := Option.ite_none_right_eq_some.mp hs
    cases hw
    exact h.same rfl
  | send i receiver =>
    obtain ⟨_, hw⟩ := Option.ite_none_right_eq_some.mp hs
    cases hw
    exact h.same rfl
  | setNextPtr i next =>
    obtain ⟨_, hw⟩ := Option.ite_none_right_eq_some.mp hs
    cases hw
    exact h.same rfl

/-- A step of the world that does not store a null pointer in the cell. -/
theorem NeverNull.step (h : NeverNull l w) {act : RefCounted.Act}
    (hstore : ¬StoresNull l w ⟨t, .world act⟩) (hs : w.step bits ⟨t, act⟩ = some w') :
    NeverNull l w' := by
  simp only [RefCounted.World.step] at hs
  split at hs
  · exact h.same (proceed_frame hs).2
  · cases hs
    exact h.same rfl
  · exact h.call hstore hs
  · cases hs

/-- The cell is never null, and a call on it that the thread has made since the cell was known
to be so has never seen a null word. -/
structure NoNull (l : CellId) (t : Tid) (s : State) : Prop where
  inv : Inv s
  cell : NeverNull l s.world
  held : ∀ c, s.calls t = some c → c.self = l → ∀ p ∈ c.held, p.addr ≠ none

/-- A call sees a word that is not null. -/
theorem see_nonnull (h : NeverNull l w) {c : Call} (hc : c.self = l → ∀ p ∈ c.held, p.addr ≠ none) :
    (c.see w).self = l → ∀ p ∈ (c.see w).held, p.addr ≠ none := by
  intro hself p hp
  rcases List.mem_append.mp hp with hnow | hold
  · refine h.2 p ?_
    rw [← hself]
    exact Option.mem_toList.mp hnow
  · exact hc hself p hold

/-- A step that does not store a null pointer in the cell. -/
theorem NoNull.step (h : NoNull l t s) (hfew : Few bits s.world) {a : Action}
    (hstore : ¬StoresNull l s.world a) (hs : s.step bits a = some s') : NoNull l t s' := by
  have hinv : Inv s' := (step_spec h.inv hfew hs).1
  rcases step_cases hs with ⟨cell, clone, w, hw, rfl⟩ | ⟨act, w, hact, hw, hfin⟩
  · have hstore' : ¬StoresNull l s.world ⟨a.tid, .world (.getShared cell)⟩ := id
    have hcell : NeverNull l w := h.cell.step hstore' hw
    refine ⟨hinv, hcell, fun c hc => ?_⟩
    obtain ⟨c₀, hc₀, rfl⟩ := Option.map_eq_some_iff.mp hc
    refine see_nonnull hcell ?_
    rw [State.setCall_calls] at hc₀
    by_cases ht : t = a.tid
    · rw [ht, Function.update_self] at hc₀
      cases hc₀
      exact fun _ => nofun
    · rw [Function.update_of_ne ht] at hc₀
      exact h.held c₀ hc₀
  · have hstore' : ¬StoresNull l s.world ⟨a.tid, .world act⟩ := by
      unfold StoresNull at hstore ⊢
      rw [hact] at hstore
      exact hstore
    have hcell : NeverNull l w := h.cell.step hstore' hw
    -- Every call has seen the world after the access.
    have hheld : ∀ c, (s.advance w a.tid).calls t = some c → c.self = l →
        ∀ p ∈ c.held, p.addr ≠ none := by
      intro c hc
      obtain ⟨c₀, hc₀, rfl⟩ := Option.map_eq_some_iff.mp hc
      refine see_nonnull hcell ?_
      rw [State.setCall_calls] at hc₀
      by_cases ht : t = a.tid
      · rw [ht, Function.update_self] at hc₀
        obtain ⟨c₁, hc₁, rfl⟩ := Option.map_eq_some_iff.mp hc₀
        exact h.held c₁ (ht ▸ hc₁)
      · rw [Function.update_of_ne ht] at hc₀
        exact h.held c₀ hc₀
    have hnone : ∀ c, ((s.advance w a.tid).setCall a.tid none).calls t = some c → c.self = l →
        ∀ p ∈ c.held, p.addr ≠ none := by
      intro c hc
      rw [State.setCall_calls] at hc
      by_cases ht : t = a.tid
      · rw [ht, Function.update_self] at hc
        cases hc
      · rw [Function.update_of_ne ht] at hc
        exact hheld c hc
    simp only [State.finish] at hfin
    split at hfin
    · simp only [State.answer] at hfin
      split at hfin
      · obtain ⟨w', hcall, rfl⟩ := Option.map_eq_some_iff.mp hfin
        have hcell' : NeverNull l w' := by
          refine hcell.call (fun hn => ?_) hcall
          cases hg : got (s.world.pc a.tid) <;> rw [hg] at hn <;> exact hn
        refine ⟨hinv, hcell', fun c hc => ?_⟩
        obtain ⟨c₀, hc₀, rfl⟩ := Option.map_eq_some_iff.mp hc
        exact see_nonnull hcell' (hnone c₀ hc₀)
      · cases hfin
        exact ⟨hinv, hcell, hnone⟩
    · cases hfin
      exact ⟨hinv, hcell, hheld⟩

/-- In every run in which, from some moment on, a cell is not null and nobody stores a null
pointer in it: a `get_shared` on the cell that is called from then on and returns has got a
reference. It is to an instance that the cell has pointed to since the invocation; when the
reference was added the instance had at least one strong handle, the counter counted them,
and nobody had retired the instance or was about to. -/
theorem get_shared_never_misses {s₀ : State} {a : Action} {r : Answer}
    (h₀ : Lib.Run (State.step bits) (fun x _ => FewHandles bits x) .init s₀)
    (hnull : ∃ p, s₀.world.word l = some p ∧ p.addr ≠ none)
    (hrun : Lib.Run (State.step bits)
      (fun x b => FewHandles bits x ∧ ¬StoresNull l x.world b) s₀ s)
    (hfew : FewHandles bits s) (hstore : ¬StoresNull l s.world a)
    (hs : s.step bits a = some s')
    (hr : s'.answers = r :: s.answers) (hself : r.call.self = l) (hcall : s₀.calls r.tid = none) :
    ∃ i, r.got = some i ∧ (∃ p ∈ r.call.held, p.addr = some i) ∧
      1 ≤ s.world.holders i ∧ s.world.refCnt i = 2 * s.world.holders i - 1 ∧
      i ∉ s.world.passed ∧ (∀ t, ¬passing i (s.world.pc t)) ∧
      s'.world.holders i = s.world.holders i + 1 := by
  obtain ⟨p₀, hp₀, hnull⟩ := hnull
  have hstart : NoNull l r.tid s₀ := by
    refine ⟨inv_of_run h₀ inv_init, ⟨?_, fun p hp => ?_⟩, fun c hc => ?_⟩
    · exact (List.getElem?_eq_some_iff.mp (RefCounted.word_eq.mp hp₀)).1
    · rw [hp₀] at hp
      cases hp
      exact hnull
    · rw [hcall] at hc
      cases hc
  have hnn : NoNull l r.tid s :=
    hrun.invariant (NoNull l r.tid) hstart fun _ _ _ h hcond hs => h.step hcond.1 hcond.2 hs
  rcases (step_spec hnn.inv hfew hs).2 with hsame | ⟨r', c, w, hr', hret, hans⟩
  · rw [hr] at hsame
    exact absurd hsame (List.cons_ne_self _ _)
  · obtain rfl : r = r' := by
      rw [hr] at hr'
      exact (List.cons.inj hr').1
    obtain ⟨p, hp, _, hgot⟩ := hans.loaded
    obtain ⟨act, hact, hw⟩ := hret.access
    have hcell : NeverNull l w := by
      refine hnn.cell.step (fun hn => hstore ?_) hw
      unfold StoresNull at hn ⊢
      rw [hact]
      exact hn
    have hseen : ∀ p ∈ r.call.held, p.addr ≠ none := by
      rw [hret.call] at hself ⊢
      exact see_nonnull hcell (hnn.held c (hret.tid ▸ hret.running)) hself
    obtain ⟨i, hi⟩ := Option.ne_none_iff_exists'.mp (hseen p hp)
    rw [hi] at hgot
    obtain ⟨hpos, hcnt⟩ := hans.held i hgot
    obtain ⟨hpassed, hpassing⟩ := hans.live i hgot
    exact ⟨i, hgot, ⟨p, hp, hi⟩, hpos, hcnt, hpassed, hpassing, (hans.counted i hgot).1⟩

/-- While a thread is in `get_shared`, the instance it has loaded is swapped for another one and
released; it gets a reference to the second instance. -/
theorem get_shared_never_misses_swapped :
    ∃ s s' : State, s.world.holders 0 = 0 ∧ s.step 64 ⟨0, .world (.proceed false)⟩ = some s' ∧
      ∃ r, s'.answers = [r] ∧ ∃ i, r.got = some i ∧ (∃ p ∈ r.call.held, p.addr = some i) ∧
        1 ≤ s.world.holders i ∧ s.world.refCnt i = 2 * s.world.holders i - 1 ∧
        i ∉ s.world.passed ∧ (∀ t, ¬passing i (s.world.pc t)) ∧
        s'.world.holders i = s.world.holders i + 1 := by
  have hexec : (Lib.exec (State.step 64)
      (fun x _ => decide (x.world.handles.length + x.world.cells.length < 2 ^ (64 - 1))) .init
      [⟨0, .world .newShared⟩, ⟨0, .world (.from 0)⟩, ⟨1, .world .newShared⟩]).any
      (fun s₀ => ((s₀.world.word 0).any (·.addr.isSome) && (s₀.calls 0).isNone) &&
        (Lib.exec (State.step 64)
          (fun x a => decide (x.world.handles.length + x.world.cells.length < 2 ^ (64 - 1)) &&
            match a.act with
            | .world (.proceed _) | .world (.getShared _) | .world (.drop _) => true
            | .world (.swap _ new _) => new.isSome
            | _ => false) s₀
          [⟨0, .world (.getShared 0)⟩, ⟨0, .world (.proceed false)⟩,
            ⟨1, .world (.swap 0 (some 1) .first)⟩, ⟨1, .world (.drop 0)⟩,
            ⟨1, .world (.proceed false)⟩, ⟨1, .world (.proceed false)⟩,
            ⟨0, .world (.proceed false)⟩, ⟨0, .world (.proceed false)⟩,
            ⟨0, .world (.proceed false)⟩]).any
          fun s => decide (s.world.handles.length + s.world.cells.length < 2 ^ (64 - 1) ∧
              s.answers = [] ∧ s.world.holders 0 = 0) &&
            (s.step 64 ⟨0, .world (.proceed false)⟩).any fun s' =>
              decide (s'.answers.map (fun r => (r.tid, r.call.self)) = [(0, 0)])) = true := by
    decide +kernel
  obtain ⟨s₀, h₀, hs₀⟩ := Lib.Run.of_exec_any hexec
  rw [Bool.and_eq_true, Bool.and_eq_true] at hs₀
  obtain ⟨p, hword, hp⟩ := (Option.any_eq_true _ _).mp hs₀.1.1
  obtain ⟨s, hrun, hs⟩ := Lib.Run.of_exec_any hs₀.2
  rw [Bool.and_eq_true] at hs
  obtain ⟨hfew, hnone, hzero⟩ := of_decide_eq_true hs.1
  obtain ⟨s', hstep, hs'⟩ := (Option.any_eq_true _ _).mp hs.2
  obtain ⟨r, hr, hids⟩ := List.map_eq_singleton_iff.mp (of_decide_eq_true hs')
  refine ⟨s, s', hzero, hstep, r, hr, ?_⟩
  refine get_shared_never_misses (l := 0) (h₀.mono fun x _ hx => ?_) ⟨p, hword, ?_⟩
    (hrun.mono fun x a hx => ?_) (RefCounted.few_of_length hfew) id hstep (by rw [hr, hnone]) ?_ ?_
  · exact RefCounted.few_of_length (of_decide_eq_true hx)
  · exact fun hn => by simp [hn] at hp
  · rw [Bool.and_eq_true] at hx
    refine ⟨RefCounted.few_of_length (of_decide_eq_true hx.1), fun hstore => ?_⟩
    unfold StoresNull at hstore
    have hact := hx.2
    split at hstore <;> rename_i heq
    · simp [heq] at hact
    · simp [heq] at hact
    · exact hstore
  · exact (Prod.mk.inj hids).2
  · rw [(Prod.mk.inj hids).1]
    exact Option.isNone_iff_eq_none.mp hs₀.1.2

/-- A cell that has been null from the start, and that nobody stores anything in: `get_shared`
returns `None`. -/
theorem get_shared_of_null :
    ∃ s, Lib.Run (State.step 64) (fun x a => FewHandles 64 x ∧ ¬StoresNull 0 x.world a) .init s ∧
      ∃ r ∈ s.answers, r.call.self = 0 ∧ r.call.clone = false ∧ r.got = none := by
  have hexec : (Lib.exec (State.step 64)
      (fun x a => decide (x.world.handles.length + x.world.cells.length < 2 ^ (64 - 1)) &&
        match a.act with
        | .world .null | .world (.getShared _) | .world (.proceed _) => true
        | _ => false) .init
      [⟨0, .world .null⟩, ⟨0, .world (.getShared 0)⟩, ⟨0, .world (.proceed false)⟩]).any
      (fun x => x.answers.any fun r =>
        decide (r.call.self = 0 ∧ r.call.clone = false ∧ r.got = none)) = true := by
    decide +kernel
  obtain ⟨s, hrun, hs⟩ := Lib.Run.of_exec_any hexec
  obtain ⟨r, hr, h⟩ := List.any_eq_true.mp hs
  refine ⟨s, hrun.mono fun x a hx => ?_, r, hr, of_decide_eq_true h⟩
  rw [Bool.and_eq_true] at hx
  refine ⟨RefCounted.few_of_length (of_decide_eq_true hx.1), fun hstore => ?_⟩
  have hact := hx.2
  unfold StoresNull at hstore
  split at hstore <;> rename_i heq
  · simp [heq] at hact
  · simp [heq] at hact
  · exact hstore

end Sdd.Proofs.GetShared
