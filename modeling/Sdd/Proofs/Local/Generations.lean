import Sdd.Proofs.Local.Panic

/-!
# `Sdd.Proofs.Local.Generations`: when an instance is dropped

Runs in which no destructor panics. The destructors can retire instances and create guards, also
while `epoch_updated` drops a list. `turns` counts the guards that observe another epoch than
the announced one. An instance is on the current list when it is retired, and each of these guards
moves it on: `Aged` gives the place of the instance, `Aged.move` is the step, and `generations`
the result. The creation of the third guard drops the instance.

`Flagged` holds in the middle of a drain, too: when `has_garbage` is not set, all lists are empty, so
that the rotation can be left out.

A thread that suspends or exits gives up its collector; a run is the time before.
-/

set_option autoImplicit false

namespace Sdd.Proofs

open Sdd.Lib

variable {m m₀ m₁ m₂ m₃ x x' : Local} {L Lx : Local.Spot → List Node} {i : Node} {a : Local.Act}

namespace Local

/-- The number of guards that observe another epoch than the announced one. -/
def turns (m : Local) : List Local.Act → Nat
  | [] => 0
  | a :: as => (observes m a).toNat + (m.step a).elim 0 fun m' => turns m' as

/-- The instance that an action passes to `collect`. -/
def collected (m : Local) : Local.Act → Option Node
  | .collect => some m.nextNode
  | .unlink d => some d
  | _ => none

/-- The collector as it is allocated, outside of all guards. -/
structure New (m : Local) : Prop where
  pc : m.pc = .idle
  own : m.own = .empty
  numReaders : m.numReaders = 0
  inactive : m.inactive = true

/-- No destructor panics. -/
def NoPanic (_ : Local) (a : Local.Act) : Prop := a ≠ .panic

/-- No panic is in progress. -/
def calm : Local.Pc → Bool
  | .idle | .drain _ | .clear _ _ _ | .destructor _ _ _ | .scan false => true
  | _ => false

/-- The place of an instance after `k` turns. -/
def Aged (i : Node) (L : Spot → List Node) : Nat → Prop
  | 0 => i ∈ L .current
  | 1 => i ∈ L .previous
  | 2 => i ∈ L .next
  | 3 => i ∈ L .garbage ∨ i ∈ L .dropped
  | _ => i ∈ L .dropped

/-- A calm place is left for a calm one, unless a destructor panics. -/
theorem calm_move (h : calm x.pc = true) (hm : Move x a x') (ha : a ≠ .panic) :
    calm x'.pc = true := by
  cases hm with
  | guardSame | guardQuiet | guardNested | endNested | accelerate | setHasGarbage | mark | collect =>
    exact h
  | turn | drained | clearNext | clearTake => rfl
  | endLast hpc hn =>
    rcases endGuard_pc (m := x) false with hpc' | hpc' <;> rw [hpc'] <;> rfl
  | drain n hpc hf | clear link f callers n hpc hl hf =>
    show calm (if _ then _ else _) = true
    split <;> rfl
  | clearDone link f callers hpc hl hc hlists | destructor link callers n hpc =>
    show calm (Local.returnTo link callers) = true
    cases callers <;> rfl
  | scanned panics hpc =>
    rw [hpc] at h
    cases panics with
    | true => cases h
    | false => rfl
  | panic => exact absurd rfl ha
  | unlink d panics hpc hd => exact h
  | unwound hpc | unwind _ hpc | endPanic hpc | endPanicNested hpc | caught hpc =>
    rw [hpc] at h
    cases h

/-- Without a turn a node stays where it is, or it is dropped from `garbage_link`. -/
theorem mem_after (hx : Placed x Lx) (hc : calm x.pc = true) (hm : Move x a x')
    (hobs : observes x a = false) {p : Spot} (hp : ∀ d, p ≠ .inside d) (hp' : p ≠ .chain)
    (hi : i ∈ Lx p) :
    i ∈ after x Lx a p ∨ p = .garbage ∧ i ∈ after x Lx a .dropped := by
  cases hm with
  | guardSame | guardQuiet | guardNested =>
    left
    simpa [after, hobs] using hi
  | turn e hu hn he hg => simp [observes, hu, hn, he] at hobs
  | endNested | endLast | accelerate | setHasGarbage | mark | panic | caught => exact .inl hi
  | collect hu =>
    left
    by_cases hcur : p = .current
    · subst hcur
      rw [after, Function.update_self]
      exact List.mem_cons_of_mem _ hi
    · rw [after_collect hcur]
      exact hi
  | drained hpc | destructor _ _ _ hpc | scanned _ hpc =>
    left
    simpa [after, hpc] using hi
  | clearNext _ _ _ _ _ hpc hl | clearTake _ _ _ _ hpc hl | clearDone _ _ _ hpc hl =>
    left
    simpa [after, hpc, hl] using hi
  | drain n hpc hf =>
    have hl := hx.garbage
    rw [hpc] at hl
    obtain ⟨rest, hrest, -⟩ := hl.eq_cons
    have hLx : after x Lx .proceed = moved Lx .garbage rest .dropped n := by
      simp [after, hpc, hrest]
    rw [hLx]
    by_cases hg : p = .garbage
    · subst hg
      rw [hrest] at hi
      rcases List.mem_cons.mp hi with rfl | hi
      · exact .inr ⟨rfl, by rw [moved_to]; exact List.mem_cons_self⟩
      · exact .inl (by rw [moved_from (p := .garbage) (q := .dropped) (by simp)]; exact hi)
    · left
      by_cases hd : p = .dropped
      · subst hd
        rw [moved_to]
        exact List.mem_cons_of_mem n hi
      · rw [moved_of_ne hg hd]
        exact hi
  | clear link f callers n hpc hl hf =>
    left
    simp only [after, hpc, hl]
    by_cases hd : p = .dropped
    · subst hd
      rw [moved_to]
      exact List.mem_cons_of_mem n hi
    · rw [moved_of_ne (hp _) hd]
      exact hi
  | unlink d panics hpc hd =>
    left
    by_cases hcur : p = .current
    · subst hcur
      rw [after, moved_to]
      exact List.mem_cons_of_mem d hi
    · rw [after, moved_of_ne hp' hcur]
      exact hi
  | unwound hpc | unwind _ hpc | endPanic hpc | endPanicNested hpc =>
    rw [hpc] at hc
    cases hc

/-- Outside of the collector `garbage_link` is empty. -/
theorem garbage_nil (hx : Placed x Lx) (hpc : x.pc = .idle) : Lx .garbage = [] := by
  have hl := hx.garbage
  rw [hpc] at hl
  exact hl.eq_nil

/-- Empty lists. -/
theorem own_nil (hx : Placed x Lx) (hown : x.own = .empty) :
    Lx .previous = [] ∧ Lx .current = [] ∧ Lx .next = [] := by
  have hp := hx.previous
  have hc := hx.current
  have hn := hx.next
  rw [hown] at hp hc hn
  exact ⟨hp.eq_nil, hc.eq_nil, hn.eq_nil⟩

/-- One action. -/
theorem Aged.move {k : Nat} (h : Aged i Lx k) (hx : Placed x Lx) (hr : Readers x) (hf : Flagged x)
    (hc : calm x.pc = true) (hm : Move x a x') :
    Aged i (after x Lx a) (k + (observes x a).toNat) := by
  cases hobs : observes x a with
  | false =>
    have hmem : ∀ {p : Spot}, (∀ d, p ≠ .inside d) → p ≠ .chain → i ∈ Lx p →
        i ∈ after x Lx a p ∨ p = .garbage ∧ i ∈ after x Lx a .dropped :=
      fun hp hp' hi => mem_after hx hc hm hobs hp hp' hi
    have hkeep : ∀ {p : Spot}, (∀ d, p ≠ .inside d) → p ≠ .chain → p ≠ .garbage → i ∈ Lx p →
        i ∈ after x Lx a p := fun hp hp' hg hi => (hmem hp hp' hi).resolve_right fun hc => hg hc.1
    show Aged i (after x Lx a) k
    match k, h with
    | 0, h => exact hkeep nofun nofun nofun h
    | 1, h => exact hkeep nofun nofun nofun h
    | 2, h => exact hkeep nofun nofun nofun h
    | 3, .inl h => exact (hmem (p := .garbage) nofun nofun h).imp_right And.right
    | 3, .inr h => exact .inr (hkeep nofun nofun nofun h)
    | _ + 4, h => exact hkeep nofun nofun nofun h
  | true =>
    obtain ⟨e, rfl, hu, hn, he⟩ : ∃ e, a = .newGuard e ∧ x.user = true ∧ x.numReaders = 0 ∧
        x.announcement ≠ e := by
      cases a <;> simp [observes] at hobs
      exact ⟨_, rfl, hobs.1.1, hobs.1.2, hobs.2⟩
    have hnil := garbage_nil hx (idle_of_user hr hu hn)
    show Aged i (after x Lx (.newGuard e)) (k + 1)
    cases hg : x.hasGarbage with
    | true =>
      have hLx : after x Lx (.newGuard e) = turned Lx := by simp [after, hobs, hg]
      rw [hLx]
      match k, h with
      | 0, h => exact h
      | 1, h => exact h
      | 2, h => exact .inl h
      | 3, .inl h => rw [hnil] at h; cases h
      | 3, .inr h => exact h
      | _ + 4, h => exact h
    | false =>
      -- There is nothing on the lists.
      have hLx : after x Lx (.newGuard e) = Lx := by simp [after, hg]
      obtain ⟨hp, hcur, hnext⟩ := own_nil hx (hf hg)
      rw [hLx]
      match k, h with
      | 0, h => change i ∈ Lx .current at h; rw [hcur] at h; cases h
      | 1, h => change i ∈ Lx .previous at h; rw [hp] at h; cases h
      | 2, h => change i ∈ Lx .next at h; rw [hnext] at h; cases h
      | 3, .inl h => rw [hnil] at h; cases h
      | 3, .inr h => exact h
      | _ + 4, h => exact h

/-- What holds in all runs without panics. -/
structure Sound (m : Local) (L : Spot → List Node) : Prop where
  placed : Placed m L
  readers : Readers m
  flagged : Flagged m
  calm : calm m.pc = true

/-- A move without a panic keeps the places and the counts. -/
theorem Sound.move (h : Sound x Lx) (hm : Move x a x') (ha : a ≠ .panic) :
    Sound x' (after x Lx a) :=
  ⟨h.placed.move h.readers hm, h.readers.move hm, h.flagged.move hm, calm_move h.calm hm ha⟩

/-- A collector as it is allocated. -/
theorem sound_of_new (hnew : New m) (h : Placed m L) : Sound m L := by
  refine ⟨h, ?_, fun _ => hnew.own, ?_⟩
  · unfold Readers
    rw [hnew.pc]
    exact ⟨fun _ => hnew.inactive, fun _ => hnew.numReaders⟩
  · rw [hnew.pc]
    rfl

/-- A run from a state in which the instance is at the place after `k` turns. -/
theorem aged_run {as : List Local.Act} {k : Nat} (h : Sound x Lx) (hi : Aged i Lx k)
    (hrun : exec Local.step (fun _ _ => true) x as = some x') (has : ∀ a ∈ as, a ≠ .panic) :
    ∃ L', Sound x' L' ∧ Aged i L' (k + turns x as) := by
  induction as generalizing x Lx k with
  | nil =>
    cases hrun
    exact ⟨Lx, h, hi⟩
  | cons a as ih =>
    rw [exec, if_pos rfl] at hrun
    obtain ⟨y, hs, hrun⟩ := Option.bind_eq_some_iff.mp hrun
    have hm := move_of_step hs
    have hcount : k + turns x (a :: as) = k + (observes x a).toNat + turns y as := by
      rw [turns, hs, Option.elim_some, Nat.add_assoc]
    rw [hcount]
    exact ih (h.move hm (has a List.mem_cons_self))
      (hi.move h.placed h.readers h.flagged h.calm hm) hrun
      fun b hb => has b (List.mem_cons_of_mem a hb)

/-- A retired instance is on the current list. -/
theorem aged_collected (hm : Move x a x') (hn : collected x a = some i) :
    Aged i (after x Lx a) 0 := by
  show i ∈ after x Lx a .current
  cases a with
  | collect =>
    cases hn
    rw [after, Function.update_self]
    exact List.mem_cons_self
  | unlink d =>
    cases hn
    rw [after, moved_to]
    exact List.mem_cons_self
  | newGuard | endGuard | accelerate | setHasGarbage | proceed | panic | caught | mark => cases hn

/-- Take an instance that is passed to `collect` in a run of a collector. It is not dropped before
a third guard has observed another epoch than the announced one, and it is dropped once when that
guard has been created. When `has_garbage` is not set, all lists are empty. -/
theorem generations (h₀ : Placed m₀ L) (hnew : New m₀) (h₁ : Run Local.step NoPanic m₀ m₁)
    (hs : m₁.step a = some m₂) (hn : collected m₁ a = some i) {as : List Local.Act}
    (h₂ : exec Local.step (fun _ _ => true) m₂ as = some m₃) (has : ∀ b ∈ as, b ≠ .panic) :
    (turns m₂ as < 3 → i ∉ m₃.dropped) ∧
      (turns m₂ as = 3 → m₃.dropped.count i = 1 ∨ draining m₃.pc = true) ∧
      (3 < turns m₂ as → m₃.dropped.count i = 1) ∧
      m₃.dropped.count i ≤ 1 ∧ (m₃.hasGarbage = false → m₃.own = .empty) := by
  obtain ⟨L₁, hL₁⟩ := h₁.invariant (fun x => ∃ Lx, Sound x Lx) ⟨L, sound_of_new hnew h₀⟩
    fun _ _ _ ⟨_, hx⟩ hp hs => ⟨_, hx.move (move_of_step hs) hp⟩
  have hm := move_of_step hs
  have ha : a ≠ .panic := by
    rintro rfl
    cases hn
  obtain ⟨L₃, h₃, hi₃⟩ := aged_run (hL₁.move hm ha) (aged_collected hm hn) h₂ has
  rw [Nat.zero_add] at hi₃
  have honce : i ∈ L₃ .dropped → m₃.dropped.count i = 1 := fun hd => by
    rw [← h₃.placed.dropped]
    exact h₃.placed.count hd
  refine ⟨fun hk => ?_, fun hk => ?_, fun hk => ?_, ?_, h₃.flagged⟩
  · -- It is on one of the lists.
    have hlisted : ∃ p, i ∈ L₃ p ∧ p ≠ .dropped := by
      generalize turns m₂ as = k at hk hi₃
      match k, hk, hi₃ with
      | 0, _, hi₃ => exact ⟨.current, hi₃, nofun⟩
      | 1, _, hi₃ => exact ⟨.previous, hi₃, nofun⟩
      | 2, _, hi₃ => exact ⟨.next, hi₃, nofun⟩
    obtain ⟨p, hp, hne⟩ := hlisted
    exact h₃.placed.not_dropped hp hne
  · rw [hk] at hi₃
    rcases hi₃ with hg | hd
    · -- It is in `garbage_link`, so that the guard is still being created.
      right
      have hl := h₃.placed.garbage
      have hcalm := h₃.calm
      cases hpc : m₃.pc with
      | drain _ | clear _ _ _ | destructor _ _ _ => rfl
      | idle | scan _ =>
        rw [hpc] at hl
        rw [hl.eq_nil] at hg
        cases hg
      | unwind _ | endGuard | panicked =>
        rw [hpc] at hcalm
        cases hcalm
    · exact .inl (honce hd)
  · obtain ⟨k, hk'⟩ := Nat.exists_eq_add_of_lt hk
    have hfour : turns m₂ as = k + 4 := by omega
    rw [hfour] at hi₃
    exact honce hi₃
  · rw [← h₃.placed.dropped]
    exact List.nodup_iff_count_le_one.mp (h₃.placed.scattered.nodup .dropped) _

/-- A collector as it is allocated, and the collector of another thread. -/
def newLocal : Local where
  link _ := none
  lists n := if n = 0 then some .empty else none
  freed _ := false
  nextNode := 1
  chain := [0]
  marked := false
  own := .empty
  inactive := true
  announcement := .default
  nextEpochUpdate := Local.CADENCE
  hasGarbage := false
  numReaders := 0
  pc := .idle
  dropped := []

/-- The collector of the other thread is in the chain. -/
def newPlaces : Spot → List Node
  | .chain => [0]
  | _ => []

/-- Nothing was retired. -/
theorem newPlaces_eq_nil {p : Spot} (hp : p ≠ .chain) : newPlaces p = [] := by
  cases p with
  | chain => exact absurd rfl hp
  | previous | current | next | garbage | dropped | inside => rfl

/-- The only node is the collector of the other thread. -/
theorem mem_newPlaces {p : Spot} {n : Node} (h : n ∈ newPlaces p) : p = .chain ∧ n = 0 := by
  by_cases hp : p = .chain
  · subst hp
    exact ⟨rfl, List.mem_singleton.mp h⟩
  · rw [newPlaces_eq_nil hp] at h
    cases h

/-- The only node is at exactly one place. -/
theorem newLocal_placed : Placed newLocal newPlaces where
  scattered := by
    refine ⟨fun p => ?_, fun p q n hp hq => (mem_newPlaces hp).1.trans (mem_newPlaces hq).1.symm⟩
    by_cases hp : p = .chain
    · subst hp
      exact List.nodup_singleton 0
    · rw [newPlaces_eq_nil hp]
      exact List.nodup_nil
  previous := rfl
  current := rfl
  next := rfl
  garbage := rfl
  chain := rfl
  dropped := rfl
  clearing := nofun
  listed d _ _ := by
    by_cases hd : d = 0
    · subst hd
      exact ⟨[], [], rfl, rfl, [], [], rfl, rfl, [], [], rfl, rfl, rfl⟩
    · have hc : containers newLocal d = [] := by
        simp [containers, newLocal, hd]
      rw [hc]
      rfl
  distinct := List.nodup_nil
  opened := nofun
  running := nofun
  fresh p n hn := by
    rw [(mem_newPlaces hn).2]
    exact Nat.zero_lt_one
  live _ _ _ _ := rfl
  unused _ _ := ⟨rfl, rfl⟩

/-- Three turns; the destructor of the instance retires another one. -/
def threeTurns : List Local.Act :=
  [.endGuard, .newGuard Epoch.default.next, .proceed, .endGuard, .newGuard .default, .proceed,
    .endGuard, .newGuard Epoch.default.next, .proceed, .collect, .proceed, .proceed]

/-- Three epochs later the node has been dropped. -/
theorem generations_threeTurns : ∃ m m' : Local,
    turns m threeTurns = 3 ∧ m'.pc = .idle ∧ m'.hasGarbage = true ∧
      (turns m threeTurns < 3 → 1 ∉ m'.dropped) ∧
      (turns m threeTurns = 3 → m'.dropped.count 1 = 1 ∨ draining m'.pc = true) ∧
      (3 < turns m threeTurns → m'.dropped.count 1 = 1) ∧
      m'.dropped.count 1 ≤ 1 ∧ (m'.hasGarbage = false → m'.own = .empty) := by
  have hex : (newLocal.step (.newGuard .default)).any (fun m₁ => (m₁.step .collect).any fun m =>
      (exec Local.step (fun _ _ => true) m threeTurns).any fun m' =>
        decide (collected m₁ .collect = some 1 ∧ turns m threeTurns = 3 ∧ m'.pc = .idle ∧
          m'.hasGarbage = true)) = true := by decide +kernel
  obtain ⟨m₁, h₁, hex⟩ := (Option.any_eq_true _ _).mp hex
  obtain ⟨m, hs, hex⟩ := (Option.any_eq_true _ _).mp hex
  obtain ⟨m', h₂, hex⟩ := (Option.any_eq_true _ _).mp hex
  obtain ⟨hn, hturns, hpc, hg⟩ := of_decide_eq_true hex
  exact ⟨m, m', hturns, hpc, hg, generations newLocal_placed ⟨rfl, rfl, rfl, rfl⟩
    (.head (.newGuard .default) nofun h₁ .refl) hs hn h₂ (by decide)⟩

end Local

end Sdd.Proofs
