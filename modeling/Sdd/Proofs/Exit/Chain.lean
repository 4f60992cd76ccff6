import Sdd.Proofs.Collector.Chain
import Sdd.Proofs.Exit.Move

/-!
# `Sdd.Proofs.Exit.Chain`: the chain when threads exit

The collectors that are linked from `chain_head`, and the lock, when threads exit. The chain
can be taken as a whole by `clear_chain`: the ghost state holds the list `chain` of the
collectors that are linked, and the list `freeing` of those that `clear_chain` has
taken and not freed yet. `Inv` says where the walks of `scan` and of `clear_chain` stand in
the chain, that at most one thread holds the lock, and that a temporary collector is never
in the chain. A thread may exit with a leaked guard: nothing here depends on the readers of
a collector.

A step of the collector changes the chain in one of four ways (`ChainEffect`), and the lock
in one of three (`LockEffect`). The invariant of the steps of the collector is derived from
these.
-/

set_option autoImplicit false

namespace Sdd.Proofs.Exit

open Process (Stage)
open Sdd.Collector Sdd.Lib

/-- The ghost state: the collectors in the chain, and those that `clear_chain` frees. -/
structure Ghost where
  chain : List CollectorId
  freeing : List CollectorId

/-- The chain is locked. -/
def Locked (b : World) : Prop := b.chainHead.tag = .first ∨ b.chainHead.tag = .both

/-- The thread holds the chain lock in `clear_chain`. -/
def holding : Stage → Bool
  | .walk _ _ _ | .walkNext _ _ _ | .free _ _ | .drop _ _ _ | .dropping _ _ _
  | .unlockChain _ _ => true
  | _ => false

/-- The thread is freeing the collectors of the chain. -/
def freeing : Stage → Bool
  | .free _ _ | .drop _ _ _ | .dropping _ _ _ => true
  | _ => false

/-- The chain is locked while its collectors are freed. -/
theorem holding_of_freeing {s : Stage} (h : freeing s = true) : holding s = true := by
  cases s with
  | free | drop | dropping => rfl
  | unused | live | lockChain | walk | walkNext | unlockChain | markScanEnforced | clear
    | clearDrop | clearDropping | done => cases h

/-- The thread holds the chain lock. -/
def locks (w : Process) (t : Tid) : Bool := locking (w.base.pc t) || holding (w.stage t)

/-- A collector is marked obsolete. -/
def Invalid (b : World) (c : CollectorId) : Prop := (b.collectors c).state.invalid = true

/-- The last collector behind a walk. -/
def Behind (prev : Option CollectorId) (front : List CollectorId) : Prop :=
  ∀ p, prev = some p → ∃ f, front = f ++ [p]

/-- Where the walk of `scan` stands in the chain. -/
def WalksAt (b : World) (chain : List CollectorId) : Pc → Prop
  | .knownEpoch _ current => ∃ front rest, chain = front ++ rest ∧ current = rest.head?
  | .scan _ _ prev current => ∃ front rest, chain = front ++ rest ∧ current = rest.head? ∧
      Behind prev front
  | .scanNext c _ prev d state => ∃ front rest, chain = front ++ d :: rest ∧ Behind prev front ∧
      (state.invalid = true → Invalid b d) ∧ d ≠ c
  | .unlink c _ prev d next => ∃ front rest, chain = front ++ d :: rest ∧ Behind prev front ∧
      next = rest.head? ∧ Invalid b d ∧ d ≠ c
  | _ => True

/-- Where `clear_chain` stands. -/
def StandsAt (b : World) (g : Ghost) : Stage → Prop
  | .walk _ head current => ∃ front seen rest, g.chain = front ++ (seen ++ rest) ∧
      head = (seen ++ rest).head? ∧ current = rest.head? ∧ ∀ d ∈ seen, Invalid b d
  | .walkNext _ head d => ∃ front seen rest, g.chain = front ++ (seen ++ d :: rest) ∧
      head = (seen ++ d :: rest).head? ∧ Invalid b d ∧ ∀ x ∈ seen, Invalid b x
  | .free _ current => Linked (nextLinks b) current g.freeing
  | .drop _ _ next | .dropping _ _ next => Linked (nextLinks b) next g.freeing
  | _ => True

/-- The collectors that the threads have. A temporary collector is that of one thread. -/
structure Temps (w : Process) : Prop where
  fresh : ∀ t c, (w.stage t).temp = some c → c < w.base.nextCollector
  inj : ∀ t t' c, (w.stage t).temp = some c → (w.stage t').temp = some c → t' = t
  held : ∀ t t' c, (w.stage t).temp = some c → holds w.base t' = some c → t' = t
  own : ∀ t c, (w.stage t).temp = some c →
    w.base.localCollector t = some c ∨ w.base.localCollector t = none
  quiet : ∀ t, (w.stage t).user = false → w.base.pc t = .idle
  noAlloc : ∀ t, (w.stage t).temp ≠ none → ∀ c p, w.base.pc t ≠ .alloc c p

/-- The chain: the collectors that are linked from `chain_head`, and those that are being
freed. -/
structure Chain (w : Process) (g : Ghost) : Prop where
  linked : Linked (nextLinks w.base) w.base.chainHead.addr g.chain
  nodup : (g.chain ++ g.freeing).Nodup
  mem : ∀ t c, w.base.localCollector t = some c → c ∈ g.chain ∨ (w.stage t).temp = some c
  fresh : ∀ c ∈ g.chain ++ g.freeing, c < w.base.nextCollector
  preparing : ∀ t c p, w.base.pc t = .alloc c p → c ∉ g.chain ++ g.freeing
  temp : ∀ t c, (w.stage t).temp = some c → c ∉ g.chain ++ g.freeing
  invalid : ∀ c ∈ g.freeing, Invalid w.base c
  idle : (∀ t, freeing (w.stage t) = false) → g.freeing = []

/-- The invariant of the collector with thread exit. -/
structure Inv (w : Process) (g : Ghost) : Prop where
  owning : Owning w.base
  temps : Temps w
  chain : Chain w g
  locked : ∀ t, locks w t = true → Locked w.base
  unique : ∀ t t', locks w t = true → locks w t' = true → t = t'
  apart : ∀ t, locking (w.base.pc t) = true → holding (w.stage t) = false
  walks : ∀ t, WalksAt w.base g.chain (w.base.pc t)
  stands : ∀ t, StandsAt w.base g (w.stage t)

/-- The first state. -/
theorem inv_init : Inv Process.init ⟨[], []⟩ where
  owning := threads_init.toOwning
  temps := {
    fresh := nofun
    inj := nofun
    held := nofun
    own := nofun
    quiet := fun _ _ => rfl
    noAlloc := fun _ _ => nofun }
  chain := {
    linked := rfl
    nodup := List.nodup_nil
    mem := nofun
    fresh := nofun
    preparing := nofun
    temp := nofun
    invalid := nofun
    idle := fun _ => rfl }
  locked := nofun
  unique := nofun
  apart := nofun
  walks := fun _ => trivial
  stands := fun _ => trivial

/-! ## What a step of the collector does to the chain and to the lock -/

variable {b b' : World} {t : Tid} {act : Act}

/-- A step of the collector either leaves the chain as it is, or pushes a collector that was
prepared, or takes an obsolete one out. -/
inductive ChainEffect (b : World) (t : Tid) (b' : World) : Prop where
  | keep (haddr : b'.chainHead.addr = b.chainHead.addr)
      (hlinks : ∀ d, (∀ p, b.pc t ≠ .alloc d p) → d ≠ b.nextCollector →
        nextLinks b' d = nextLinks b d)
      (hlocal : ∀ d, b'.localCollector t = some d → b.localCollector t = some d)
  | push (c : CollectorId) (hpc : b.pc t = .alloc c b.chainHead)
      (haddr : b'.chainHead.addr = some c) (hnext : nextLinks b' c = b.chainHead.addr)
      (hlinks : ∀ d, d ≠ c → nextLinks b' d = nextLinks b d)
      (hlocal : b'.localCollector t = some c) (hpc' : b'.pc t = .idle)
  | cutHead (c : CollectorId) (known : StateByte) (d : CollectorId) (next : Option CollectorId)
      (hpc : b.pc t = .unlink c known none d next) (hd : b.chainHead.addr = some d)
      (haddr : b'.chainHead.addr = next) (hlinks : ∀ x, nextLinks b' x = nextLinks b x)
      (hlocal : b'.localCollector t = b.localCollector t)
      (hpc' : b'.pc t = .scan c known none next)
  | cutMid (c : CollectorId) (known : StateByte) (p d : CollectorId)
      (next : Option CollectorId) (hpc : b.pc t = .unlink c known (some p) d next)
      (haddr : b'.chainHead.addr = b.chainHead.addr)
      (hlinks : ∀ x, nextLinks b' x = Function.update (nextLinks b) p next x)
      (hlocal : b'.localCollector t = b.localCollector t)
      (hpc' : b'.pc t = .scan c known (some p) next)

/-- A write that keeps the links leaves the chain as it is. -/
private theorem keep_of_eq (haddr : b'.chainHead.addr = b.chainHead.addr)
    (hlinks : ∀ d, nextLinks b' d = nextLinks b d)
    (hlocal : b'.localCollector = b.localCollector) : ChainEffect b t b' :=
  .keep haddr (fun d _ _ => hlinks d) fun _ hc => hlocal ▸ hc

/-- The links after an obsolete collector is taken out of the middle of the chain. -/
theorem nextLinks_cutMid {c d p : CollectorId} {next : Option CollectorId} {pc : Pc}
    (x : CollectorId) :
    nextLinks (((b.modify p fun k => { k with nextLink := next }).modify c
      (·.collect (.collector d))).goto t pc) x = Function.update (nextLinks b) p next x := by
  refine (nextLinks_modify (w := b.modify p fun k => { k with nextLink := next })
    (f := (·.collect (.collector d))) rfl x).trans ?_
  unfold nextLinks
  rw [World.modify_collectors]
  by_cases hx : x = p
  · subst hx
    rw [Function.update_self, Function.update_self]
  · rw [Function.update_of_ne hx, Function.update_of_ne hx]

/-- Every step of the collector has one of the four effects on the chain. -/
theorem chainEffect (h : Proofs.Move b t act b') : ChainEffect b t b' := by
  -- Of the collectors only the fields beside next_link change in most steps.
  have hmodify : ∀ (w : World) (c : CollectorId) (f : Collector → Collector) (pc : Pc),
      (f (w.collectors c)).nextLink = (w.collectors c).nextLink →
        ∀ d, nextLinks ((w.modify c f).goto t pc) d = nextLinks w d :=
    fun _ _ _ _ hf d => nextLinks_modify hf d
  cases h with
  | allocBegin hpc hl =>
    -- A collector that alloc has just made is reached by no other link yet.
    refine .keep rfl (fun d _ hd => ?_) fun c hc => hc
    show (Function.update b.collectors b.nextCollector .new d).nextLink = _
    rw [Function.update_of_ne hd]
    rfl
  | allocRetry c p hpc =>
    refine .keep rfl (fun d hd _ => ?_) fun c hc => hc
    have hne : d ≠ c := by
      rintro rfl
      exact hd p hpc
    show (Function.update b.collectors c _ d).nextLink = _
    rw [Function.update_of_ne hne]
    rfl
  | allocDone c p hpc hp =>
    -- The exchange of alloc that succeeds puts the collector in front of the chain.
    refine .push c (hp.symm ▸ hpc) rfl ?_ (fun d hd => ?_) (Function.update_self _ _ _)
      (Function.update_self _ _ _)
    · show (Function.update b.collectors c _ c).nextLink = _
      rw [Function.update_self, hp]
    · show (Function.update b.collectors c _ d).nextLink = _
      rw [Function.update_of_ne hd]
      rfl
  | load c hu hn => exact keep_of_eq rfl (hmodify b c _ _ rfl) rfl
  | publishSame c e hpc ha => exact keep_of_eq rfl (hmodify b c _ _ rfl) rfl
  | publishQuiet c e hpc ha hg => exact keep_of_eq rfl (hmodify b c _ _ rfl) rfl
  | publishRotate c e hpc ha hg => exact keep_of_eq rfl (hmodify b c _ _ rfl) rfl
  | drainDone c hpc => exact keep_of_eq rfl (hmodify b c _ _ rfl) rfl
  | drainInst c i rest hpc => exact keep_of_eq rfl (fun _ => rfl) rfl
  | drainCollector c d rest hpc => exact keep_of_eq rfl (hmodify b d _ _ rfl) rfl
  | destructor c rest hpc => exact keep_of_eq rfl (fun _ => rfl) rfl
  | user c f hu hn hf hk =>
    exact keep_of_eq rfl (nextLinks_modify (by rw [hk])) rfl
  | endScan c hpc hl hn => exact keep_of_eq rfl (hmodify b c _ _ rfl) rfl
  | endQuiet c u hpc hl hn => exact keep_of_eq rfl (hmodify b c _ _ rfl) rfl
  | lockFail c hpc => exact keep_of_eq rfl (nextLinks_scanned b t c) rfl
  | lock c hpc hf hb => exact keep_of_eq rfl (fun _ => rfl) rfl
  | knownEpoch c current hpc => exact keep_of_eq rfl (fun _ => rfl) rfl
  | store c known prev hpc => exact keep_of_eq rfl (fun _ => rfl) rfl
  | scanOwn c known prev hpc => exact keep_of_eq rfl (fun _ => rfl) rfl
  | scanLoad c known prev d hpc hd => exact keep_of_eq rfl (fun _ => rfl) rfl
  | nextInvalid c known prev d state hpc hi => exact keep_of_eq rfl (fun _ => rfl) rfl
  | nextBreak c known prev d state hpc => exact keep_of_eq rfl (fun _ => rfl) rfl
  | nextPass c known prev d state hpc hi hk => exact keep_of_eq rfl (fun _ => rfl) rfl
  | unlinkHead c known d next hpc hd =>
    -- The head is cut off by an exchange on chain_head, any other collector by a store to the link
    -- in front of it.
    exact .cutHead c known d next hpc hd rfl
      (hmodify { b with chainHead := ⟨next, b.chainHead.tag⟩ } c _ _ rfl) rfl
      (Function.update_self _ _ _)
  | unlinkFail c known d next hpc hd => exact keep_of_eq rfl (fun _ => rfl) rfl
  | unlinkMid c known p d next hpc =>
    exact .cutMid c known p d next hpc rfl (fun x => nextLinks_cutMid x) rfl
      (Function.update_self _ _ _)
  | unlock c hpc => exact keep_of_eq rfl (nextLinks_scanned b.unlockChain t c) rfl
  | setInactive c hpc => exact keep_of_eq rfl (hmodify b c _ _ rfl) rfl
  | markScanEnforced tag hpc hf hb => exact keep_of_eq rfl (fun _ => rfl) rfl
  | collect c hu =>
    exact keep_of_eq rfl
      (fun d => nextLinks_modify (w := b) (f := (·.collect (.inst b.nextInst))) rfl d) rfl
  | suspendNone ha => exact keep_of_eq rfl (fun _ => rfl) rfl
  | suspend c hu hn ha =>
    refine .keep rfl (fun d _ _ => nextLinks_modify (w := b)
      -- The thread is idle after a suspension, so it prepares no collector.
      (f := fun k => { k with state := { k.state with invalid := true } }) rfl d) fun c hc => ?_
    cases (Function.update_self _ _ _).symm.trans hc

/-- A step of the collector either does not concern the lock, or takes it, or gives it
back. -/
inductive LockEffect (b : World) (t : Tid) (b' : World) : Prop where
  | same (hl : locking (b'.pc t) = locking (b.pc t)) (hlocked : Locked b' ↔ Locked b)
  | acquire (c : CollectorId) (hpc : b.pc t = .lockChain c) (hfree : ¬Locked b)
      (hlocked : Locked b') (hpc' : b'.pc t = .knownEpoch c b.chainHead.addr)
  | release (c : CollectorId) (hpc : b.pc t = .unlockChain c) (hfree : ¬Locked b')
      (hpc' : b'.pc t = .setInactive c)

/-- `unlock_chain` unlocks the chain. -/
theorem not_locked_unlockChain (b : World) : ¬Locked b.unlockChain := by
  unfold Locked World.unlockChain
  show ¬((if b.chainHead.tag = .first then Tag.none else .second) = .first ∨
    (if b.chainHead.tag = .first then Tag.none else .second) = .both)
  split <;> simp

/-- Every step of the collector has one of the three effects on the lock. -/
theorem lockEffect (h : Proofs.Move b t act b') : LockEffect b t b' := by
  -- Where chain_head is not written, it is enough that the step neither enters nor leaves the scan.
  have hgoto : ∀ {pc : Pc} {w : World} {pc' : Pc}, b.pc t = pc → locking pc' = locking pc →
      (Locked (w.goto t pc') ↔ Locked b) → LockEffect b t (w.goto t pc') := by
    intro pc w pc' hpc hl hlocked
    refine .same ?_ hlocked
    rw [World.goto_pc, Function.update_self, hpc, hl]
  cases h with
  | allocBegin hpc hl => exact hgoto hpc rfl .rfl
  | allocRetry c p hpc => exact hgoto hpc rfl .rfl
  | allocDone c p hpc hp =>
    refine hgoto hpc rfl ?_
    rw [← hp]
    -- The guard a thread makes is inside new_guard, not inside the scan, whether a user or a
    -- destructor asked for it.
    exact .rfl
  | load c hu hn =>
    refine .same ?_ .rfl
    rw [World.goto_pc, Function.update_self]
    rcases Owning.user_cases hu with ⟨hpc, -⟩ | ⟨rest, hpc⟩ <;> rw [hpc] <;> rfl
  | publishSame c e hpc ha => exact hgoto hpc rfl .rfl
  | publishQuiet c e hpc ha hg => exact hgoto hpc rfl .rfl
  | publishRotate c e hpc ha hg => exact hgoto hpc rfl .rfl
  | drainDone c hpc => exact hgoto hpc rfl .rfl
  | drainInst c i rest hpc => exact hgoto hpc rfl .rfl
  | drainCollector c d rest hpc => exact hgoto hpc rfl .rfl
  | destructor c rest hpc => exact hgoto hpc rfl .rfl
  | user c f hu hn hf hk => exact .same rfl .rfl
  | endScan c hpc hl hn => exact hgoto hpc rfl .rfl
  | endQuiet c u hpc hl hn => exact hgoto hpc rfl .rfl
  | lockFail c hpc => exact hgoto hpc rfl .rfl
  | lock c hpc hf hb =>
    -- The exchange that locks succeeds only on a chain that is free.
    exact .acquire c hpc (fun h => h.elim hf hb) (.inl rfl) (Function.update_self _ _ _)
  | knownEpoch c current hpc => exact hgoto hpc rfl .rfl
  | store c known prev hpc => exact hgoto hpc rfl .rfl
  | scanOwn c known prev hpc => exact hgoto hpc rfl .rfl
  | scanLoad c known prev d hpc hd => exact hgoto hpc rfl .rfl
  | nextInvalid c known prev d state hpc hi => exact hgoto hpc rfl .rfl
  | nextBreak c known prev d state hpc => exact hgoto hpc rfl .rfl
  | nextPass c known prev d state hpc hi hk => exact hgoto hpc rfl .rfl
  | unlinkHead c known d next hpc hd => exact hgoto hpc rfl .rfl
  | unlinkFail c known d next hpc hd => exact hgoto hpc rfl .rfl
  | unlinkMid c known p d next hpc => exact hgoto hpc rfl .rfl
  | unlock c hpc =>
    exact .release c hpc (not_locked_unlockChain b) (Function.update_self _ _ _)
  | setInactive c hpc => exact hgoto hpc rfl .rfl
  | markScanEnforced tag hpc hf hb hn =>
    -- The tag that mark_scan_enforced writes says locked exactly when the one it found does.
    refine hgoto hpc rfl ⟨fun h => ?_, fun h => .inr (h.elim hf hb)⟩
    by_contra hno
    have htag : tag = .second := hn (fun h => hno (.inl h)) fun h => hno (.inr h)
    rw [htag] at h
    exact h.elim nofun nofun
  | collect c hu => exact .same rfl .rfl
  | suspendNone ha => exact .same rfl .rfl
  | suspend c hu hn ha =>
    refine .same ?_ .rfl
    rw [World.goto_pc, Function.update_self]
    rcases Owning.user_cases hu with ⟨hpc, -⟩ | ⟨rest, hpc⟩ <;> rw [hpc] <;> rfl

/-- A thread that allocates a collector after a step of the collector has done so before, or
begins to. -/
theorem alloc_back (h : Proofs.Move b t act b') {c : CollectorId} {p : Ptr CollectorId}
    (hpc : b'.pc t = .alloc c p) :
    (∃ q, b.pc t = .alloc c q) ∨ act = .alloc ∧ c = b.nextCollector := by
  cases h with
  | allocBegin hpc' hl ha =>
    rw [World.goto_pc, Function.update_self] at hpc
    cases hpc
    exact .inr ⟨ha, rfl⟩
  -- Only the two steps of alloc lead to another attempt.
  | allocRetry d q hpc' =>
    rw [World.goto_pc, Function.update_self] at hpc
    cases hpc
    exact .inl ⟨q, hpc'⟩
  | user | collect | suspendNone => exact .inl ⟨p, hpc⟩
  | lockFail | unlock =>
    unfold World.scanned at hpc
    rw [World.goto_pc, Function.update_self] at hpc
    cases hpc
  | _ =>
    rw [World.goto_pc, Function.update_self] at hpc
    cases hpc

/-- Nobody has an obsolete collector. -/
theorem holds_ne_of_invalid (h : Owning b) {c : CollectorId} (hi : Invalid b c) :
    holds b t ≠ some c := by
  intro hh
  cases hl : b.localCollector t with
  | some d =>
    have hdc : d = c := Option.some.inj ((h.holds_of_local hl).symm.trans hh)
    have hv := (h.registered t d hl).1
    rw [hdc, hi] at hv
    cases hv
  | none =>
    -- A collector under preparation is as good as new.
    have hu := h.unregistered t hl
    unfold holds at hh
    cases hpc : b.pc t with
    | alloc d p =>
      rw [hpc] at hh hu
      cases hh
      cases hi.symm.trans (congrArg (·.1.invalid) hu)
    | _ =>
      rw [hpc] at hh
      cases hl.symm.trans hh

/-- An obsolete collector stays obsolete: nobody has it any more. -/
theorem invalid_stays (h : Owning b) (hm : Proofs.Move b t act b') {c : CollectorId}
    (hc : c < b.nextCollector) (hi : Invalid b c) : Invalid b' c := by
  have hh : holds b t ≠ some c := holds_ne_of_invalid h hi
  have hh' : holds b' t ≠ some c := fun hh' => (h.holds_back hm hh').elim hh
    fun hle => absurd hc (Nat.not_lt.mpr hle)
  have hs : (b'.collectors c).state = (b.collectors c).state :=
    congrArg Prod.fst (h.core_of_foreign hm hh hh')
  unfold Invalid
  rw [hs]
  exact hi

/-- A walk of `scan` goes on when collectors are pushed in front of the chain. -/
theorem WalksAt.frame {chain : List CollectorId} {pc : Pc} (h : WalksAt b chain pc)
    (pre : List CollectorId) (hinv : ∀ d ∈ chain, Invalid b d → Invalid b' d) :
    WalksAt b' (pre ++ chain) pc := by
  -- What stands in front of the chain stays in front of whatever a scan has behind it.
  have hbehind : ∀ {prev front}, Behind prev front → Behind prev (pre ++ front) := by
    intro prev front hb p hp
    obtain ⟨f, hf⟩ := hb p hp
    exact ⟨pre ++ f, by rw [hf, List.append_assoc]⟩
  cases pc with
  | knownEpoch c current =>
    obtain ⟨front, rest, hc, hcur⟩ := h
    exact ⟨pre ++ front, rest, by rw [hc, List.append_assoc], hcur⟩
  | scan c known prev current =>
    obtain ⟨front, rest, hc, hcur, hb⟩ := h
    exact ⟨pre ++ front, rest, by rw [hc, List.append_assoc], hcur, hbehind hb⟩
  -- The collector a scan has read stays INVALID if it was found INVALID.
  | scanNext c known prev d state =>
    obtain ⟨front, rest, hc, hb, hi, hd⟩ := h
    have hmem : d ∈ chain := hc ▸ List.mem_append_right front List.mem_cons_self
    exact ⟨pre ++ front, rest, by rw [hc, List.append_assoc], hbehind hb,
      fun hs => hinv d hmem (hi hs), hd⟩
  | unlink c known prev d next =>
    obtain ⟨front, rest, hc, hb, hn, hi, hd⟩ := h
    have hmem : d ∈ chain := hc ▸ List.mem_append_right front List.mem_cons_self
    exact ⟨pre ++ front, rest, by rw [hc, List.append_assoc], hbehind hb, hn, hinv d hmem hi, hd⟩
  | idle | alloc | newGuard | drain | destructor | lockChain | unlockChain | setInactive
    | markScanEnforced => trivial

/-- `clear_chain` goes on when collectors are pushed in front of the chain. -/
theorem StandsAt.frame {g g' : Ghost} {s : Stage} (h : StandsAt b g s) (pre : List CollectorId)
    (hchain : g'.chain = pre ++ g.chain) (hfreeing : g'.freeing = g.freeing)
    (hinv : ∀ d ∈ g.chain, Invalid b d → Invalid b' d)
    (hlinks : ∀ d ∈ g.freeing, nextLinks b' d = nextLinks b d) : StandsAt b' g' s := by
  cases s with
  | walk temp head current =>
    obtain ⟨front, seen, rest, hc, hh, hcur, hi⟩ := h
    -- The collectors that clear_chain has walked over are INVALID, and INVALID is not taken back.
    refine ⟨pre ++ front, seen, rest, by rw [hchain, hc, List.append_assoc], hh, hcur,
      fun d hd => hinv d ?_ (hi d hd)⟩
    rw [hc]
    exact List.mem_append_right front (List.mem_append_left rest hd)
  | walkNext temp head d =>
    obtain ⟨front, seen, rest, hc, hh, hd, hi⟩ := h
    refine ⟨pre ++ front, seen, rest, by rw [hchain, hc, List.append_assoc], hh, hinv d ?_ hd,
      fun x hx => hinv x ?_ (hi x hx)⟩
    · rw [hc]
      exact List.mem_append_right front (List.mem_append_right seen List.mem_cons_self)
    · rw [hc]
      exact List.mem_append_right front (List.mem_append_left _ hx)
  | free temp current =>
    unfold StandsAt
    rw [hfreeing]
    exact h.congr hlinks
  | drop temp garbage next =>
    unfold StandsAt
    rw [hfreeing]
    exact h.congr hlinks
  | dropping temp garbage next =>
    unfold StandsAt
    rw [hfreeing]
    exact h.congr hlinks
  | unused | live | lockChain | unlockChain | markScanEnforced | clear | clearDrop
    | clearDropping | done => trivial

/-- Outside of the lock the walk of `scan` is not in progress. -/
theorem walksAt_of_not_locking {chain : List CollectorId} {pc : Pc} (h : locking pc = false) :
    WalksAt b chain pc := by
  cases pc with
  | knownEpoch | scan | scanNext | unlink => cases h
  | idle | alloc | newGuard | drain | destructor | lockChain | unlockChain | setInactive
    | markScanEnforced => trivial

/-- Outside of the lock `clear_chain` is not in progress. -/
theorem standsAt_of_not_holding {g : Ghost} {s : Stage} (h : holding s = false) :
    StandsAt b g s := by
  cases s with
  | walk | walkNext | free | drop | dropping => cases h
  | unused | live | lockChain | unlockChain | markScanEnforced | clear | clearDrop
    | clearDropping | done => trivial

/-! ## Steps of the collector -/

section used
variable (s : Stage) (a : Act) (g : Ghost)

@[simp] theorem used_temp : (Process.used s a).temp = s.temp := by
  cases s <;> cases a <;> rfl

@[simp] theorem used_user : (Process.used s a).user = s.user := by
  cases s <;> cases a <;> rfl

@[simp] theorem used_holding : holding (Process.used s a) = holding s := by
  cases s <;> cases a <;> rfl

@[simp] theorem used_freeing : freeing (Process.used s a) = freeing s := by
  cases s <;> cases a <;> rfl

theorem standsAt_used (h : StandsAt b g s) : StandsAt b g (Process.used s a) := by
  cases s <;> cases a <;> exact h

end used

/-- The process after a step of the collector. -/
def afterBase (w : Process) (t : Tid) (act : Act) (b' : World) : Process where
  base := b'
  stage := Function.update w.stage t (Process.used (w.stage t) act)
  freed := Process.dropped w.base t act ++ w.freed

variable {w : Process} {g g' : Ghost}

/-- A property of stages that `alloc` does not change. -/
theorem afterBase_stage {α : Type} (f : Stage → α) (hf : ∀ s a, f (Process.used s a) = f s)
    (t' : Tid) : f ((afterBase w t act b').stage t') = f (w.stage t') := by
  show f (Function.update w.stage t (Process.used (w.stage t) act) t') = _
  by_cases ht : t' = t
  · rw [ht, Function.update_self, hf]
  · rw [Function.update_of_ne ht]

theorem afterBase_temp (t' : Tid) :
    ((afterBase w t act b').stage t').temp = (w.stage t').temp :=
  afterBase_stage Stage.temp used_temp t'

theorem afterBase_holding (t' : Tid) :
    holding ((afterBase w t act b').stage t') = holding (w.stage t') :=
  afterBase_stage holding used_holding t'

/-- A step of the collector keeps the facts on the temporary collectors. -/
theorem temps_base (h : Inv w g) (hu : (w.stage t).user = true)
    (ha : (w.stage t).temp ≠ none → act ≠ .alloc) (hm : Proofs.Move w.base t act b') :
    Temps (afterBase w t act b') where
  fresh := fun t' c hc => by
    rw [afterBase_temp] at hc
    exact Nat.lt_of_lt_of_le (h.temps.fresh t' c hc) hm.nextCollector_le
  inj := fun t₁ t₂ c h₁ h₂ => by
    rw [afterBase_temp] at h₁ h₂
    exact h.temps.inj t₁ t₂ c h₁ h₂
  held := fun t₁ t₂ c h₁ h₂ => by
    rw [afterBase_temp] at h₁
    by_cases ht : t₂ = t
    · rw [ht] at h₂ ⊢
      rcases h.owning.holds_back hm h₂ with hh | hle
      · exact h.temps.held t₁ t c h₁ hh
      · exact absurd (h.temps.fresh t₁ c h₁) (Nat.not_lt.mpr hle)
    · refine h.temps.held t₁ t₂ c h₁ ?_
      unfold holds at h₂ ⊢
      rwa [show (afterBase w t act b').base = b' from rfl, hm.pc_of_ne ht,
        hm.localCollector_of_ne ht] at h₂
  own := fun t' c hc => by
    rw [afterBase_temp] at hc
    show b'.localCollector t' = some c ∨ b'.localCollector t' = none
    by_cases ht : t' = t
    · subst ht
      have htemp : (w.stage t').temp ≠ none := by
        rw [hc]
        exact nofun
      have hback : ∀ d, b'.localCollector t' = some d → w.base.localCollector t' = some d := by
        intro d hd
        cases chainEffect hm with
        | keep haddr hlinks hlocal => exact hlocal d hd
        | push c' hpc => exact absurd hpc (h.temps.noAlloc t' htemp c' _)
        | cutHead c' known e next hpc hd' haddr hlinks hlocal => exact hlocal ▸ hd
        | cutMid c' known p e next hpc haddr hlinks hlocal => exact hlocal ▸ hd
      cases hl : b'.localCollector t' with
      | none => exact .inr rfl
      | some d =>
        rcases h.temps.own t' c hc with hown | hown
        · exact .inl ((hback d hl).symm.trans hown)
        · cases (hback d hl).symm.trans hown
    · rw [hm.localCollector_of_ne ht]
      exact h.temps.own t' c hc
  quiet := fun t' hq => by
    rw [afterBase_stage Stage.user used_user] at hq
    have ht : t' ≠ t := by
      rintro rfl
      rw [hu] at hq
      cases hq
    exact (hm.pc_of_ne ht).trans (h.temps.quiet t' hq)
  noAlloc := fun t' htemp c p hpc => by
    rw [afterBase_temp] at htemp
    by_cases ht : t' = t
    · subst ht
      rcases alloc_back hm hpc with ⟨q, hq⟩ | ⟨hact, -⟩
      · exact h.temps.noAlloc t' htemp c q hq
      · exact ha htemp hact
    · exact h.temps.noAlloc t' htemp c p ((hm.pc_of_ne ht).symm.trans hpc)

/-- The next step of the thread is the write in `scan` that takes an obsolete collector out
of the chain. -/
def Cutting (b : World) (t : Tid) (d : CollectorId) : Prop :=
  ∃ c known prev next, b.pc t = .unlink c known prev d next ∧
    (prev = none → b.chainHead.addr = some d)

/-- How a move changes the ghost state. -/
inductive GhostStep (w : Process) (t : Tid) (g : Ghost) : Ghost → Prop where
  | keep : GhostStep w t g g
  /-- A collector that was prepared is pushed. -/
  | push (c : CollectorId) (hpc : w.base.pc t = .alloc c w.base.chainHead) :
      GhostStep w t g ⟨c :: g.chain, g.freeing⟩
  /-- `scan` takes an obsolete collector out of the chain. -/
  | cut (front rest : List CollectorId) (d : CollectorId) (hc : g.chain = front ++ d :: rest)
      (hi : Invalid w.base d) (hl : Cutting w.base t d) :
      GhostStep w t g ⟨front ++ rest, g.freeing⟩
  /-- `clear_chain` takes the whole chain. -/
  | take (hi : ∀ c ∈ g.chain, Invalid w.base c) (hf : g.freeing = [])
      (hs : ∃ temp, w.stage t = .walk temp w.base.chainHead.addr none) :
      GhostStep w t g ⟨[], g.chain⟩
  /-- `clear_chain` frees a collector. -/
  | free (d : CollectorId) (rest : List CollectorId) (hf : g.freeing = d :: rest)
      (hs : ∃ temp, w.stage t = .free temp (some d)) : GhostStep w t g ⟨g.chain, rest⟩

/-- The list after the head of the chain: nothing was pushed in front of a head that a
walk remembers, as a node occurs only once. -/
theorem front_eq_nil {next : CollectorId → Option CollectorId} {p : Option CollectorId}
    {front rest : List CollectorId} {d : CollectorId} (h : Linked next p (front ++ d :: rest))
    (hn : (front ++ d :: rest).Nodup) (hp : p = some d) : front = [] := by
  cases front with
  | nil => rfl
  | cons x front =>
    have hx : d = x := Option.some.inj (hp.symm.trans h.head_eq)
    subst hx
    exact absurd (List.mem_append_right front List.mem_cons_self) (List.nodup_cons.mp hn).1

/-- The thread of a collector in the chain. A collector that a thread has is not
obsolete. -/
theorem not_invalid_of_local (h : Owning b) {c : CollectorId} (hl : b.localCollector t = some c) :
    ¬Invalid b c := fun hi => by
  have hv := (h.registered t c hl).1
  rw [hi] at hv
  cases hv

/-- A node of the chain links to the next one. -/
theorem next_eq_head {next : CollectorId → Option CollectorId} {p : Option CollectorId}
    {front rest : List CollectorId} {d : CollectorId} (h : Linked next p (front ++ d :: rest)) :
    next d = rest.head? :=
  h.after.head_eq

/-- A walk that passes the collector at hand. -/
theorem behind_next {front : List CollectorId} {d : CollectorId} :
    Behind (some d) (front ++ [d]) := fun p hp => by
  cases hp
  exact ⟨front, rfl⟩

/-- What follows a node of the chain is not the node. -/
theorem head_ne_of_nodup {front rest : List CollectorId} {d : CollectorId}
    (h : (front ++ d :: rest).Nodup) : rest.head? ≠ some d := by
  intro hr
  have hd : d ∈ rest := List.mem_of_mem_head? hr
  have hn := (List.nodup_append.mp h).2.1
  exact (List.nodup_cons.mp hn).1 hd

/-- Where the walk of the thread that moves stands after a step that leaves the chain as it
is. -/
theorem walks_keep (h : Inv w g) (hm : Proofs.Move w.base t act b')
    (haddr : b'.chainHead.addr = w.base.chainHead.addr)
    (hlinks : ∀ d ∈ g.chain, nextLinks b' d = nextLinks w.base d) :
    WalksAt b' g.chain (b'.pc t) := by
  have hlinked := h.chain.linked
  have hnodup : g.chain.Nodup := (List.nodup_append.mp h.chain.nodup).1
  have hpos := h.walks t
  have hself : ∀ (x : World) (pc : Pc), (x.goto t pc).pc t = pc := fun x pc =>
    Function.update_self _ _ _
  have hno : ∀ (x : World) (pc : Pc), WalksAt b' g.chain pc →
      WalksAt b' g.chain ((x.goto t pc).pc t) := by
    intro x pc hl
    rw [hself]
    exact hl
  cases hm with
  | lock c hpc hf hb =>
    rw [hself]
    exact ⟨[], g.chain, rfl, hlinked.head_eq⟩
  | knownEpoch c current hpc =>
    rw [hpc] at hpos
    obtain ⟨front, rest, hc, hcur⟩ := hpos
    rw [hself]
    exact ⟨front, rest, hc, hcur, nofun⟩
  | scanOwn c known prev hpc =>
    rw [hpc] at hpos
    obtain ⟨front, rest, hc, hcur, hb⟩ := hpos
    rw [hself]
    cases rest with
    | nil => cases hcur
    | cons d rest =>
      cases hcur
      refine ⟨front ++ [c], rest, by rw [hc, List.append_assoc]; rfl, ?_, behind_next⟩
      exact next_eq_head (hc ▸ hlinked)
  | scanLoad c known prev d hpc hd =>
    rw [hpc] at hpos
    obtain ⟨front, rest, hc, hcur, hb⟩ := hpos
    rw [hself]
    cases rest with
    | nil => cases hcur
    | cons e rest =>
      cases hcur
      exact ⟨front, rest, hc, hb, id, hd⟩
  | nextInvalid c known prev d state hpc hi =>
    rw [hpc] at hpos
    obtain ⟨front, rest, hc, hb, hinv, hd⟩ := hpos
    rw [hself]
    exact ⟨front, rest, hc, hb, next_eq_head (hc ▸ hlinked), hinv hi, hd⟩
  | nextPass c known prev d state hpc hi hk =>
    rw [hpc] at hpos
    obtain ⟨front, rest, hc, hb, hinv, hd⟩ := hpos
    rw [hself]
    exact ⟨front ++ [d], rest, by rw [hc, List.append_assoc]; rfl, next_eq_head (hc ▸ hlinked),
      behind_next⟩
  | unlinkHead c known d next hpc hd =>
    -- The head of the chain would change.
    rw [hpc] at hpos
    obtain ⟨front, rest, hc, hb, hn, hinv, hdc⟩ := hpos
    rw [hc] at hnodup
    exact absurd (hn.symm.trans (haddr.trans hd)) (head_ne_of_nodup hnodup)
  | unlinkFail c known d next hpc hd =>
    rw [hpc] at hpos
    obtain ⟨front, rest, hc, hb, hn, hinv, hdc⟩ := hpos
    rw [hself]
    exact ⟨front ++ [d], rest, by rw [hc, List.append_assoc]; rfl, hn, behind_next⟩
  | unlinkMid c known p d next hpc =>
    -- The link of the collector behind the walk would change.
    rw [hpc] at hpos
    obtain ⟨front, rest, hc, hb, hn, hinv, hdc⟩ := hpos
    obtain ⟨f, rfl⟩ := hb p rfl
    have hp : p ∈ g.chain := by
      rw [hc, List.append_assoc]
      exact List.mem_append_right f List.mem_cons_self
    have hold : nextLinks w.base p = some d := by
      rw [hc, List.append_assoc] at hlinked
      exact next_eq_head hlinked
    rw [hc] at hnodup
    refine absurd (hn.symm.trans ?_) (head_ne_of_nodup hnodup)
    rw [← hold, ← hlinks p hp, nextLinks_cutMid, Function.update_self]
  | user c f hu | collect c hu =>
    refine walksAt_of_not_locking ?_
    show locking (w.base.pc t) = false
    rcases Owning.user_cases hu with ⟨hpc, -⟩ | ⟨rest, hpc⟩ <;> rw [hpc] <;> rfl
  | suspendNone => exact hpos
  | unlock c hpc =>
    rw [World.scanned, hself]
    trivial
  | lockFail c hpc =>
    rw [World.scanned, hself]
    trivial
  | allocBegin | allocRetry | allocDone | load | publishSame | publishQuiet | publishRotate
    | drainDone | drainInst | drainCollector | destructor | endScan | endQuiet | store | nextBreak
    | setInactive | markScanEnforced | suspend => exact hno _ _ trivial

/-- The collectors of the chain after a step: the parts of `Chain` that follow from what
happens to the two lists. -/
theorem Chain.next (h : Inv w g) (hm : Proofs.Move w.base t act b')
    (hlinked : Linked (nextLinks b') b'.chainHead.addr g'.chain)
    (hsub : (g'.chain ++ g'.freeing).Sublist (g.chain ++ g.freeing))
    (hfreeing : g'.freeing = g.freeing)
    (hkept : ∀ c ∈ g.chain, ¬Invalid w.base c → c ∈ g'.chain)
    (hlocal : ∀ d, b'.localCollector t = some d → w.base.localCollector t = some d) :
    Chain (afterBase w t act b') g' where
  linked := hlinked
  nodup := hsub.nodup h.chain.nodup
  mem := fun t' c hc => by
    rw [afterBase_temp]
    have hold : w.base.localCollector t' = some c := by
      by_cases ht : t' = t
      · rw [ht] at hc ⊢
        exact hlocal c hc
      · exact (hm.localCollector_of_ne ht).symm.trans hc
    exact (h.chain.mem t' c hold).imp_left fun hmem =>
      hkept c hmem (not_invalid_of_local h.owning hold)
  fresh := fun c hc => Nat.lt_of_lt_of_le (h.chain.fresh c (hsub.subset hc)) hm.nextCollector_le
  preparing := fun t' c p hpc hc => by
    by_cases ht : t' = t
    · subst ht
      rcases alloc_back hm hpc with ⟨q, hq⟩ | ⟨-, hnew⟩
      · exact h.chain.preparing t' c q hq (hsub.subset hc)
      · exact Nat.lt_irrefl _ (hnew ▸ h.chain.fresh c (hsub.subset hc))
    · exact h.chain.preparing t' c p ((hm.pc_of_ne ht).symm.trans hpc) (hsub.subset hc)
  temp := fun t' c htemp hc => by
    rw [afterBase_temp] at htemp
    exact h.chain.temp t' c htemp (hsub.subset hc)
  invalid := fun c hc => by
    rw [hfreeing] at hc
    exact invalid_stays h.owning hm (h.chain.fresh c (List.mem_append_right _ hc))
      (h.chain.invalid c hc)
  idle := fun hf => by
    rw [hfreeing]
    refine h.chain.idle fun t' => ?_
    rw [← hf t']
    exact (afterBase_stage freeing used_freeing t').symm

/-- A step of the collector keeps the chain. -/
theorem chain_base (h : Inv w g) (hm : Proofs.Move w.base t act b') :
    ∃ g', Chain (afterBase w t act b') g' ∧ GhostStep w t g g' ∧ g'.freeing = g.freeing ∧
      (∀ d ∈ g.freeing, nextLinks b' d = nextLinks w.base d) ∧
      (locking (w.base.pc t) = false → ∃ pre, g'.chain = pre ++ g.chain) ∧
      WalksAt b' g'.chain (b'.pc t) := by
  have hlinked := h.chain.linked
  have hnodup : g.chain.Nodup := (List.nodup_append.mp h.chain.nodup).1
  cases chainEffect hm with
  | keep haddr hlinks hlocal =>
    have hsame : ∀ d ∈ g.chain ++ g.freeing, nextLinks b' d = nextLinks w.base d := by
      refine fun d hd => hlinks d (fun p hpc => h.chain.preparing t d p hpc hd) ?_
      rintro rfl
      exact Nat.lt_irrefl _ (h.chain.fresh _ hd)
    refine ⟨g, .next h hm ?_ (.refl _) rfl (fun c hc _ => hc) hlocal, .keep, rfl,
      fun d hd => hsame d (List.mem_append_right _ hd), fun _ => ⟨[], rfl⟩,
      walks_keep h hm haddr fun d hd => hsame d (List.mem_append_left _ hd)⟩
    rw [haddr]
    exact hlinked.congr fun d hd => hsame d (List.mem_append_left _ hd)
  | push c hpc haddr hnext hlinks hlocal hpc' =>
    have hnot : c ∉ g.chain ++ g.freeing := h.chain.preparing t c _ hpc
    have hne : ∀ d ∈ g.chain ++ g.freeing, d ≠ c := by
      rintro d hd rfl
      exact hnot hd
    have htemp : ∀ t', (w.stage t').temp ≠ some c := fun t' ht' => by
      have heq := h.temps.held t' t c ht' (Owning.holds_of_alloc hpc)
      refine h.temps.noAlloc t ?_ c _ hpc
      rw [heq, ht']
      exact nofun
    refine ⟨⟨c :: g.chain, g.freeing⟩, ?_, .push c hpc, rfl,
      fun d hd => hlinks d (hne d (List.mem_append_right _ hd)), fun _ => ⟨[c], rfl⟩,
      by rw [hpc']; trivial⟩
    refine ⟨?_, List.nodup_cons.mpr ⟨hnot, h.chain.nodup⟩, fun t' d hd => ?_, fun d hd => ?_,
      fun t' d q hq hd => ?_, fun t' d htd hd => ?_, fun d hd => ?_, fun hf => ?_⟩
    · refine ⟨haddr, ?_⟩
      show Linked (nextLinks b') (nextLinks b' c) g.chain
      rw [hnext]
      exact hlinked.congr fun d hd => hlinks d (hne d (List.mem_append_left _ hd))
    · rw [afterBase_temp]
      by_cases ht : t' = t
      · subst ht
        have hdc : c = d := Option.some.inj (hlocal.symm.trans hd)
        rw [hdc]
        exact .inl List.mem_cons_self
      · rw [show (afterBase w t act b').base = b' from rfl, hm.localCollector_of_ne ht] at hd
        exact (h.chain.mem t' d hd).imp_left (List.mem_cons_of_mem c)
    · refine Nat.lt_of_lt_of_le ?_ hm.nextCollector_le
      rcases List.mem_cons.mp hd with rfl | hd
      · exact h.owning.fresh t d (Owning.holds_of_alloc hpc)
      · exact h.chain.fresh d hd
    · by_cases ht : t' = t
      · subst ht
        cases hpc'.symm.trans hq
      · rw [show (afterBase w t act b').base = b' from rfl, hm.pc_of_ne ht] at hq
        rcases List.mem_cons.mp hd with rfl | hd
        · exact ht (h.owning.inj t' t d (Owning.holds_of_alloc hq) (Owning.holds_of_alloc hpc))
        · exact h.chain.preparing t' d q hq hd
    · rw [afterBase_temp] at htd
      rcases List.mem_cons.mp hd with rfl | hd
      · exact htemp t' htd
      · exact h.chain.temp t' d htd hd
    · exact invalid_stays h.owning hm (h.chain.fresh d (List.mem_append_right _ hd))
        (h.chain.invalid d hd)
    · refine h.chain.idle fun t' => ?_
      rw [← hf t']
      exact (afterBase_stage freeing used_freeing t').symm
  | cutHead c known d next hpc hd haddr hlinks hlocal hpc' =>
    have hwalks := h.walks t
    rw [hpc] at hwalks
    obtain ⟨front, rest, hc, hb, hn, hi, hdc⟩ := hwalks
    have hl : locking (w.base.pc t) = true := by
      rw [hpc]
      rfl
    rw [hc] at hlinked hnodup
    obtain rfl : front = [] := front_eq_nil hlinked hnodup hd
    refine ⟨⟨rest, g.freeing⟩, .next h hm ?_ ?_ rfl (fun x hx hv => ?_)
      (fun x hx => hlocal ▸ hx), .cut [] rest d hc hi ⟨c, known, none, next, hpc, fun _ => hd⟩, rfl,
      fun x _ => hlinks x,
      fun hno => (by cases hl.symm.trans hno), by rw [hpc']; exact ⟨[], rest, rfl, hn, nofun⟩⟩
    · rw [haddr, hn, ← hlinked.2.head_eq]
      exact hlinked.2.congr fun x _ => hlinks x
    · rw [hc]
      exact List.sublist_cons_self d _
    · rw [hc] at hx
      rcases List.mem_cons.mp hx with rfl | hx
      · exact absurd hi hv
      · exact hx
  | cutMid c known p d next hpc haddr hlinks hlocal hpc' =>
    have hwalks := h.walks t
    rw [hpc] at hwalks
    obtain ⟨front, rest, hc, hb, hn, hi, hdc⟩ := hwalks
    obtain ⟨f, rfl⟩ := hb p rfl
    have hl : locking (w.base.pc t) = true := by
      rw [hpc]
      rfl
    have hchain : g.chain = f ++ p :: ([d] ++ rest) := by
      rw [hc, List.append_assoc]
      rfl
    rw [hchain] at hlinked hnodup
    have hp : p ∈ g.chain := by
      rw [hchain]
      exact List.mem_append_right f List.mem_cons_self
    have hrest : Linked (nextLinks w.base) next rest := by
      have hd : Linked (nextLinks w.base) (nextLinks w.base d) rest :=
        (hlinked.after (a := p)).2
      rw [hn, ← hd.head_eq]
      exact hd
    refine ⟨⟨f ++ [p] ++ rest, g.freeing⟩, .next h hm ?_ ?_ rfl (fun x hx hv => ?_)
      (fun x hx => hlocal ▸ hx), .cut (f ++ [p]) rest d hc hi ⟨c, known, some p, next, hpc, nofun⟩, rfl,
      fun x hx => ?_,
      fun hno => (by cases hl.symm.trans hno),
      by rw [hpc']; exact ⟨f ++ [p], rest, rfl, hn, behind_next⟩⟩
    · rw [haddr, List.append_assoc]
      exact (hlinked.splice hnodup hrest).congr fun x _ => hlinks x
    · rw [hc]
      refine List.Sublist.append_right ?_ _
      exact List.Sublist.append_left (List.sublist_cons_self d rest) _
    · rw [hc] at hx
      have hxd : x ≠ d := by
        rintro rfl
        exact hv hi
      simpa [hxd] using hx
    · rw [hlinks x, Function.update_of_ne]
      rintro rfl
      exact (List.nodup_append.mp h.chain.nodup).2.2 x hp x hx rfl

/-- Who holds the lock, among the threads that do not move. -/
theorem locks_of_ne (hm : Proofs.Move w.base t act b') {t' : Tid} (ht : t' ≠ t) :
    locks (afterBase w t act b') t' = locks w t' := by
  unfold locks
  rw [afterBase_holding, show (afterBase w t act b').base = b' from rfl, hm.pc_of_ne ht]

/-- A step of the collector keeps the lock of one thread. -/
theorem lock_base (h : Inv w g) (hm : Proofs.Move w.base t act b') :
    (∀ t', locks (afterBase w t act b') t' = true → Locked b') ∧
    (∀ t₁ t₂, locks (afterBase w t act b') t₁ = true → locks (afterBase w t act b') t₂ = true →
      t₁ = t₂) ∧
    (∀ t', locking (b'.pc t') = true → holding ((afterBase w t act b').stage t') = false) := by
  have hstage : ∀ t', holding ((afterBase w t act b').stage t') = holding (w.stage t') :=
    afterBase_holding
  cases lockEffect hm with
  | same hl hlocked =>
    have hsame : ∀ t', locks (afterBase w t act b') t' = locks w t' := by
      intro t'
      by_cases ht : t' = t
      · unfold locks
        rw [ht, hstage, show (afterBase w t act b').base = b' from rfl, hl]
      · exact locks_of_ne hm ht
    refine ⟨fun t' ht' => hlocked.mpr (h.locked t' (hsame t' ▸ ht')), fun t₁ t₂ h₁ h₂ =>
      h.unique t₁ t₂ (hsame t₁ ▸ h₁) (hsame t₂ ▸ h₂), fun t' ht' => ?_⟩
    rw [hstage]
    by_cases ht : t' = t
    · subst ht
      exact h.apart t' (hl ▸ ht')
    · exact h.apart t' (hm.pc_of_ne ht ▸ ht')
  | acquire c hpc hfree hlocked hpc' =>
    have hnone : ∀ t', locks w t' = false := fun t' => by
      cases hlt : locks w t' with
      | false => rfl
      | true => exact absurd (h.locked t' hlt) hfree
    have hself : ∀ t', locks (afterBase w t act b') t' = true → t' = t := by
      intro t' ht'
      by_contra ht
      rw [locks_of_ne hm ht, hnone t'] at ht'
      cases ht'
    refine ⟨fun _ _ => hlocked, fun t₁ t₂ h₁ h₂ => (hself t₁ h₁).trans (hself t₂ h₂).symm,
      fun t' _ => ?_⟩
    rw [hstage]
    exact (Bool.or_eq_false_iff.mp (hnone t')).2
  | release c hpc hfree hpc' =>
    have hl : locking (w.base.pc t) = true := by
      rw [hpc]
      rfl
    have hnone : ∀ t', locks (afterBase w t act b') t' = false := by
      intro t'
      by_cases ht : t' = t
      · unfold locks
        rw [ht, hstage, h.apart t hl, show (afterBase w t act b').base = b' from rfl, hpc']
        rfl
      · rw [locks_of_ne hm ht]
        cases hlt : locks w t' with
        | false => rfl
        | true => exact absurd (h.unique t' t hlt (by unfold locks; rw [hl]; rfl)) ht
    refine ⟨fun t' ht' => ?_, fun t₁ t₂ h₁ _ => ?_, fun t' ht' => ?_⟩
    · cases (hnone t').symm.trans ht'
    · cases (hnone t₁).symm.trans h₁
    · exact (Bool.or_eq_false_iff.mp (hnone t')).2

/-- A thread that holds the lock is the only one. -/
theorem Inv.locks_unique (h : Inv w g) (hl : locks w t = true) {t' : Tid} (ht : t' ≠ t) :
    locking (w.base.pc t') = false ∧ holding (w.stage t') = false := by
  rw [← Bool.or_eq_false_iff]
  cases hlt : locks w t' with
  | false => exact hlt
  | true => exact absurd (h.unique t' t hlt hl) ht

/-- Every step of the collector keeps the invariant. -/
theorem inv_base (h : Inv w g) (hu : (w.stage t).user = true)
    (ha : (w.stage t).temp ≠ none → act ≠ .alloc) (hm : Proofs.Move w.base t act b') :
    ∃ g', Inv (afterBase w t act b') g' ∧ GhostStep w t g g' := by
  obtain ⟨g', hchain, hghost, hfreeing, hlinks, hpre, hwalks⟩ := chain_base h hm
  obtain ⟨hlocked, hunique, hapart⟩ := lock_base h hm
  have hinv : ∀ d ∈ g.chain, Invalid w.base d → Invalid b' d := fun d hd =>
    invalid_stays h.owning hm (h.chain.fresh d (List.mem_append_left _ hd))
  refine ⟨g', ⟨h.owning.step hm, temps_base h hu ha hm, hchain, hlocked, hunique, hapart,
    fun t' => ?_, fun t' => ?_⟩, hghost⟩
  · by_cases ht : t' = t
    · rw [ht]
      exact hwalks
    · show WalksAt b' g'.chain (b'.pc t')
      rw [hm.pc_of_ne ht]
      cases hl : locking (w.base.pc t) with
      | false =>
        obtain ⟨pre, hpre⟩ := hpre hl
        rw [hpre]
        exact (h.walks t').frame pre hinv
      | true =>
        exact walksAt_of_not_locking (h.locks_unique (by unfold locks; rw [hl]; rfl) ht).1
  · have hold : StandsAt b' g' (w.stage t') := by
      cases hl : locking (w.base.pc t) with
      | false =>
        obtain ⟨pre, hpre⟩ := hpre hl
        exact (h.stands t').frame pre hpre hfreeing hinv hlinks
      | true =>
        refine standsAt_of_not_holding ?_
        by_cases ht : t' = t
        · rw [ht]
          exact h.apart t hl
        · exact (h.locks_unique (by unfold locks; rw [hl]; rfl) ht).2
    show StandsAt b' g' (Function.update w.stage t (Process.used (w.stage t) act) t')
    by_cases ht : t' = t
    · rw [ht, Function.update_self]
      exact standsAt_used _ _ _ (ht ▸ hold)
    · rw [Function.update_of_ne ht]
      exact hold

end Sdd.Proofs.Exit
