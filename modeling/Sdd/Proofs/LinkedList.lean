import Sdd.Lib.Skip
import Sdd.LinkedList

/-!
# `Sdd.Proofs.LinkedList`: what `next_ptr` does to a list that others change

A call of `next_ptr` reads links one after another, and other threads delete, attach and
unlink entries in between. What it relies on is kept in a `View`: the entries that were
attached, their order along the links, and the first undeleted entry that each one leads
to. A view changes with the steps of the other threads (`View.Later`), but pointers that
lead to the same undeleted entry go on doing so.

`CallOk` is the invariant of a call: every pointer it holds leads to the same undeleted
entry as the link that it was found from. `nextPtr_ok` says that an access of the call
keeps it, and that the only write that it makes, the clean-up of a link, is to a pointer
that leads to the same undeleted entry (`Cleans`). When the call returns, and its head was
deleted when it began, the result leads to the same undeleted entry as the head. When it
returns null, the head leads nowhere at that moment (`nextPtr_null`).

`HeapOk` relates the heap to the view. The last part of the file says what the writes of the
containers do to it: a deletion, an attachment, an allocation and the release of an entry.
-/

set_option autoImplicit false

namespace Sdd.Proofs

open Sdd.Lib

variable {T : Type}

/-- The entry that the link of `x` refers to. -/
def next (h : Heap T) (x : Addr) : Option Addr := (h.link x).addr

/-- What is known of the entries. -/
structure View where
  /-- The entries that were attached. -/
  att : Addr → Prop
  /-- The order of the entries along the links. -/
  before : Addr → Addr → Prop
  /-- The first undeleted entry from an entry on. -/
  tgt : Addr → Option Addr
  dead : Addr → Bool

/-- The view of entries that were attached in the order of `l`, or in the opposite order. -/
def listView (l : List Addr) (dead : Addr → Bool) (tgt : Addr → Option Addr) : View where
  att x := x ∈ l
  before x y := x ∈ l ∧ y ∈ l ∧ l.idxOf x < l.idxOf y
  tgt := tgt
  dead := dead

/-- What remains true of a view when the threads go on. -/
structure View.Later (v v' : View) : Prop where
  att : ∀ x, v.att x → v'.att x
  before : ∀ x y, v.before x y → v'.before x y
  dead : ∀ x, v.dead x = true → v'.dead x = true
  tgt : ∀ p q : Option Addr, p.bind v.tgt = q.bind v.tgt → p.bind v'.tgt = q.bind v'.tgt

/-- The entries of the heap are linked as the view says. -/
structure HeapOk (h : Heap T) (v : View) : Prop where
  skip : Skip (next h) h.isDeleted v.tgt
  dead : v.dead = h.isDeleted
  tags : ∀ x, (h.link x).tag ≠ .both
  links : ∀ x y, v.att x → next h x = some y → v.att y ∧ v.before x y
  owned : ∀ x y, h.released x = false → next h x = some y → h.released y = false
  fresh : ∀ x, h.nextAddr ≤ x → h.link x = .null
  bound : ∀ x, v.att x → x < h.nextAddr
  allocated : ∀ x, h.released x = true → x < h.nextAddr
  trans : ∀ x y z, v.before x y → v.before y z → v.before x z
  wf : WellFounded fun y x => v.before x y

/-- The link of an attached entry is cleaned up, or nothing changes. -/
def Cleans (v : View) (h h' : Heap T) : Prop :=
  h' = h ∨ ∃ x p, h' = h.setLink x ⟨p, (h.link x).tag⟩ ∧ v.att x ∧
    (∀ y, p = some y → v.att y ∧ v.before x y ∧ h.released y = false) ∧
    p.bind v.tgt = (next h x).bind v.tgt

/-- `p` is a pointer that was found from the head of the frame: it is behind the head, and
leads to the same undeleted entry as the link of the head that was read. -/
def Ahead (v : View) (f : Frame) (p : Option Addr) : Prop :=
  (∀ y, p = some y → v.att y ∧ v.before f.head y) ∧ p.bind v.tgt = f.headNext.addr.bind v.tgt

/-- The link of the head of the frame was read while the head was attached. If `D` holds,
the head was deleted at that time. -/
structure FrameOk (v : View) (D : Prop) (f : Frame) : Prop where
  att : v.att f.head
  ahead : ∀ y, f.headNext.addr = some y → v.att y ∧ v.before f.head y
  tgt : D → v.tgt f.head = f.headNext.addr.bind v.tgt

/-- The callers wait for a call on `c`. The outermost call is on `b`; it is known to be
deleted if `D` holds. The inner calls are all on deleted entries. -/
def Suspended (v : View) (D : Prop) (b : Addr) : List Frame → Addr → Prop
  | [], c => c = b ∧ v.att c ∧ (D → v.dead c = true)
  | f :: callers, c => v.dead c = true ∧ FrameOk v (callers ≠ [] ∨ D) f ∧ Ahead v f (some c) ∧
      f.headNext.addr ≠ none ∧ Suspended v D b callers f.head

/-- The invariant of a call of `next_ptr` on `b`. -/
def CallOk (v : View) (D : Prop) (b : Addr) : NextPtr → Prop
  | .loadHead callers head _ => Suspended v D b callers head
  | .loadNext callers f n _ => Suspended v D b callers f.head ∧ FrameOk v (callers ≠ [] ∨ D) f ∧
      Ahead v f (some n) ∧ f.headNext.addr ≠ none
  | .getShared callers f nextValid | .exchange callers f nextValid =>
    Suspended v D b callers f.head ∧ FrameOk v (callers ≠ [] ∨ D) f ∧ Ahead v f nextValid.addr ∧
      f.headNext.addr ≠ none

/-- The result of a call on `b`. -/
structure Returned (v : View) (D : Prop) (b : Addr) (p : Option Addr) : Prop where
  att : ∀ y, p = some y → v.att y ∧ v.before b y
  tgt : D → p.bind v.tgt = v.tgt b

/-- The state of a call after an access. -/
def CallAfter (v : View) (D : Prop) (b : Addr) : Outcome NextPtr (Ptr Addr) → Prop
  | .running call => CallOk v D b call
  | .done p => Returned v D b p.addr

/-- The invariant of a call of `next_shared` on the deleted entry `b`: it is in `next_ptr` on
a deleted entry that leads to the same undeleted entry as `b`, or has found such an entry. -/
def SharedOk (v : View) (b : Addr) : NextShared → Prop
  | .nextPtr call => ∃ c, (c = b ∨ v.before b c) ∧ v.tgt c = v.tgt b ∧ CallOk v True c call
  | .getShared p => ∃ n, p.addr = some n ∧ Returned v True b (some n)

/-- The state of a call of `next_shared` after an access. -/
def SharedAfter (v : View) (b : Addr) : Outcome NextShared (Option Addr) → Prop
  | .running call => SharedOk v b call
  | .done p => Returned v True b p

section listView

variable {l : List Addr} {dead : Addr → Bool} {tgt : Addr → Option Addr}

/-- The order of a list is transitive. -/
theorem before_trans {x y z : Addr} (hxy : (listView l dead tgt).before x y)
    (hyz : (listView l dead tgt).before y z) : (listView l dead tgt).before x z :=
  ⟨hxy.1, hyz.2.1, Nat.lt_trans hxy.2.2 hyz.2.2⟩

/-- The order of the entries does not change when one is attached behind them. -/
theorem before_append {x y z : Addr} (hxy : (listView l dead tgt).before x y) :
    (listView (l ++ [z]) dead tgt).before x y := by
  obtain ⟨hx, hy, hlt⟩ := hxy
  refine ⟨List.mem_append_left _ hx, List.mem_append_left _ hy, ?_⟩
  rw [List.idxOf_append_of_mem hx, List.idxOf_append_of_mem hy]
  exact hlt

/-- The new entry comes behind the others. -/
theorem before_last {x z : Addr} (hz : z ∉ l) (hx : x ∈ l) :
    (listView (l ++ [z]) dead tgt).before x z := by
  refine ⟨List.mem_append_left _ hx, List.mem_append_right _ List.mem_cons_self, ?_⟩
  rw [List.idxOf_append_of_mem hx, List.idxOf_append_of_notMem hz]
  have hlt : l.idxOf x < l.length := List.idxOf_lt_length_iff.mpr hx
  omega

/-- There is no infinite sequence of entries, each behind the one before it. -/
theorem before_wf (l : List Addr) (dead : Addr → Bool) (tgt : Addr → Option Addr) :
    WellFounded fun y x => (listView l dead tgt).before x y := by
  refine Subrelation.wf ?_ (measure fun x => l.length - l.idxOf x).wf
  intro y x hxy
  have hlt : l.idxOf x < l.idxOf y := hxy.2.2
  have hle : l.idxOf y < l.length := List.idxOf_lt_length_iff.mpr hxy.2.1
  show l.length - l.idxOf y < l.length - l.idxOf x
  omega

end listView

namespace View.Later

variable {v v' v'' : View} {D : Prop} {b c : Addr} {f : Frame} {p : Option Addr}

/-- Nothing changes. -/
theorem refl (v : View) : v.Later v where
  att _ h := h
  before _ _ h := h
  dead _ h := h
  tgt _ _ h := h

/-- Changes compose. -/
theorem trans (h : v.Later v') (h' : v'.Later v'') : v.Later v'' where
  att x hx := h'.att x (h.att x hx)
  before x y hxy := h'.before x y (h.before x y hxy)
  dead x hx := h'.dead x (h.dead x hx)
  tgt p q hpq := h'.tgt p q (h.tgt p q hpq)

/-- Entries that lead to the same undeleted entry go on doing so. -/
theorem tgt_eq (h : v.Later v') (hp : v.tgt b = p.bind v.tgt) : v'.tgt b = p.bind v'.tgt :=
  h.tgt (some b) p hp

theorem ahead (h : v.Later v') (ha : Ahead v f p) : Ahead v' f p := by
  refine ⟨?_, h.tgt _ _ ha.2⟩
  intro y hy
  have hmem := ha.1 y hy
  exact ⟨h.att y hmem.1, h.before _ y hmem.2⟩

theorem frameOk (h : v.Later v') (hf : FrameOk v D f) : FrameOk v' D f where
  att := h.att _ hf.att
  ahead y hy := ⟨h.att y (hf.ahead y hy).1, h.before _ y (hf.ahead y hy).2⟩
  tgt hD := h.tgt_eq (hf.tgt hD)

theorem suspended (h : v.Later v') {callers : List Frame} (hs : Suspended v D b callers c) :
    Suspended v' D b callers c := by
  induction callers generalizing c with
  | nil =>
    obtain ⟨hb, hatt, hdead⟩ := hs
    exact ⟨hb, h.att c hatt, fun hD => h.dead c (hdead hD)⟩
  | cons f callers ih =>
    obtain ⟨hdead, hf, ha, hnext, hs⟩ := hs
    exact ⟨h.dead c hdead, h.frameOk hf, h.ahead ha, hnext, ih hs⟩

/-- A call keeps its invariant while others change the list. -/
theorem callOk (h : v.Later v') {call : NextPtr} (hc : CallOk v D b call) :
    CallOk v' D b call := by
  cases call with
  | loadHead callers head depth => exact h.suspended hc
  | loadNext callers f n tag =>
    obtain ⟨hs, hf, ha, hnext⟩ := hc
    exact ⟨h.suspended hs, h.frameOk hf, h.ahead ha, hnext⟩
  | getShared callers f nextValid =>
    obtain ⟨hs, hf, ha, hnext⟩ := hc
    exact ⟨h.suspended hs, h.frameOk hf, h.ahead ha, hnext⟩
  | exchange callers f nextValid =>
    obtain ⟨hs, hf, ha, hnext⟩ := hc
    exact ⟨h.suspended hs, h.frameOk hf, h.ahead ha, hnext⟩

/-- A result stays a result. -/
theorem returned (h : v.Later v') (hr : Returned v D b p) : Returned v' D b p where
  att y hy := ⟨h.att y (hr.att y hy).1, h.before b y (hr.att y hy).2⟩
  tgt hD := (h.tgt_eq (hr.tgt hD).symm).symm

/-- A call of `next_shared` keeps its invariant while others change the list. -/
theorem sharedOk (h : v.Later v') {call : NextShared} (hc : SharedOk v b call) :
    SharedOk v' b call := by
  cases call with
  | nextPtr call =>
    obtain ⟨c, hcb, htgt, hcall⟩ := hc
    refine ⟨c, hcb.imp_right (h.before b c), ?_, h.callOk hcall⟩
    exact h.tgt (some c) (some b) htgt
  | getShared p =>
    obtain ⟨n, hn, hr⟩ := hc
    exact ⟨n, hn, h.returned hr⟩

end View.Later

section call

variable {h : Heap T} {v : View} {D : Prop} {b c : Addr} {f : Frame} {callers : List Frame}

/-- The entry that a call is made on was attached. -/
theorem Suspended.att (hs : Suspended v D b callers c) : v.att c := by
  cases callers with
  | nil => exact hs.2.1
  | cons f callers => exact (hs.2.2.1.1 c rfl).1

/-- Inner calls are made on deleted entries. -/
theorem Suspended.dead (hs : Suspended v D b callers c) (hD : callers ≠ [] ∨ D) :
    v.dead c = true := by
  cases callers with
  | nil => exact hs.2.2 (hD.resolve_left fun hc => hc rfl)
  | cons f callers => exact hs.1

/-- The link of the head is read. -/
theorem frameOk_load (hok : HeapOk h v) (hs : Suspended v D b callers c) (depth : Nat) :
    FrameOk v (callers ≠ [] ∨ D) ⟨c, h.link c, depth⟩ where
  att := hs.att
  ahead y hy := hok.links c y hs.att hy
  tgt hD := by
    have hdead : h.isDeleted c = true := hok.dead ▸ hs.dead hD
    exact hok.skip.dead c hdead

/-- What a frame has found, its caller has found. -/
theorem Ahead.caller {g : Frame} {p : Option Addr} (hok : HeapOk h v) (hg : Ahead v g (some f.head))
    (hf : FrameOk v True f) (hp : Ahead v f p) : Ahead v g p := by
  constructor
  · intro y hy
    exact ⟨(hp.1 y hy).1, hok.trans _ _ _ (hg.1 f.head rfl).2 (hp.1 y hy).2⟩
  · calc p.bind v.tgt = f.headNext.addr.bind v.tgt := hp.2
      _ = v.tgt f.head := (hf.tgt trivial).symm
      _ = g.headNext.addr.bind v.tgt := hg.2

/-- A frame returns what it has found, to its caller or from the outermost call. -/
theorem Ahead.returned {p : Option Addr} (hs : Suspended v D b [] f.head)
    (hf : FrameOk v (([] : List Frame) ≠ [] ∨ D) f) (hp : Ahead v f p) : Returned v D b p := by
  obtain ⟨hb, -, -⟩ := hs
  subst hb
  refine ⟨hp.1, ?_⟩
  intro hD
  rw [hp.2, hf.tgt (.inr hD)]

/-- The inner loop has found a pointer: the call goes on, or returns it. -/
theorem found_ok (hok : HeapOk h v) {p : Ptr Addr} (hs : Suspended v D b callers f.head)
    (hf : FrameOk v (callers ≠ [] ∨ D) f) (hp : Ahead v f p.addr)
    (hnull : f.headNext.addr = none → p.addr = none) :
    CallAfter v D b (NextPtr.found callers f p) := by
  -- By induction on the callers that are suspended in the recursion.
  induction callers generalizing f with
  | nil =>
    unfold NextPtr.found
    by_cases heq : p.withTag f.headNext.tag ≠ f.headNext
    -- A link that has to change is not null.
    · have hnext : f.headNext.addr ≠ none := by
        intro hnone
        exact heq (by rw [Ptr.withTag, hnull hnone, ← hnone])
      simp only [if_pos heq]
      split
      · exact ⟨hs, ⟨hf.att, hf.ahead, hf.tgt⟩, hp, hnext⟩
      · exact ⟨hs, ⟨hf.att, hf.ahead, hf.tgt⟩, hp, hnext⟩
    · simp only [if_neg heq]
      exact hp.returned hs hf
  | cons g callers ih =>
    unfold NextPtr.found
    by_cases heq : p.withTag f.headNext.tag ≠ f.headNext
    · have hnext : f.headNext.addr ≠ none := by
        intro hnone
        exact heq (by rw [Ptr.withTag, hnull hnone, ← hnone])
      simp only [if_pos heq]
      split
      · exact ⟨hs, ⟨hf.att, hf.ahead, hf.tgt⟩, hp, hnext⟩
      · exact ⟨hs, ⟨hf.att, hf.ahead, hf.tgt⟩, hp, hnext⟩
    · simp only [if_neg heq]
      -- Nothing to write here: the result goes to the caller, which is suspended at a deleted
      -- entry.
      obtain ⟨hdead, hg, ha, hnext, hs⟩ := hs
      have hf' : FrameOk v True f := ⟨hf.att, hf.ahead, fun _ => hf.tgt (.inl (by simp))⟩
      exact ih hs hg (ha.caller hok hf' hp) fun hnone => absurd hnone hnext

/-- One turn of the inner loop. -/
theorem inner_ok (hok : HeapOk h v) {p : Ptr Addr} (hs : Suspended v D b callers f.head)
    (hf : FrameOk v (callers ≠ [] ∨ D) f) (hp : Ahead v f p.addr)
    (hnull : f.headNext.addr = none → p.addr = none) :
    CallAfter v D b (NextPtr.inner callers f p) := by
  unfold NextPtr.inner
  split
  -- There is a further entry to read.
  · rename_i n hn
    have hnext : f.headNext.addr ≠ none := by
      intro hnone
      rw [hnull hnone] at hn
      cases hn
    exact ⟨hs, hf, hn ▸ hp, hnext⟩
  -- The end of the list is what has been found.
  · rename_i hn
    refine found_ok hok hs hf ?_ fun _ => rfl
    rw [hn] at hp
    exact hp

/-- The call begins. -/
theorem callOk_start (hatt : v.att b) (hdead : D → v.dead b = true) :
    CallOk v D b (.start b) :=
  ⟨rfl, hatt, hdead⟩

variable {call : NextPtr}

/-- What an access of a call writes: the clean-up of a link, or nothing. -/
theorem nextPtr_cleans (hc : CallOk v D b call)
    (hheld : ∀ x, call.holds = some x → h.released x = false) : Cleans v h (call.step h).1 := by
  cases call with
  -- Only the exchange writes, and only when the link is still what was read.
  | loadHead callers head depth => exact .inl rfl
  | loadNext callers f n tag =>
    refine .inl ?_
    simp only [NextPtr.step]
    split
    · rfl
    · split
      · rfl
      · rfl
  | getShared callers f nextValid =>
    refine .inl ?_
    simp only [NextPtr.step]
    split
    · rfl
    · rfl
  | exchange callers f nextValid =>
    obtain ⟨hs, hf, hp, hnext⟩ := hc
    simp only [NextPtr.step]
    by_cases hlink : h.link f.head = f.headNext
    · have hwrite : Cleans v h (h.setLink f.head (nextValid.withTag f.headNext.tag)) := by
        refine .inr ⟨f.head, nextValid.addr, ?_, hf.att, ?_, ?_⟩
        · rw [hlink]
          -- The new target is ahead of the entry, is held, and leads to the same live entry.
          rfl
        · intro y hy
          exact ⟨(hp.1 y hy).1, (hp.1 y hy).2, hheld y hy⟩
        · rw [hp.2, next, hlink]
      rw [if_pos hlink]
      cases callers with
      | nil => exact hwrite
      | cons g callers => exact hwrite
    · rw [if_neg hlink]
      exact .inl rfl

/-- An access of a call keeps its invariant. -/
theorem nextPtr_ok (hok : HeapOk h v) (hc : CallOk v D b call) :
    CallAfter v D b (call.step h).2 := by
  cases call with
  | loadHead callers head depth =>
    have hf := frameOk_load hok hc depth
    exact inner_ok hok hc hf ⟨hf.ahead, rfl⟩ id
  | loadNext callers f n tag =>
    obtain ⟨hs, hf, hp, hnext⟩ := hc
    have hatt : v.att n := (hp.1 n rfl).1
    simp only [NextPtr.step]
    by_cases htag : (h.link n).tag ≠ .second
    · rw [if_pos htag]
      exact found_ok hok hs hf hp fun hnone => absurd hnone hnext
    · rw [if_neg htag]
      -- The entry is deleted: it leads to where its link leads to.
      have hdel : h.isDeleted n = true := by
        rw [not_not] at htag
        simp [Heap.isDeleted, htag]
      have hdead : v.dead n = true := by
        rw [hok.dead]
        exact hdel
      split
      · exact ⟨hdead, hf, hp, hnext, hs⟩
      · refine inner_ok hok hs hf ?_ fun hnone => absurd hnone hnext
        constructor
        · intro y hy
          have hlink := hok.links n y hatt hy
          exact ⟨hlink.1, hok.trans _ _ _ (hp.1 n rfl).2 hlink.2⟩
        · rw [← hp.2]
          exact (hok.skip.dead n hdel).symm
  | getShared callers f nextValid =>
    obtain ⟨hs, hf, hp, hnext⟩ := hc
    simp only [NextPtr.step]
    split
    · exact hs
    · exact ⟨hs, hf, hp, hnext⟩
  | exchange callers f nextValid =>
    obtain ⟨hs, hf, hp, hnext⟩ := hc
    simp only [NextPtr.step]
    by_cases hlink : h.link f.head = f.headNext
    · rw [if_pos hlink]
      cases callers with
      | nil => exact hp.returned hs hf
      | cons g callers =>
        obtain ⟨hdead, hg, ha, hgnext, hs⟩ := hs
        have hf' : FrameOk v True f := ⟨hf.att, hf.ahead, fun _ => hf.tgt (.inl (by simp))⟩
        exact found_ok hok hs hg (ha.caller hok hf' hp) fun hnone => absurd hnone hgnext
    · rw [if_neg hlink]
      have hf' := frameOk_load hok hs f.depth
      exact inner_ok hok hs hf' ⟨hf'.ahead, rfl⟩ id

/-- `get_shared` succeeds on an entry that was not released. -/
theorem getShared_eq {p : Ptr Addr} {x : Addr} (hx : h.getShared p = some x) :
    p.addr = some x ∧ h.released x = false := by
  obtain ⟨hp, hr⟩ := Option.filter_eq_some_iff.mp hx
  exact ⟨hp, by simpa using hr⟩

/-- `get_shared` fails on a released entry. -/
theorem released_of_getShared {p : Ptr Addr} {x : Addr} (hp : p.addr = some x)
    (hx : h.getShared p = none) : h.released x = true := by
  unfold Heap.getShared at hx
  rw [hp] at hx
  simpa [Option.filter] using hx

/-- A call that has found a pointer holds no entry yet. -/
theorem found_holds {p : Ptr Addr} {call' : NextPtr}
    (h' : NextPtr.found callers f p = .running call') : call'.holds = none := by
  -- What comes next carries nothing: get_shared has not run yet, and an exchange writes null.
  induction callers generalizing f with
  | nil =>
    unfold NextPtr.found at h'
    simp only at h'
    split at h'
    · split at h'
      · rename_i hnull
        cases h'
        exact Option.isNone_iff_eq_none.mp hnull
      · cases h'
        rfl
    · cases h'
  | cons g callers ih =>
    unfold NextPtr.found at h'
    simp only at h'
    split at h'
    · split at h'
      · rename_i hnull
        cases h'
        exact Option.isNone_iff_eq_none.mp hnull
      · cases h'
        rfl
    · exact ih h'

/-- One turn of the inner loop takes no entry. -/
theorem inner_holds {p : Ptr Addr} {call' : NextPtr}
    (h' : NextPtr.inner callers f p = .running call') : call'.holds = none := by
  unfold NextPtr.inner at h'
  split at h'
  · cases h'
    rfl
  · exact found_holds h'

/-- A call takes entries that were not released only. -/
theorem nextPtr_holds {call' : NextPtr} {x : Addr} (h' : (call.step h).2 = .running call')
    (hx : call'.holds = some x) : h.released x = false := by
  have hnone : ∀ {o : Option Addr}, o = none → o = some x → h.released x = false := by
    intro o ho hs
    rw [ho] at hs
    cases hs
  -- A new handle comes from get_shared alone, and there the entry was not released.
  cases call with
  | loadHead callers head depth => exact hnone (inner_holds h') hx
  | loadNext callers f n tag =>
    simp only [NextPtr.step] at h'
    split at h'
    · exact hnone (found_holds h') hx
    · split at h'
      · cases h'
        cases hx
      · exact hnone (inner_holds h') hx
  | getShared callers f nextValid =>
    simp only [NextPtr.step] at h'
    split at h'
    · cases h'
      cases hx
    · rename_i y hy
      cases h'
      obtain ⟨haddr, hr⟩ := getShared_eq hy
      have hyx : y = x := Option.some.inj (haddr.symm.trans hx)
      rw [← hyx]
      exact hr
  | exchange callers f nextValid =>
    simp only [NextPtr.step] at h'
    split at h'
    · cases callers with
      | nil => cases h'
      | cons g callers => exact hnone (found_holds h') hx
    · exact hnone (inner_holds h') hx

/-- A call that finds the null pointer and returns at once has read it from its head. -/
theorem found_null {p q : Ptr Addr} (hs : Suspended v D b callers f.head)
    (h' : NextPtr.found callers f p = .done q) (hq : q.addr = none) :
    callers = [] ∧ f.headNext.addr = none := by
  -- A null result comes from the outermost call, whose link was null when it was read.
  induction callers generalizing f with
  | nil =>
    unfold NextPtr.found at h'
    simp only at h'
    split at h'
    · split at h'
      · cases h'
      · cases h'
    · rename_i heq
      cases h'
      rw [not_not] at heq
      exact ⟨rfl, by rw [← heq]; exact hq⟩
  | cons g callers ih =>
    obtain ⟨-, -, -, hnext, hs⟩ := hs
    unfold NextPtr.found at h'
    simp only at h'
    split at h'
    · split at h'
      · cases h'
      · cases h'
    -- A suspended caller has a link that is not null.
    · exact absurd (ih hs h').2 hnext

/-- When a call on `b` returns null, the link of `b` leads nowhere at that moment. -/
theorem nextPtr_null {q : Ptr Addr} (hc : CallOk v D b call)
    (h' : (call.step h).2 = .done q) (hq : q.addr = none) :
    (next h b).bind v.tgt = none := by
  -- The call has read null from its head in this step.
  have hinner : ∀ {callers : List Frame} {f : Frame}, Suspended v D b callers f.head →
      f.headNext = h.link f.head → NextPtr.inner callers f f.headNext = .done q →
      (next h b).bind v.tgt = none := by
    intro callers f hs hlink h'
    unfold NextPtr.inner at h'
    split at h'
    · cases h'
    · rename_i hnone
      obtain ⟨rfl, -⟩ := found_null hs h' hq
      have hb : f.head = b := hs.1
      rw [next, ← hb, ← hlink, hnone]
      rfl
  cases call with
  | loadHead callers head depth =>
    exact hinner (f := ⟨head, h.link head, depth⟩) hc rfl h'
  | loadNext callers f n tag =>
    obtain ⟨hs, -, -, hnext⟩ := hc
    simp only [NextPtr.step] at h'
    split at h'
    · exact absurd (found_null hs h' hq).2 hnext
    · split at h'
      · cases h'
      · unfold NextPtr.inner at h'
        split at h'
        · cases h'
        · exact absurd (found_null hs h' hq).2 hnext
  | getShared callers f nextValid =>
    simp only [NextPtr.step] at h'
    split at h'
    · cases h'
    · cases h'
  | exchange callers f nextValid =>
    obtain ⟨hs, -, hp, -⟩ := hc
    simp only [NextPtr.step] at h'
    split at h'
    · rename_i hlink
      cases callers with
      | nil =>
        have hqn : nextValid = q := by
          cases h'
          rfl
        have hb : f.head = b := hs.1
        calc (next h b).bind v.tgt = f.headNext.addr.bind v.tgt := by rw [next, ← hb, hlink]
          _ = nextValid.addr.bind v.tgt := hp.2.symm
          _ = none := by rw [hqn, hq]; rfl
      | cons g callers =>
        obtain ⟨-, -, -, hgnext, hs⟩ := hs
        exact absurd (found_null hs h' hq).2 hgnext
    · exact hinner (f := { f with headNext := h.link f.head }) hs rfl h'

/-- What an access of a call of `next_shared` writes. -/
theorem nextShared_cleans {call : NextShared} (hc : SharedOk v b call)
    (hheld : ∀ x, call.holds = some x → h.released x = false) : Cleans v h (call.step h).1 := by
  cases call with
  -- The walk writes as next_ptr does; get_shared writes nothing.
  | nextPtr call =>
    obtain ⟨c, -, -, hcall⟩ := hc
    have hclean := nextPtr_cleans hcall hheld
    simp only [NextShared.step]
    split
    · rename_i h' call' heq
      rw [heq] at hclean
      exact hclean
    · rename_i h' p heq
      rw [heq] at hclean
      split
      · exact hclean
      · exact hclean
  | getShared p =>
    refine .inl ?_
    simp only [NextShared.step]
    split
    · rfl
    · rfl
    · rfl

/-- The call of `next_shared` begins. -/
theorem sharedOk_start (hatt : v.att b) (hdead : v.dead b = true) : SharedOk v b (.start b) :=
  ⟨b, .inl rfl, rfl, callOk_start hatt fun _ => hdead⟩

/-- An access of a call of `next_shared` keeps its invariant. -/
theorem nextShared_ok {call : NextShared} (hok : HeapOk h v)
    (hlive : ∀ x, v.att x → h.released x = true → v.dead x = true) (hc : SharedOk v b call) :
    SharedAfter v b (call.step h).2 := by
  cases call with
  | nextPtr call =>
    obtain ⟨c, hbc, htgt, hcall⟩ := hc
    have hafter := nextPtr_ok hok hcall
    simp only [NextShared.step]
    split
    · rename_i h' call' heq
      rw [heq] at hafter
      exact ⟨c, hbc, htgt, hafter⟩
    · rename_i h' p heq
      rw [heq] at hafter
      -- The walk may have started over from a later entry, so its results are ahead of the first
      -- one.
      have hret : Returned v True b p.addr := by
        refine ⟨?_, fun hD => (hafter.tgt hD).trans htgt⟩
        intro y hy
        obtain ⟨hatt, hcy⟩ := hafter.att y hy
        rcases hbc with rfl | hbc
        · exact ⟨hatt, hcy⟩
        · exact ⟨hatt, hok.trans _ _ _ hbc hcy⟩
      split
      · rename_i hnull
        rw [Option.isNone_iff_eq_none.mp hnull] at hret
        exact hret
      · rename_i hnull
        obtain ⟨n, hn⟩ := Option.ne_none_iff_exists'.mp fun hnone =>
          hnull (Option.isNone_iff_eq_none.mpr hnone)
        exact ⟨n, hn, hn ▸ hret⟩
  | getShared p =>
    obtain ⟨n, hn, hret⟩ := hc
    simp only [NextShared.step]
    split
    · rename_i x hx
      have hxn : x = n := Option.some.inj ((getShared_eq hx).1.symm.trans hn)
      rw [hxn]
      exact hret
    · rename_i m hx hm
      have hmn : m = n := Option.some.inj (hm.symm.trans hn)
      subst hmn
      obtain ⟨hatt, hbm⟩ := hret.att m rfl
      have hdead := hlive m hatt (released_of_getShared hn hx)
      -- The entry was released meanwhile, so it is deleted: the walk starts over from it.
      exact ⟨m, .inr hbm, hret.tgt trivial, callOk_start hatt fun _ => hdead⟩
    · rename_i hnone
      rw [hn] at hnone
      cases hnone

/-- A call of `next_shared` takes entries that were not released only. -/
theorem nextShared_holds {call call' : NextShared} {x : Addr}
    (h' : (call.step h).2 = .running call') (hx : call'.holds = some x) :
    -- As for next_ptr: a handle comes from get_shared alone.
    h.released x = false := by
  cases call with
  | nextPtr call =>
    simp only [NextShared.step] at h'
    split at h'
    · rename_i h₁ call₁ heq
      cases h'
      have hrun : (call.step h).2 = .running call₁ := by rw [heq]
      exact nextPtr_holds hrun hx
    · split at h'
      · cases h'
      · cases h'
        cases hx
  | getShared p =>
    simp only [NextShared.step] at h'
    split at h'
    · cases h'
    · cases h'
      cases hx
    · cases h'

/-- The result of `next_shared` was not released. -/
theorem nextShared_result {call : NextShared} {x : Addr}
    (h' : (call.step h).2 = .done (some x)) : h.released x = false := by
  cases call with
  | nextPtr call =>
    simp only [NextShared.step] at h'
    split at h'
    · cases h'
    · split at h'
      · cases h'
      · cases h'
  | getShared p =>
    simp only [NextShared.step] at h'
    split at h'
    · rename_i y hy
      cases h'
      exact (getShared_eq hy).2
    · cases h'
    · cases h'

end call

section heap

variable {h h' : Heap T} {v v' : View} {x : Addr}

/-- The successors after a store. -/
theorem next_setLink (p : Ptr Addr) :
    next (h.setLink x p) = Function.update (next h) x p.addr := by
  funext y
  by_cases hy : y = x
  · subst hy
    simp [next, Heap.setLink]
  · simp [next, Heap.setLink, hy]

/-- A store that keeps the tag keeps the entry alive or deleted. -/
theorem isDeleted_setLink (p : Option Addr) :
    (h.setLink x ⟨p, (h.link x).tag⟩).isDeleted = h.isDeleted := by
  funext y
  by_cases hy : y = x
  · subst hy
    simp [Heap.isDeleted, Heap.setLink]
  · simp [Heap.isDeleted, Heap.setLink, hy]

/-- A store of a word without the tag `Second` keeps an undeleted entry alive. -/
theorem isDeleted_setLive {p : Ptr Addr} (hlive : h.isDeleted x = false)
    (htag : p.tag = .none ∨ p.tag = .first) : (h.setLink x p).isDeleted = h.isDeleted := by
  funext y
  by_cases hy : y = x
  · subst hy
    rw [hlive]
    rcases htag with htag | htag <;> simp [Heap.isDeleted, Heap.setLink, htag]
  · simp [Heap.isDeleted, Heap.setLink, hy]

/-- A clean-up leaves the entries alive or deleted as they are. -/
theorem Cleans.isDeleted_eq (hc : Cleans v h h') : h'.isDeleted = h.isDeleted := by
  rcases hc with rfl | ⟨x, p, rfl, -⟩
  · rfl
  · exact isDeleted_setLink p

/-- A clean-up leaves the instances, the releases and the allocator as they are. -/
theorem Cleans.fields (hc : Cleans v h h') :
    h'.value = h.value ∧ h'.released = h.released ∧ h'.nextAddr = h.nextAddr := by
  rcases hc with rfl | ⟨x, p, rfl, -⟩
  · exact ⟨rfl, rfl, rfl⟩
  · exact ⟨rfl, rfl, rfl⟩

namespace HeapOk

/-- A deleted entry has the tag `Second`. -/
theorem tag_eq (hok : HeapOk h v) (hx : h.isDeleted x = true) : (h.link x).tag = .second := by
  have hboth := hok.tags x
  simpa [Heap.isDeleted, hboth] using hx

/-- No entry is before itself. -/
theorem irrefl (hok : HeapOk h v) : ¬v.before x x := by
  induction x using hok.wf.induction with
  | _ x ih => exact fun hxx => ih x hxx hxx

/-- The entry that an entry leads to is behind it. -/
theorem tgt_before (hok : HeapOk h v) {y : Addr} (hatt : v.att x) (hy : v.tgt x = some y) :
    v.att y ∧ (x = y ∨ v.before x y) := by
  -- Along the links, up to the first entry that is not deleted.
  induction x using hok.wf.induction with
  | _ x ih =>
    cases hdel : h.isDeleted x with
    | false =>
      have hxy : x = y := Option.some.inj ((hok.skip.live x hdel).symm.trans hy)
      exact ⟨hxy ▸ hatt, .inl hxy⟩
    | true =>
      rw [hok.skip.dead x hdel] at hy
      obtain ⟨z, hz, hzy⟩ := Option.bind_eq_some_iff.mp hy
      obtain ⟨hattz, hxz⟩ := hok.links x z hatt hz
      obtain ⟨hatty, hzy⟩ := ih z hxz hattz hzy
      refine ⟨hatty, .inr ?_⟩
      rcases hzy with rfl | hzy
      · exact hxz
      · exact hok.trans _ _ _ hxz hzy

/-- An entry is not behind itself. -/
theorem next_ne (hok : HeapOk h v) (hatt : v.att x) : (next h x).bind v.tgt ≠ some x := by
  intro hc
  obtain ⟨z, hz, hzx⟩ := Option.bind_eq_some_iff.mp hc
  obtain ⟨hattz, hxz⟩ := hok.links x z hatt hz
  rcases (hok.tgt_before hattz hzx).2 with rfl | hzx
  · exact hok.irrefl hxz
  · exact hok.irrefl (hok.trans _ _ _ hxz hzx)

/-- What an entry that was not released leads to was not released. -/
theorem unreleased (hok : HeapOk h v) {y : Addr} (hatt : v.att x) (hx : h.released x = false)
    (hy : v.tgt x = some y) : h.released y = false := by
  induction x using hok.wf.induction with
  | _ x ih =>
    cases hdel : h.isDeleted x with
    | false =>
      have hxy : x = y := Option.some.inj ((hok.skip.live x hdel).symm.trans hy)
      exact hxy ▸ hx
    | true =>
      rw [hok.skip.dead x hdel] at hy
      obtain ⟨z, hz, hzy⟩ := Option.bind_eq_some_iff.mp hy
      obtain ⟨hattz, hxz⟩ := hok.links x z hatt hz
      exact ih z hxz hattz (hok.owned x z hx hz) hzy

/-- The entries of a list whose root was not released were not released. -/
theorem threaded_unreleased (hok : HeapOk h v) {p : Option Addr} {l : List Addr}
    (hl : Threaded (next h) v.tgt p l)
    (hp : ∀ y, p = some y → v.att y ∧ h.released y = false) : ∀ y ∈ l, h.released y = false := by
  induction l generalizing p with
  | nil =>
    intro y hy
    cases hy
  | cons z l ih =>
    -- An entry that is not released has a target that is not released, and so on along the chain.
    obtain ⟨w, hw, hwz⟩ := Option.bind_eq_some_iff.mp hl.1
    obtain ⟨hattw, hrelw⟩ := hp w hw
    have hrelz := hok.unreleased hattw hrelw hwz
    have hattz := (hok.tgt_before hattw hwz).1
    intro y hy
    rcases List.mem_cons.mp hy with rfl | hy
    · exact hrelz
    · refine ih hl.2 ?_ y hy
      intro u hu
      exact ⟨(hok.links z u hattz hu).1, hok.owned z u hrelz hu⟩

/-- The entries from an attached entry on: each is attached, and none occurs twice. -/
theorem linked_from (hok : HeapOk h v) (hatt : v.att x) :
    ∃ l, Linked (next h) (some x) (x :: l) ∧ (x :: l).Nodup ∧ (∀ y ∈ l, v.before x y) ∧
      ∀ y ∈ x :: l, v.att y := by
  -- By induction on the order of the list, from its end.
  induction x using hok.wf.induction with
  | _ x ih =>
    cases hnext : next h x with
    | none => exact ⟨[], ⟨rfl, hnext⟩, List.nodup_singleton x, by simp, by simpa using hatt⟩
    | some z =>
      obtain ⟨hattz, hxz⟩ := hok.links x z hatt hnext
      obtain ⟨l, hl, hnodup, hbefore, hall⟩ := ih z hxz hattz
      have hbehind : ∀ y ∈ z :: l, v.before x y := by
        -- What is behind the target is behind the entry.
        intro y hy
        rcases List.mem_cons.mp hy with rfl | hy
        · exact hxz
        · exact hok.trans _ _ _ hxz (hbefore y hy)
      refine ⟨z :: l, ⟨rfl, hnext ▸ hl⟩, ?_, hbehind, fun y hy => ?_⟩
      · exact List.nodup_cons.mpr ⟨fun hc => hok.irrefl (hbehind x hc), hnodup⟩
      · rcases List.mem_cons.mp hy with rfl | hy
        · exact hatt
        · exact hall y hy

/-- The entries from a pointer to attached entries on. -/
theorem linked (hok : HeapOk h v) {p : Option Addr} (hp : ∀ y, p = some y → v.att y) :
    ∃ l, Linked (next h) p l ∧ l.Nodup ∧ ∀ y ∈ l, v.att y := by
  cases p with
  | none => exact ⟨[], rfl, List.nodup_nil, by simp⟩
  | some x =>
    obtain ⟨l, hl, hnodup, -, hall⟩ := hok.linked_from (hp x rfl)
    exact ⟨x :: l, hl, hnodup, hall⟩

/-- A store to the `next` word of an entry that keeps it alive or deleted. A deleted entry must
lead to where it led to. -/
theorem store (hok : HeapOk h v) {p : Ptr Addr} (hx : x < h.nextAddr)
    (hdel : (h.setLink x p).isDeleted = h.isDeleted) (htag : p.tag ≠ .both)
    (hdead : h.isDeleted x = true → p.addr.bind v.tgt = (next h x).bind v.tgt)
    (hatt : v.att x → ∀ y, p.addr = some y → v.att y ∧ v.before x y)
    (howned : h.released x = false → ∀ y, p.addr = some y → h.released y = false) :
    HeapOk (h.setLink x p) v where
  skip := by
    rw [next_setLink, hdel]
    exact hok.skip.redirect hdead
  dead := by
    -- The link of x is the only one that differs, in each clause below.
    rw [hdel]
    exact hok.dead
  tags y := by
    by_cases hy : y = x
    · subst hy
      simpa [Heap.setLink] using htag
    · have htag := hok.tags y
      simpa [Heap.setLink, hy] using htag
  links y z hy hz := by
    rw [next_setLink] at hz
    by_cases hyx : y = x
    · subst hyx
      rw [Function.update_self] at hz
      exact hatt hy z hz
    · rw [Function.update_of_ne hyx] at hz
      exact hok.links y z hy hz
  owned y z hy hz := by
    rw [next_setLink] at hz
    by_cases hyx : y = x
    · subst hyx
      rw [Function.update_self] at hz
      exact howned hy z hz
    · rw [Function.update_of_ne hyx] at hz
      exact hok.owned y z hy hz
  fresh y hy := by
    have hyx : y ≠ x := by
      rintro rfl
      exact absurd hx (Nat.not_lt.mpr hy)
    show Function.update h.link x _ y = _
    rw [Function.update_of_ne hyx]
    exact hok.fresh y hy
  bound := hok.bound
  allocated := hok.allocated
  trans := hok.trans
  wf := hok.wf

/-- The link of an entry is changed. -/
theorem setLink (hok : HeapOk h v) {p : Option Addr} (hx : x < h.nextAddr)
    (hdead : h.isDeleted x = true → p.bind v.tgt = (next h x).bind v.tgt)
    (hatt : v.att x → ∀ y, p = some y → v.att y ∧ v.before x y)
    (howned : h.released x = false → ∀ y, p = some y → h.released y = false) :
    HeapOk (h.setLink x ⟨p, (h.link x).tag⟩) v :=
  hok.store hx (isDeleted_setLink p) (hok.tags x) hdead hatt howned

/-- A store to the `next` word of an entry that is not deleted. -/
theorem setLive (hok : HeapOk h v) {p : Ptr Addr} (hx : x < h.nextAddr)
    (hlive : h.isDeleted x = false) (htag : p.tag = .none ∨ p.tag = .first)
    (hatt : v.att x → ∀ y, p.addr = some y → v.att y ∧ v.before x y)
    (howned : h.released x = false → ∀ y, p.addr = some y → h.released y = false) :
    HeapOk (h.setLink x p) v := by
  refine hok.store hx (isDeleted_setLive hlive htag) ?_ ?_ hatt howned
  · rcases htag with htag | htag <;> rw [htag] <;> nofun
  · rw [hlive]
    nofun

/-- Cleaning up a link keeps the view. -/
theorem cleans (hok : HeapOk h v) (hc : Cleans v h h') : HeapOk h' v := by
  rcases hc with rfl | ⟨x, p, rfl, hatt, hp, htgt⟩
  · exact hok
  · refine hok.setLink (hok.bound x hatt) (fun _ => htgt) (fun _ y hy => ?_) fun _ y hy => ?_
    · exact ⟨(hp y hy).1, (hp y hy).2.1⟩
    · exact (hp y hy).2.2

/-- More entries are attached. -/
theorem grow (hok : HeapOk h v) (htgt : v'.tgt = v.tgt) (hdead : v'.dead = v.dead)
    (hlinks : ∀ y z, v'.att y → next h y = some z → v'.att z ∧ v'.before y z)
    (hbound : ∀ y, v'.att y → y < h.nextAddr)
    (htrans : ∀ y z u, v'.before y z → v'.before z u → v'.before y u)
    (hwf : WellFounded fun z y => v'.before y z) : HeapOk h v' where
  skip := htgt ▸ hok.skip
  dead := hdead ▸ hok.dead
  tags := hok.tags
  links := hlinks
  owned := hok.owned
  fresh := hok.fresh
  bound := hbound
  allocated := hok.allocated
  trans := htrans
  wf := hwf

/-- An entry is created. -/
theorem alloc (hok : HeapOk h v) (val : T) : HeapOk (h.alloc val) v where
  skip := hok.skip
  dead := hok.dead
  tags := hok.tags
  links := hok.links
  owned := hok.owned
  fresh y hy := hok.fresh y (Nat.le_of_succ_le hy)
  bound y hy := Nat.lt_succ_of_lt (hok.bound y hy)
  allocated y hy := Nat.lt_succ_of_lt (hok.allocated y hy)
  trans := hok.trans
  wf := hok.wf

/-- An entry that nothing is linked to is released. -/
theorem release (hok : HeapOk h v) (hlt : x < h.nextAddr) (hx : h.unlinked x = true) :
    HeapOk (h.release x) v where
  skip := hok.skip
  dead := hok.dead
  tags := hok.tags
  links := hok.links
  owned y z hy hz := by
    have hyx : y ≠ x := by
      rintro rfl
      simp [Heap.release] at hy
    have hrel : h.released y = false := by
      -- An entry that is released is the target of no link of an entry that is not.
      simpa [Heap.release, hyx] using hy
    have hzx : z ≠ x := by
      rintro rfl
      have hlt : y < h.nextAddr := by
        by_contra hge
        have hnull := hok.fresh y (Nat.le_of_not_lt hge)
        rw [next, Heap.release, hnull] at hz
        cases hz
      have hun := List.all_eq_true.mp hx y (List.mem_range.mpr hlt)
      have hlink : (h.link y).addr = some z := hz
      simp [hrel, hlink] at hun
    show Function.update h.released x true z = false
    rw [Function.update_of_ne hzx]
    exact hok.owned y z hrel hz
  fresh := hok.fresh
  bound := hok.bound
  allocated y hy := by
    by_cases hyx : y = x
    · rw [hyx]
      exact hlt
    · refine hok.allocated y ?_
      simpa [Heap.release, hyx] using hy
  trans := hok.trans
  wf := hok.wf

end HeapOk

/-- The tag of an entry that is not deleted. -/
theorem tag_of_live (hx : h.isDeleted x = false) :
    (h.link x).tag = .none ∨ (h.link x).tag = .first := by
  cases htag : (h.link x).tag with
  | none => exact .inl rfl
  | first => exact .inr rfl
  | second | both => simp [Heap.isDeleted, htag] at hx

/-- `delete_self` fails on a deleted entry. -/
theorem deleteSelf_dead (hx : h.isDeleted x = true) : h.deleteSelf x = (h, false) := by
  unfold Heap.deleteSelf
  rw [if_neg]
  intro htag
  rcases htag with htag | htag
  · simp [Heap.isDeleted, htag] at hx
  · simp [Heap.isDeleted, htag] at hx

/-- `delete_self` succeeds on an entry that is not deleted. -/
theorem deleteSelf_eq (hx : h.isDeleted x = false) :
    h.deleteSelf x = (h.setLink x ((h.link x).withTag .second), true) := by
  unfold Heap.deleteSelf
  exact if_pos (tag_of_live hx)

/-- The view after `x` is deleted. -/
def View.kill (v : View) (h : Heap T) (x : Addr) : View :=
  { v with
    tgt := killed (next h) v.tgt x
    dead := Function.update v.dead x true }

/-- A deletion keeps what calls rely on. -/
theorem View.later_kill (v : View) (h : Heap T) (x : Addr) : v.Later (v.kill h x) where
  att _ hy := hy
  before _ _ hyz := hyz
  dead y hy := by
    show Function.update v.dead x true y = true
    by_cases hyx : y = x
    · rw [hyx, Function.update_self]
    · rw [Function.update_of_ne hyx]
      exact hy
  tgt _ _ hpq := kill_bind_congr hpq

/-- A deletion changes no link. -/
theorem next_deleteSelf (hx : h.isDeleted x = false) : next (h.deleteSelf x).1 = next h := by
  rw [deleteSelf_eq hx, next_setLink]
  exact Function.update_eq_self x (next h)

/-- The entry is deleted then, and no other one. -/
theorem isDeleted_deleteSelf (hx : h.isDeleted x = false) :
    (h.deleteSelf x).1.isDeleted = Function.update h.isDeleted x true := by
  rw [deleteSelf_eq hx]
  funext y
  by_cases hyx : y = x
  · subst hyx
    simp [Heap.isDeleted, Heap.setLink]
  · simp [Heap.isDeleted, Heap.setLink, hyx]

/-- The heap after a deletion. -/
theorem HeapOk.kill (hok : HeapOk h v) (hx : h.isDeleted x = false) (hatt : v.att x) :
    HeapOk (h.deleteSelf x).1 (v.kill h x) where
  skip := by
    -- Deleting x sets a tag: the links lead where they led, only what counts as live differs.
    rw [next_deleteSelf hx, isDeleted_deleteSelf hx]
    exact hok.skip.kill hx (hok.next_ne hatt)
  dead := by
    rw [isDeleted_deleteSelf hx]
    show Function.update v.dead x true = _
    rw [hok.dead]
  tags y := by
    rw [deleteSelf_eq hx]
    by_cases hyx : y = x
    · subst hyx
      simp [Heap.setLink]
    · have htag := hok.tags y
      simpa [Heap.setLink, hyx] using htag
  links := by
    rw [next_deleteSelf hx]
    exact hok.links
  owned := by
    rw [next_deleteSelf hx, deleteSelf_eq hx]
    exact hok.owned
  fresh y hy := by
    rw [deleteSelf_eq hx] at hy ⊢
    have hyx : y ≠ x := by
      rintro rfl
      exact absurd (hok.bound y hatt) (Nat.not_lt.mpr hy)
    show Function.update h.link x _ y = _
    rw [Function.update_of_ne hyx]
    exact hok.fresh y hy
  bound := by
    rw [deleteSelf_eq hx]
    exact hok.bound
  allocated := by
    rw [deleteSelf_eq hx]
    exact hok.allocated
  trans := hok.trans
  wf := hok.wf

end heap

end Sdd.Proofs
