import Sdd.AtomicOwned

/-!
# `Sdd.TaggedWord`: pointers and tags in one word

In the other modules a `Ptr` is an address beside a tag. In the source the two are one word, as
the alignment of a `RefCounted` leaves the two low bits free. Here are the functions of `tag.rs` on
such words, and the methods of `atomic_owned.rs` and `ptr.rs` in terms of them. The word has `bits`
bits, which is the size of `usize`.

`World` follows `Sdd.AtomicOwned` with the same actions. A pointer to an instance is a word
without a tag. A `Ptr` that is an argument of an action stands for the word that `pack` makes.
-/

set_option autoImplicit false

namespace Sdd.TaggedWord

open Sdd.Collector
open Sdd.AtomicOwned (Act Action CellId user)

variable {bits : Nat}

/-! ## `tag.rs` -/

/-- `Tag::value`. -/
def value : Tag → BitVec bits
  | .none => BitVec.ofNat bits 0
  | .first => BitVec.ofNat bits 1
  | .second => BitVec.ofNat bits 2
  | .both => BitVec.ofNat bits 3

/-- `Tag::into_tag`. -/
def intoTag (ptr : BitVec bits) : Tag :=
  match (ptr &&& BitVec.ofNat bits 3).toNat with
  | 0 => .none
  | 1 => .first
  | 2 => .second
  | _ => .both

/-- `Tag::update_tag`. -/
def updateTag (ptr : BitVec bits) (tag : Tag) : BitVec bits :=
  (ptr &&& ~~~(BitVec.ofNat bits 3)) ||| value tag

/-- `Tag::unset_tag`. -/
def unsetTag (ptr : BitVec bits) : BitVec bits := ptr &&& ~~~(BitVec.ofNat bits 3)

/-- `NonNull::new`. -/
def nonNull (ptr : BitVec bits) : Option (BitVec bits) :=
  if ptr = BitVec.ofNat bits 0 then none else some ptr

/-- The instance that a word points to. -/
def pointee (ptr : BitVec bits) : Option (BitVec bits) := nonNull (unsetTag ptr)

/-- The word of a new pointer, in `swap` and `compare_exchange`. -/
def desired (new : Option (BitVec bits)) (tag : Tag) : BitVec bits :=
  updateTag (new.getD (BitVec.ofNat bits 0)) tag

/-- The word of a `Ptr`: `Ptr::as_underlying_ptr`. -/
def pack (p : Ptr (BitVec bits)) : BitVec bits := desired p.addr p.tag

/-! ## `atomic_owned.rs` -/

/-- A call of `update_tag_if` in progress. -/
structure Update (bits : Nat) where
  cell : CellId
  tag : Tag
  prev : BitVec bits
  met : Bool

/-- The handles. -/
structure Cells (bits : Nat) where
  words : List (Option (BitVec bits))
  owned : List (Tid × BitVec bits)
  ptrs : Tid → List (BitVec bits)
  updates : Tid → List (Update bits)
  answers : List (Tid × Bool)

namespace Cells

/-- There is no handle. -/
def init : Cells bits where
  words := []
  owned := []
  ptrs := fun _ => []
  updates := fun _ => []
  answers := []

/-- The word of a cell. -/
def word (c : Cells bits) (cell : CellId) : Option (BitVec bits) := (c.words[cell]?).join

/-- The word of a cell changes. -/
def setWord (c : Cells bits) (cell : CellId) (p : Option (BitVec bits)) : Cells bits :=
  { c with words := c.words.set cell p }

/-- `Owned::from`. -/
def give (c : Cells bits) (t : Tid) : Option (BitVec bits) → Cells bits
  | none => c
  | some x => { c with owned := (t, x) :: c.owned }

/-- `Ptr::from`: the thread gets a `Ptr` with the word. -/
def point (c : Cells bits) (t : Tid) (ptr : BitVec bits) : Cells bits :=
  match pointee ptr with
  | none => c
  | some x => { c with ptrs := Function.update c.ptrs t (x :: c.ptrs t) }

/-- The thread has other calls of `update_tag_if` in progress. -/
def setUpdates (c : Cells bits) (t : Tid) (us : List (Update bits)) : Cells bits :=
  { c with updates := Function.update c.updates t us }

/-- The answer of an exchange is recorded. -/
def log (c : Cells bits) (t : Tid) (ok : Bool) : Cells bits :=
  { c with answers := (t, ok) :: c.answers }

/-- The `Ptr`s of a thread are gone when it has no guard any more. -/
def expire (c : Cells bits) (alive : Tid → Bool) : Cells bits :=
  { c with ptrs := fun r => if alive r then c.ptrs r else [] }

/-- The thread is before the compare-and-exchange of `update_tag_if`. -/
def updating (c : Cells bits) (t : Tid) : Bool := (c.updates t).head?.any (·.met)

/-- `forget`: the thread's handle is no longer dropped. -/
def forget (c : Cells bits) (t : Tid) : Option (BitVec bits) → Cells bits
  | none => c
  | some x => { c with owned := c.owned.erase (t, x) }

/-- The thread has an `Owned` to the address. -/
def owns (c : Cells bits) (t : Tid) (x : BitVec bits) : Bool := (t, x) ∈ c.owned

/-- The new word takes the place of the old one, whose instance the thread owns then. -/
def exchange (c : Cells bits) (t : Tid) (cell : CellId) (prev : BitVec bits)
    (new : Option (BitVec bits)) (tag : Tag) : Cells bits :=
  ((c.forget t new).setWord cell (some (desired new tag))).give t (pointee prev)

/-- The condition of `update_tag_if` is called. -/
def ask (c : Cells bits) (guarded : Bool) (t : Tid) (u : Update bits) (rest : List (Update bits)) :
    Cells bits :=
  let c := c.setUpdates t (u :: rest)
  if guarded then c.point t u.prev else c

/-- A call of a method of a handle, or the next step of `update_tag_if`. -/
def call (c : Cells bits) (guarded : Bool) (t : Tid) : Act (BitVec bits) → Option (Cells bits)
  | .null => some { c with words := c.words ++ [some (BitVec.ofNat bits 0)] }
  | .from x =>
    if c.owns t x then
      some { c.forget t (some x) with words := c.words ++ [some x] }
    else
      none
  | .load cell => if guarded then (c.word cell).map fun p => c.point t p else none
  | .getGuardedPtr x => if guarded && c.owns t x then some (c.point t x) else none
  | .swap cell new tag =>
    if new.all (c.owns t) then
      (c.word cell).map fun prev => c.exchange t cell prev new tag
    else
      none
  | .compareExchange cell current new tag spurious =>
    if guarded && new.all (c.owns t) && (pointee (pack current)).all (fun x => x ∈ c.ptrs t) then
      (c.word cell).map fun prev =>
        if prev = pack current ∧ spurious = false then
          ((c.exchange t cell prev new tag).point t (desired new tag)).log t true
        else
          (c.point t prev).log t false
    else
      none
  | .updateTagIf cell tag =>
    (c.word cell).map fun p => c.ask guarded t ⟨cell, tag, p, false⟩ (c.updates t)
  | .answer ok =>
    match c.updates t with
    | [] => none
    | u :: rest =>
      if ok then
        some (c.setUpdates t ({ u with met := true } :: rest))
      else
        some ((c.setUpdates t rest).log t false)
  | .updateTag spurious =>
    match c.updates t with
    | [] => none
    | u :: rest => (c.word u.cell).map fun p =>
        if p = u.prev ∧ spurious = false then
          ((c.setWord u.cell (some (updateTag p u.tag))).setUpdates t rest).log t true
        else
          c.ask guarded t { u with prev := p, met := false } rest
  | .intoOwned cell => (c.word cell).map fun p => (c.setWord cell none).give t (pointee p)
  | .send x receiver =>
    if c.owns t x then some ((c.forget t (some x)).give receiver (some x)) else none
  | .process _ | .new _ | .drop _ | .dropAtomic _ => none

end Cells

/-- The program on words. -/
structure World (bits : Nat) where
  process : Process
  cells : Cells bits

namespace World

/-- No address is allocated. -/
def init : World bits := ⟨.init, .init⟩

/-- `RefCounted::pass_to_collector`. -/
def retire (w : World bits) (t : Tid) : Option (World bits) :=
  (w.process.step ⟨t, .base .collect⟩).map fun p => { w with process := p }

/-- What a thread does when it is not in the middle of a call. `Owned::new` gets the word of its
instance from the allocator. -/
def act (w : World bits) (t : Tid) : Act (BitVec bits) → Option (World bits)
  | .process act => (w.process.step ⟨t, act⟩).map fun p =>
      { w with process := p, cells := w.cells.expire p.base.guardAlive }
  | .new x => if user w.process t then some { w with cells := w.cells.give t (some x) } else none
  | .drop x =>
    if user w.process t && w.cells.owns t x then
      { w with cells := w.cells.forget t (some x) }.retire t
    else
      none
  | .dropAtomic cell =>
    if user w.process t then
      (w.cells.word cell).bind fun p =>
        match pointee p with
        | none => some { w with cells := w.cells.setWord cell none }
        | some _ => { w with cells := w.cells.setWord cell none }.retire t
    else
      none
  | act =>
    if user w.process t then
      (w.cells.call (w.process.base.guardAlive t) t act).map fun c => { w with cells := c }
    else
      none

/-- One action of one thread; `none` when the thread cannot take it. -/
def step (w : World bits) (a : Action (BitVec bits)) : Option (World bits) :=
  if w.cells.updating a.tid = a.act.updates then w.act a.tid a.act else none

end World

end Sdd.TaggedWord
