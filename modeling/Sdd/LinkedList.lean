import Sdd.Tag
import Mathlib.Logic.Function.Basic

/-!
# `Sdd.LinkedList`: linked lists of shared entries

The model of `linked_list.rs`. A `Heap` holds the entries: the `next` word of each one, its
instance, and whether the last owner has let go of it. An address is handed out once and
not reused.

The reference counts of `RefCounted` appear in the form in which the algorithms use them:
`get_shared` fails if and only if the entry was released, and an entry can be released only
when no root, no link of an entry that is not released, and no `Shared` of a call in
progress refers to it. Which calls hold a `Shared` is part of their program counters
(`NextPtr.holds`, `NextShared.holds`); the containers that use the list decide when an
entry can be released.

`next_ptr_recursive` and `next_shared` are machines that make one atomic access in each
step. `NextPtr` is the place where a call stands, the suspended callers of the recursion
included.
-/

set_option autoImplicit false

namespace Sdd

abbrev Addr := Nat

structure Heap (T : Type) where
  /-- The `next` word of an entry: a pointer, and the tag of the entry itself. -/
  link : Addr → Ptr Addr
  /-- The instance of an entry. -/
  value : Addr → Option T
  /-- The reference count has reached zero. -/
  released : Addr → Bool
  /-- The allocator: the entries from this address on are fresh. -/
  nextAddr : Addr

namespace Heap

variable {T : Type}

def empty : Heap T := ⟨fun _ => .null, fun _ => none, fun _ => false, 0⟩

/-- `LinkedList::is_deleted`. -/
def isDeleted (h : Heap T) (x : Addr) : Bool :=
  (h.link x).tag == .second || (h.link x).tag == .both

/-- A store to the `next` word of an entry. -/
def setLink (h : Heap T) (x : Addr) (p : Ptr Addr) : Heap T :=
  { h with link := Function.update h.link x p }

/-- `LinkedList::delete_self`: the heap afterwards, and whether the entry was alive. -/
def deleteSelf (h : Heap T) (x : Addr) : Heap T × Bool :=
  if (h.link x).tag = .none ∨ (h.link x).tag = .first then
    (h.setLink x ((h.link x).withTag .second), true)
  else
    (h, false)

/-- `Ptr::get_shared`. -/
def getShared (h : Heap T) (p : Ptr Addr) : Option Addr :=
  p.addr.filter fun x => !h.released x

/-- `Shared::new` on a fresh entry. -/
def alloc (h : Heap T) (val : T) : Heap T :=
  { h with
      value := Function.update h.value h.nextAddr (some val)
      nextAddr := h.nextAddr + 1 }

/-- The last owner of an entry lets go of it. -/
def release (h : Heap T) (x : Addr) : Heap T :=
  { h with released := Function.update h.released x true }

/-- No entry that is not released refers to `x`. -/
def unlinked (h : Heap T) (x : Addr) : Bool :=
  (List.range h.nextAddr).all fun y => h.released y || (h.link y).addr != some x

end Heap

/-- The local variables of a call of `next_ptr_recursive`. `head_tag` is the tag of
`head_next_ptr` all the time. -/
structure Frame where
  head : Addr
  headNext : Ptr Addr
  depth : Nat

/-- A call of `next_ptr_recursive` in progress, before its next atomic access. `callers` are
the calls that wait for a recursive call, the innermost first. -/
inductive NextPtr where
  /-- Before the load of the link of `head`. -/
  | loadHead (callers : List Frame) (head : Addr) (depth : Nat)
  /-- In the inner loop, before the load of the link of `next`, to which a pointer with the
  tag `tag` leads. -/
  | loadNext (callers : List Frame) (frame : Frame) (next : Addr) (tag : Tag)
  /-- Before `next_valid_ptr.get_shared()`. -/
  | getShared (callers : List Frame) (frame : Frame) (nextValid : Ptr Addr)
  /-- Before the compare-and-exchange on the link of `head`. The call holds a `Shared` of
  `next_valid_ptr`, unless that is null. -/
  | exchange (callers : List Frame) (frame : Frame) (nextValid : Ptr Addr)

/-- A call is in progress, or has returned. -/
inductive Outcome (C R : Type) where
  | running (call : C)
  | done (res : R)

/-- The next atomic access of a call that runs alone. -/
def Outcome.advance {M C R : Type} (step : M → C → M × Outcome C R) :
    M × Outcome C R → Option (M × Outcome C R)
  | (m, .running call) => some (step m call)
  | (_, .done _) => none

namespace NextPtr

/-- The inner loop has found `nextValid`: from there to the next atomic access, or to the
return from the outermost call. -/
def found (callers : List Frame) (f : Frame) (nextValid : Ptr Addr) :
    Outcome NextPtr (Ptr Addr) :=
  -- A recursive call is made once only.
  let f := { f with depth := 0 }
  if nextValid.withTag f.headNext.tag ≠ f.headNext then
    if nextValid.isNull then
      .running (.exchange callers f nextValid)
    else
      .running (.getShared callers f nextValid)
  else
    match callers with
    | [] => .done nextValid
    | g :: callers => found callers g nextValid

/-- One turn of the inner loop, up to the load of the link of `next`. -/
def inner (callers : List Frame) (f : Frame) (next : Ptr Addr) : Outcome NextPtr (Ptr Addr) :=
  match next.addr with
  | some n => .running (.loadNext callers f n next.tag)
  | none => found callers f .null

/-- The call begins: `next_ptr` allows for 64 nested calls. -/
def start (head : Addr) : NextPtr := .loadHead [] head 64

variable {T : Type}

/-- The next atomic access of the call. -/
def step (h : Heap T) : NextPtr → Heap T × Outcome NextPtr (Ptr Addr)
  | .loadHead callers head depth => (h, inner callers ⟨head, h.link head, depth⟩ (h.link head))
  | .loadNext callers f n tag =>
    let nextNext := h.link n
    if nextNext.tag ≠ .second then
      (h, found callers f ⟨some n, tag⟩)
    else if f.depth ≠ 0 then
      (h, .running (.loadHead (f :: callers) n (f.depth - 1)))
    else
      (h, inner callers f nextNext)
  | .getShared callers f nextValid =>
    match h.getShared nextValid with
    | none => (h, .running (.loadHead callers f.head f.depth))
    | some _ => (h, .running (.exchange callers f nextValid))
  | .exchange callers f nextValid =>
    if h.link f.head = f.headNext then
      let h := h.setLink f.head (nextValid.withTag f.headNext.tag)
      match callers with
      | [] => (h, .done nextValid)
      | g :: callers => (h, found callers g nextValid)
    else
      (h, inner callers { f with headNext := h.link f.head } (h.link f.head))

/-- The entry that the call holds a `Shared` of. -/
def holds : NextPtr → Option Addr
  | .exchange _ _ nextValid => nextValid.addr
  | _ => none

end NextPtr

/-- A call of `next_shared` in progress. -/
inductive NextShared where
  | nextPtr (call : NextPtr)
  | getShared (next : Ptr Addr)

namespace NextShared

def start (head : Addr) : NextShared := .nextPtr (.start head)

variable {T : Type}

/-- The next atomic access of the call. The result is the `Shared`, if there is one. -/
def step (h : Heap T) : NextShared → Heap T × Outcome NextShared (Option Addr)
  | .nextPtr call =>
    match call.step h with
    | (h, .running call) => (h, .running (.nextPtr call))
    | (h, .done next) => if next.isNull then (h, .done none) else (h, .running (.getShared next))
  | .getShared next =>
    match h.getShared next, next.addr with
    | some x, _ => (h, .done (some x))
    -- The entry was released in the mean time.
    | none, some n => (h, .running (.start n))
    | none, none => (h, .done none)

/-- The entry that the call holds a `Shared` of. -/
def holds : NextShared → Option Addr
  | .nextPtr call => call.holds
  | .getShared _ => none

end NextShared

end Sdd
