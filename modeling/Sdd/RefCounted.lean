import Sdd.Tag
import Mathlib.Algebra.Group.Nat.Defs
import Mathlib.Logic.Function.Basic

/-!
# `Sdd.RefCounted`: reference counting

The model of `ref_counted.rs`, of `Link` in `collectible.rs`, and of the handles in
`shared.rs`, `atomic_shared.rs`, `owned.rs` and `ptr.rs` that take and give references.
The first word of a `Link` is the reference counter of an instance, and after the
instance is retired the same word is the first half of the pointer to the next
`Collectible`. The counter of `n` strong references is `2n - 1`.

A `World` holds the link of every instance, the handles, and for each thread the place where
it stands. `handles` lists the `Shared` (and `Owned`) handles with the thread that owns
each one, and `cells` holds the words of the `AtomicShared` handles. A handle in a cell
is found by whoever loads the word. `World.step` is one action of one thread with at most
one access to a shared word. The operations on an `AtomicShared` that consume it
(`into_shared` and `drop`) own the cell: it is gone after their only access to it.

The counter is a `usize` of `bits` bits, and `r + 2` wraps. A compare-and-exchange that may
fail spuriously takes the outcome from the action.
-/

set_option autoImplicit false

namespace Sdd.RefCounted

/-- The name of a thread. -/
abbrev Tid := Nat

/-- The name of an instance: instances are numbered in the order of their creation. -/
abbrev InstId := Nat

/-- The name of an `AtomicShared` or an `AtomicOwned`. -/
abbrev CellId := Nat

/-- A `NonNull<dyn Collectible>`: the address of the instance and the address of its table
of methods. A `Collectible` contains a word, so its address is even. -/
structure FatPtr where
  addr : Nat
  vtable : Nat
  nonNull : addr ≠ 0
  even : addr % 2 = 0

/-- `Link`: the reference counter, or the two words of a pointer. -/
structure Link where
  refCnt : Nat
  vtable : Nat
  deriving DecidableEq, Repr

namespace Link

/-- `RefCounted::new_shared`: the counter is 1, for one strong reference. -/
def newShared : Link := ⟨1, 0⟩

/-- `RefCounted::new_unique`: the counter is 0, and stays 0. -/
def newUnique : Link := ⟨0, 0⟩

/-- The first word of `Option<NonNull<dyn Collectible>>`. -/
def firstWord : Option FatPtr → Nat
  | none => 0
  | some p => p.addr

/-- The second word of `Option<NonNull<dyn Collectible>>`. -/
def secondWord : Option FatPtr → Nat
  | none => 0
  | some p => p.vtable

/-- `Link::next_ptr`. A word that is no address is not a pointer to a `Collectible`. -/
def nextPtr (l : Link) : Option FatPtr :=
  if h : l.refCnt ≠ 0 ∧ l.refCnt % 2 = 0 then some ⟨l.refCnt, l.vtable, h.1, h.2⟩ else none

/-- The words that `Link::set_next_ptr` stores. -/
def setNextPtr (next : Option FatPtr) : Link := ⟨firstWord next, secondWord next⟩

/-- The first word of a pointer is even, since a `Collectible` is aligned. -/
theorem firstWord_even (next : Option FatPtr) : firstWord next % 2 = 0 := by
  cases next with
  | none => rfl
  | some p => exact p.even

/-- What `set_next_ptr` stores, `next_ptr` finds. -/
theorem nextPtr_setNextPtr (next : Option FatPtr) : (setNextPtr next).nextPtr = next := by
  cases next with
  | none => rfl
  | some p => exact dif_pos ⟨p.nonNull, p.even⟩

end Link

/-- How an instance was created: by `new_shared`, or by `new_unique`. -/
inductive Kind where
  | shared
  | unique
  deriving DecidableEq, Repr

/-- An instance on the heap: how it was created, and the word that it begins with. -/
structure Instance where
  kind : Kind
  link : Link
  deriving DecidableEq, Repr

/-- The place where a thread stands: what its next access is, with the local variables of
the source at that place. -/
inductive Pc where
  | idle
  /-- `add_ref`, before the load of the counter. -/
  | addRefLoad (i : InstId)
  /-- `add_ref`, before the compare-and-exchange. -/
  | addRef (i : InstId) (current : Nat)
  /-- `AtomicShared::get_shared`, before the load of the pointer. -/
  | getShared (cell : CellId)
  /-- `try_add_ref`, before the load of the counter. With a cell it was called by
  `AtomicShared::get_shared`, which loads the pointer again after a failure. -/
  | tryAddRefLoad (i : InstId) (cell : Option CellId)
  /-- `try_add_ref`, before the compare-and-exchange. -/
  | tryAddRef (i : InstId) (cell : Option CellId) (r : Nat)
  /-- `drop_ref`, before the load of the counter. -/
  | dropRefLoad (i : InstId)
  /-- `drop_ref`, before the compare-and-exchange. -/
  | dropRef (i : InstId) (current : Nat)
  /-- `pass_to_collector`, before the first store of `set_next_ptr`. -/
  | pass (i : InstId)
  /-- `set_next_ptr`, before its second store. `collect` says that the call was made by
  `pass_to_collector`. -/
  | setNextPtr (i : InstId) (next : Option FatPtr) (collect : Bool)
  /-- `pass_to_collector`, before the instance becomes the head of a garbage list. -/
  | link (i : InstId)

/-- The answers of the calls that the counter decides. -/
inductive Event where
  /-- `drop_ref` returned `last`. -/
  | dropRef (t : Tid) (i : InstId) (last : Bool)
  /-- `try_add_ref` returned `ok`. -/
  | tryAddRef (t : Tid) (i : InstId) (ok : Bool)
  deriving DecidableEq, Repr

/-- The instances, the handles and words that refer to them, and the places of the threads. -/
structure World where
  instances : InstId → Instance
  /-- The `Shared` and `Owned` handles: the owner and the instance of each one. -/
  handles : List (Tid × InstId)
  /-- The words of the `AtomicShared` handles; `none` for one that was consumed. -/
  cells : List (Option (Ptr InstId))
  pc : Tid → Pc
  /-- The allocator: instances from this number on are fresh. -/
  nextInst : InstId
  /-- The instances on the garbage lists, the latest first. -/
  passed : List InstId
  events : List Event

/-- What a thread does next. -/
inductive Act where
  /-- The next access of the call in progress. A weak compare-and-exchange fails when
  `spurious` is set. -/
  | proceed (spurious : Bool)
  /-- `Shared::new`. -/
  | newShared
  /-- `Owned::new`. -/
  | newUnique
  /-- `AtomicShared::from`. -/
  | from (i : InstId)
  /-- `AtomicShared::null`. -/
  | null
  /-- `Shared::clone`. -/
  | clone (i : InstId)
  /-- `AtomicShared::get_shared`. -/
  | getShared (cell : CellId)
  /-- `Ptr::get_shared`. -/
  | ptrGetShared (i : InstId)
  /-- `AtomicShared::swap`. -/
  | swap (cell : CellId) (new : Option InstId) (tag : Tag)
  /-- `AtomicShared::compare_exchange`, and the weak one. -/
  | compareExchange (cell : CellId) (current : Ptr InstId) (new : Option InstId) (tag : Tag)
      (spurious : Bool)
  /-- `AtomicShared::update_tag_if` with a condition that holds. -/
  | updateTag (cell : CellId) (tag : Tag)
  /-- `AtomicShared::into_shared`. -/
  | intoShared (cell : CellId)
  /-- `AtomicShared::drop`. -/
  | dropAtomic (cell : CellId)
  /-- `Shared::drop`. -/
  | drop (i : InstId)
  /-- `Shared::release`. -/
  | release (i : InstId)
  /-- `Owned::drop`. -/
  | dropOwned (i : InstId)
  /-- A handle is moved to another thread. -/
  | send (i : InstId) (receiver : Tid)
  /-- `collect` stores the first word of the head of a garbage list in the link. -/
  | collect (next : Option FatPtr)
  /-- A garbage list that contains the instance is linked anew. -/
  | setNextPtr (i : InstId) (next : Option FatPtr)

/-- A thread acts. -/
structure Action where
  tid : Tid
  act : Act

namespace World

/-- No instance exists, and no handle. -/
def init : World where
  instances := fun _ => ⟨.unique, .newUnique⟩
  handles := []
  cells := []
  pc := fun _ => .idle
  nextInst := 0
  passed := []
  events := []

/-- The number of strong handles to an instance. -/
def holders (w : World) (i : InstId) : Nat :=
  w.handles.countP (fun h => h.2 == i) +
    w.cells.countP (fun c => c.any fun p => p.addr == some i)

/-- The reference counter of an instance, or the first word of its link. -/
def refCnt (w : World) (i : InstId) : Nat := (w.instances i).link.refCnt

/-- The thread goes to another place of its call. -/
def goto (w : World) (t : Tid) (pc : Pc) : World :=
  { w with pc := Function.update w.pc t pc }

/-- The word of one instance changes. -/
def modify (w : World) (i : InstId) (f : Link → Link) : World :=
  { w with
      instances := Function.update w.instances i
        { w.instances i with link := f (w.instances i).link } }

/-- A release is recorded. -/
def log (w : World) (e : Event) : World := { w with events := e :: w.events }

/-- A new instance with its only handle. -/
def alloc (w : World) (t : Tid) (inst : Instance) : World :=
  { w with
      instances := Function.update w.instances w.nextInst inst
      handles := (t, w.nextInst) :: w.handles
      nextInst := w.nextInst + 1 }

/-- `Shared::from`: the thread takes over a reference. -/
def give (w : World) (t : Tid) : Option InstId → World
  | none => w
  | some i => { w with handles := (t, i) :: w.handles }

/-- `forget`: the thread's handle is no longer dropped. -/
def forget (w : World) (t : Tid) : Option InstId → World
  | none => w
  | some i => { w with handles := w.handles.erase (t, i) }

/-- The thread owns a `Shared` handle to the instance. -/
def ownsShared (w : World) (t : Tid) (i : InstId) : Bool :=
  (t, i) ∈ w.handles && (w.instances i).kind == .shared

/-- The word of a cell that was not consumed. -/
def word (w : World) (cell : CellId) : Option (Ptr InstId) := (w.cells[cell]?).join

/-- The word of a cell changes. -/
def setCell (w : World) (cell : CellId) (p : Option (Ptr InstId)) : World :=
  { w with cells := w.cells.set cell p }

/-- The new pointer takes the place of the old one, whose reference the thread takes over:
the common part of `swap` and of a successful `compare_exchange`. -/
def exchange (w : World) (t : Tid) (cell : CellId) (prev : Ptr InstId) (new : Option InstId)
    (tag : Tag) : World :=
  ((w.forget t new).setCell cell (some ⟨new, tag⟩)).give t prev.addr

section
variable (w : World) (t t' : Tid) (i : InstId) (p : Pc) (f : Link → Link) (e : Event)

/-- One thread is at another place. -/
@[simp] theorem goto_pc : (w.goto t p).pc = Function.update w.pc t p := rfl

/-- The instances do not see where the threads are. -/
@[simp] theorem goto_instances : (w.goto t p).instances = w.instances := rfl

/-- What was recorded stays when a thread goes on. -/
@[simp] theorem goto_events : (w.goto t p).events = w.events := rfl

/-- What was passed to the collector stays when a thread goes on. -/
@[simp] theorem goto_passed : (w.goto t p).passed = w.passed := rfl

/-- The handles of an instance stay when a thread goes on. -/
@[simp] theorem goto_holders : (w.goto t p).holders i = w.holders i := rfl

/-- The counters stay when a thread goes on. -/
@[simp] theorem goto_refCnt : (w.goto t p).refCnt i = w.refCnt i := rfl

/-- One instance has another word. -/
@[simp] theorem modify_instances : (w.modify i f).instances =
    Function.update w.instances i { w.instances i with link := f (w.instances i).link } := rfl

/-- The threads stay where they are when a word changes. -/
@[simp] theorem modify_pc : (w.modify i f).pc = w.pc := rfl

/-- What was recorded stays when a word changes. -/
@[simp] theorem modify_events : (w.modify i f).events = w.events := rfl

/-- What was passed to the collector stays when a word changes. -/
@[simp] theorem modify_passed : (w.modify i f).passed = w.passed := rfl

/-- The handles are not stored in the word of the instance. -/
@[simp] theorem modify_holders (j : InstId) : (w.modify i f).holders j = w.holders j := rfl

/-- The threads stay where they are when a release is recorded. -/
@[simp] theorem log_pc : (w.log e).pc = w.pc := rfl

/-- The instances stay as they are when a release is recorded. -/
@[simp] theorem log_instances : (w.log e).instances = w.instances := rfl

/-- The latest release comes first. -/
@[simp] theorem log_events : (w.log e).events = e :: w.events := rfl

/-- A record is not what is passed to the collector. -/
@[simp] theorem log_passed : (w.log e).passed = w.passed := rfl

/-- A record is not a handle. -/
@[simp] theorem log_holders : (w.log e).holders i = w.holders i := rfl

/-- A record does not count. -/
@[simp] theorem log_refCnt : (w.log e).refCnt i = w.refCnt i := rfl

/-- The counter of the instance whose link is modified. -/
theorem modify_refCnt_self : (w.modify i f).refCnt i = (f (w.instances i).link).refCnt := by
  simp [refCnt]

/-- The counters of the other instances. -/
theorem modify_refCnt_of_ne {j : InstId} (h : j ≠ i) : (w.modify i f).refCnt j = w.refCnt j := by
  simp [refCnt, h]

end

section
variable (w : World) (t : Tid) (p : Option InstId)

/-- The threads stay where they are when one of them gets a handle. -/
@[simp] theorem give_pc : (w.give t p).pc = w.pc := by cases p <;> rfl

/-- A handle does not change its instance: the counter was changed before. -/
@[simp] theorem give_instances : (w.give t p).instances = w.instances := by cases p <;> rfl

/-- Nothing is recorded when a thread gets a handle. -/
@[simp] theorem give_events : (w.give t p).events = w.events := by cases p <;> rfl

/-- Nothing is passed to the collector when a thread gets a handle. -/
@[simp] theorem give_passed : (w.give t p).passed = w.passed := by cases p <;> rfl

/-- The threads stay where they are when one of them loses a handle. -/
@[simp] theorem forget_pc : (w.forget t p).pc = w.pc := by cases p <;> rfl

/-- A lost handle does not change its instance: the counter is changed afterwards. -/
@[simp] theorem forget_instances : (w.forget t p).instances = w.instances := by cases p <;> rfl

/-- Nothing is recorded when a thread loses a handle. -/
@[simp] theorem forget_events : (w.forget t p).events = w.events := by cases p <;> rfl

/-- Nothing is passed to the collector when a thread loses a handle. -/
@[simp] theorem forget_passed : (w.forget t p).passed = w.passed := by cases p <;> rfl

end

/-- The return from `try_add_ref`. -/
def tryAddRefDone (w : World) (t : Tid) (i : InstId) (cell : Option CellId) (ok : Bool) : World :=
  let w := w.log (.tryAddRef t i ok)
  if ok then
    (w.give t (some i)).goto t .idle
  else
    match cell with
    | none => w.goto t .idle
    | some l => w.goto t (.getShared l)

/-- The closure of `try_add_ref` on a loaded counter. -/
def tryAddRefLoaded (w : World) (t : Tid) (i : InstId) (cell : Option CellId) (r : Nat) : World :=
  if r % 2 = 1 then w.goto t (.tryAddRef i cell r) else w.tryAddRefDone t i cell false

section
variable (bits : Nat)

/-- The next access of the call that a thread is in. -/
def proceed (w : World) (t : Tid) (spurious : Bool) : Option World :=
  match w.pc t with
  | .idle => none
  | .addRefLoad i => some (w.goto t (.addRef i (w.refCnt i)))
  | .addRef i current =>
    if w.refCnt i = current ∧ spurious = false then
      some (((w.modify i fun l => { l with refCnt := (current + 2) % 2 ^ bits }).give t
        (some i)).goto t .idle)
    else
      some (w.goto t (.addRef i (w.refCnt i)))
  | .getShared cell =>
    match w.word cell with
    | none => none
    | some p =>
      match p.addr with
      | none => some (w.goto t .idle)
      | some i => some (w.goto t (.tryAddRefLoad i (some cell)))
  | .tryAddRefLoad i cell => some (w.tryAddRefLoaded t i cell (w.refCnt i))
  | .tryAddRef i cell r =>
    if w.refCnt i = r ∧ spurious = false then
      some ((w.modify i fun l => { l with refCnt := (r + 2) % 2 ^ bits }).tryAddRefDone t i
        cell true)
    else
      some (w.tryAddRefLoaded t i cell (w.refCnt i))
  | .dropRefLoad i => some (w.goto t (.dropRef i (w.refCnt i)))
  | .dropRef i current =>
    if w.refCnt i = current ∧ spurious = false then
      -- `saturating_sub` is the subtraction of natural numbers.
      let w := ((w.modify i fun l => { l with refCnt := current - 2 }).forget t (some i)).log
        (.dropRef t i (current == 1))
      some (w.goto t (if current == 1 then .pass i else .idle))
    else
      some (w.goto t (.dropRef i (w.refCnt i)))
  | .pass _ => none
  | .setNextPtr i next collect =>
    some ((w.modify i fun l => { l with vtable := Link.secondWord next }).goto t
      (if collect then .link i else .idle))
  | .link i => some ({ w with passed := i :: w.passed }.goto t .idle)

/-- A call that a thread makes outside of the other calls, up to its first access to a
shared word; `none` when the thread does not own what the call consumes. -/
def call (w : World) (t : Tid) : Act → Option World
  | .newShared => some (w.alloc t ⟨.shared, .newShared⟩)
  | .newUnique => some (w.alloc t ⟨.unique, .newUnique⟩)
  | .from i =>
    if w.ownsShared t i then
      some { w.forget t (some i) with cells := w.cells ++ [some ⟨some i, .none⟩] }
    else
      none
  | .null => some { w with cells := w.cells ++ [some .null] }
  | .clone i => if w.ownsShared t i then some (w.goto t (.addRefLoad i)) else none
  | .getShared cell => (w.word cell).map fun _ => w.goto t (.getShared cell)
  | .ptrGetShared i => if i < w.nextInst then some (w.goto t (.tryAddRefLoad i none)) else none
  | .swap cell new tag =>
    if new.all (w.ownsShared t) then
      (w.word cell).map fun prev => w.exchange t cell prev new tag
    else
      none
  | .compareExchange cell current new tag spurious =>
    if new.all (w.ownsShared t) then
      (w.word cell).map fun prev =>
        if prev = current ∧ spurious = false then w.exchange t cell prev new tag else w
    else
      none
  | .updateTag cell tag => (w.word cell).map fun p => w.setCell cell (some (p.withTag tag))
  | .intoShared cell =>
    (w.word cell).map fun p => ((w.setCell cell none).give t p.addr).goto t .idle
  | .dropAtomic cell => (w.word cell).map fun p =>
      ((w.setCell cell none).give t p.addr).goto t (p.addr.elim .idle .dropRefLoad)
  | .drop i | .release i => if w.ownsShared t i then some (w.goto t (.dropRefLoad i)) else none
  | .dropOwned i =>
    if (t, i) ∈ w.handles ∧ (w.instances i).kind = .unique then
      some ((w.forget t (some i)).goto t (.pass i))
    else
      none
  | .send i receiver =>
    if (t, i) ∈ w.handles then some ((w.forget t (some i)).give receiver (some i)) else none
  | .setNextPtr i next =>
    if i ∈ w.passed then
      some ((w.modify i fun l => { l with refCnt := Link.firstWord next }).goto t
        (.setNextPtr i next false))
    else
      none
  | .proceed _ | .collect _ => none

/-- One action of one thread; `none` when the thread cannot take it. -/
def step (w : World) (a : Action) : Option World :=
  match a.act, w.pc a.tid with
  | .proceed spurious, _ => w.proceed bits a.tid spurious
  | .collect next, .pass i =>
    some ((w.modify i fun l => { l with refCnt := Link.firstWord next }).goto a.tid
      (.setNextPtr i next true))
  | act, .idle => w.call a.tid act
  | _, _ => none

end

end World

end Sdd.RefCounted
