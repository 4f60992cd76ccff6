import Sdd.Queue
import Sdd.Stack

/-!
# `Sdd.PushIf`: the entry of a push that fails

The loop of `push_if_internal` with the reference counts. `State` adds to a queue or a stack the
words `ref_cnt` of the entries, and what the loop does with the `Shared` of its new entry: the clone
is made before the compare-and-exchange, and an exchange that fails gives it back in `result`, which
is dropped at the end of the turn, also when the loop is left. Then `get_mut` and `take_inner` take
the instance back.

A `Container` is what the loop needs of the `World` of a queue or of a stack. `Refs` are the
references that an access takes and gives back. The program can clone and drop its own handles of
the attached entries at any time (`Action.handles`). The closures are `FnMut`: the function in a push
can change between two calls (`Action.setCond`).
-/

set_option autoImplicit false

namespace Sdd

open Sdd.Lib.Linearize (Event)

namespace PushIf

/-- The references that an access takes, and those that it gives back. -/
structure Refs where
  taken : List Addr
  released : List Addr

namespace Refs

/-- No reference is taken or given back. -/
def none : Refs := ⟨[], []⟩

/-- One reference is taken, if there is an entry. -/
def take (x : Option Addr) : Refs := ⟨x.toList, []⟩

/-- One reference is given back, if there is an entry. -/
def release (x : Option Addr) : Refs := ⟨[], x.toList⟩

/-- The word `ref_cnt` of an entry, with one bit for the first reference. -/
def apply (r : Refs) (refCnt : Addr → Nat) (x : Addr) : Nat :=
  refCnt x + 2 * r.taken.count x - 2 * r.released.count x

end Refs

/-- What the loop of `push_if_internal` needs of a container with `n` threads. -/
structure Container (W A T : Type) (n : Nat) where
  init : W
  heap : W → Heap T
  /-- The words of the container. -/
  words : W → List (Option Addr)
  attached : W → List Addr
  /-- The next atomic access of a thread. -/
  proceed : W → Fin n → Option W
  /-- Another action. -/
  act : W → A → Option W
  /-- The thread that begins an operation or a destructor. -/
  actor : A → Option (Fin n)
  /-- The instance that is passed to `push_if`. -/
  supplies : A → Option T
  /-- The entry that the last owner lets go of. -/
  freed : A → Option Addr
  setCond : W → Fin n → (Option T → Bool) → Option W
  /-- The push of a thread that has not attached its entry: the instance, and the entry. -/
  push : W → Fin n → Option (T × Option Addr)
  /-- An access after which `push_if` returns `Err`, or leaves its loop. -/
  rejects : W → W → Bool
  /-- The next turn of the loop begins. -/
  begins : W → Fin n → Bool
  /-- The thread is before the compare-and-exchange that attaches its entry. -/
  exchanging : W → Fin n → Bool
  refs : W → Fin n → Refs
  /-- The entries that a thread refers to, apart from the one that it has not attached yet. -/
  locals : W → Fin n → List Addr

/-- The place of a thread in the loop, as far as the container does not have it. -/
inductive Stage (T : Type) where
  /-- There is no clone of the new entry. -/
  | loop
  /-- The clone for the compare-and-exchange is made. -/
  | cloned
  /-- The compare-and-exchange has failed, and `result` holds the clone. -/
  | failed
  /-- The loop is left. -/
  | left (val : T) (entry : Addr) (result : Bool)
  /-- `unwrap_unchecked` of `None`. -/
  | undefined

namespace Stage

variable {T : Type}

/-- The push is still in its loop, or there is none. -/
def isLoop : Stage T → Bool
  | .loop => true
  | _ => false

/-- The new entry of a thread that has left its loop. -/
def entry : Stage T → Option Addr
  | .left _ e _ => some e
  | _ => none

end Stage

/-- `push_if` has returned `Err`. -/
structure Error (T : Type) (n : Nat) where
  thread : Fin n
  /-- The argument. -/
  val : Option T
  entry : Option Addr
  /-- The instance in the error. -/
  result : Option T

/-- A run of the container with the reference counts, and how far each `push_if` has come. -/
structure State (W T : Type) (n : Nat) where
  world : W
  refCnt : Addr → Nat
  stage : Fin n → Stage T
  supplied : Fin n → Option T
  errors : List (Error T n)

/-- An action of the container, or of the part of `push_if` after its loop. -/
inductive Action (A T : Type) (n : Nat) where
  /-- An invocation, a destructor or the release of an entry. -/
  | act (a : A)
  | proceed (t : Fin n)
  /-- A closure answers differently from now on. -/
  | setCond (t : Fin n) (cond : Option T → Bool)
  /-- The program clones or drops handles of an entry. -/
  | handles (x : Addr) (refCnt : Nat)

namespace Container

variable {W A T : Type} {n : Nat} (C : Container W A T n)

/-- No entry exists, and no `push_if` is in progress. -/
def start : State W T n := ⟨C.init, fun _ => 0, fun _ => .loop, fun _ => none, []⟩

/-- The counts after an access. A new entry has one owner. -/
def counts (s : State W T n) (t : Fin n) (w' : W) : Addr → Nat :=
  let refCnt := (C.refs s.world t).apply s.refCnt
  if (C.heap s.world).nextAddr < (C.heap w').nextAddr then
    Function.update refCnt (C.heap s.world).nextAddr 1
  else
    refCnt

/-- The loop goes on after an access of the container. -/
def advanced (s : State W T n) (t : Fin n) (w' : W) : State W T n :=
  let s' := { s with world := w', refCnt := C.counts s t w' }
  match C.push s.world t with
  | none => s'
  | some (val, entry) =>
    if C.rejects s.world w' then
      match entry with
      | none => { s' with errors := s.errors ++ [⟨t, s.supplied t, none, some val⟩] }
      | some e => { s' with stage := Function.update s.stage t (.left val e true) }
    else
      match s.stage t with
      | .cloned =>
        let stage := if (C.push w' t).isSome then .failed else .loop
        { s' with stage := Function.update s.stage t stage }
      | _ => s'

/-- The container goes on, and the counts follow. -/
def advance (s : State W T n) (t : Fin n) : Option (State W T n) :=
  (C.proceed s.world t).map (C.advanced s t)

/-- `Shared::clone` and `Shared::drop` of the new entry. -/
def setRef (s : State W T n) (t : Fin n) (stage : Stage T) (e : Addr) (refCnt : Nat) :
    State W T n :=
  { s with
    refCnt := Function.update s.refCnt e refCnt
    stage := Function.update s.stage t stage }

/-- The next access of a thread. -/
def proceedAt (s : State W T n) (t : Fin n) : Option (State W T n) :=
  match s.stage t, C.push s.world t with
  | .loop, some (_, some e) =>
    if C.exchanging s.world t then some (setRef s t .cloned e (s.refCnt e + 2))
    else C.advance s t
  | .failed, some (_, some e) =>
    -- `result` is dropped when the turn of the loop ends.
    if C.begins s.world t then some (setRef s t .loop e (s.refCnt e - 2))
    else C.advance s t
  | .loop, _ | .cloned, _ | .failed, _ => C.advance s t
  | .left val e true, _ => some (setRef s t (.left val e false) e (s.refCnt e - 2))
  | .left _ e false, _ =>
    -- `get_mut`
    if s.refCnt e = 1 then
      some { setRef s t .loop e (s.refCnt e - 2) with
        errors := s.errors ++ [⟨t, s.supplied t, some e, (C.heap s.world).value e⟩] }
    else
      some { s with stage := Function.update s.stage t .undefined }
  | .undefined, _ => none

/-- One action; `none` when it is not possible. -/
def step (s : State W T n) : Action A T n → Option (State W T n)
  | .act a =>
    if ((C.actor a).all fun t => (s.stage t).isLoop) &&
        (C.freed a).all fun x => (List.finRange n).all fun t => (s.stage t).entry != some x then
      (C.act s.world a).map fun w' => { s with
        world := w'
        supplied := match C.actor a, C.supplies a with
          | some t, some val => Function.update s.supplied t (some val)
          | _, _ => s.supplied }
    else
      none
  | .proceed t => C.proceedAt s t
  | .setCond t cond => (C.setCond s.world t cond).map fun w' => { s with world := w' }
  | .handles x refCnt =>
    if x ∈ C.attached s.world then
      some { s with refCnt := Function.update s.refCnt x refCnt }
    else
      none

end Container

end PushIf

open PushIf (Refs Container)

/-- The entries in the local variables of the calls. -/
def Frame.locals (f : Frame) : List Addr := f.head :: f.headNext.addr.toList

namespace NextPtr

/-- The entries that the variables of `next_ptr` refer to. -/
def locals : NextPtr → List Addr
  | .loadHead callers head _ => head :: callers.flatMap Frame.locals
  | .loadNext callers f n _ => n :: (f :: callers).flatMap Frame.locals
  | .getShared callers f nextValid | .exchange callers f nextValid =>
    nextValid.addr.toList ++ (f :: callers).flatMap Frame.locals

/-- What the next access of `next_ptr` counts: the link that it writes has a reference of its own. -/
def refs {T : Type} (h : Heap T) : NextPtr → Refs
  | .getShared _ _ nextValid => .take (h.getShared nextValid)
  | .exchange _ f nextValid =>
    if h.link f.head = f.headNext then .release f.headNext.addr else .release nextValid.addr
  | .loadHead _ _ _ | .loadNext _ _ _ _ => .none

end NextPtr

namespace NextShared

/-- The entries that the variables of `next_shared` refer to. -/
def locals : NextShared → List Addr
  | .nextPtr call => call.locals
  | .getShared next => next.addr.toList

/-- What the next access of `next_shared` counts: it returns a reference of its own. -/
def refs {T : Type} (h : Heap T) : NextShared → Refs
  | .nextPtr call => call.refs h
  | .getShared next => .take (h.getShared next)

end NextShared

namespace Queue

variable {T : Type} {n : Nat}

namespace Clean

/-- The push of a clean-up that has not attached its entry. -/
def pushing : Clean T → Option (Push T)
  | .push p => some p
  | .popped _ _ | .retry _ | .peek | .iter => none

/-- The condition of that push has changed its captured state, or answers otherwise. -/
def setCond (cond : Option T → Bool) : Clean T → Option (Clean T)
  | .push p => some (.push { p with cond := cond })
  | .popped _ _ | .retry _ | .peek | .iter => none

/-- The entries that the variables of a clean-up refer to. -/
def locals : Clean T → List Addr
  | .popped _ e => [e]
  | .push _ | .retry _ | .peek | .iter => []

end Clean

namespace Pc

/-- The push of a thread that has not attached its entry. -/
def pushing : Pc T → Option (Push T)
  | .loadNewest p | .loadOldest p | .traverse p _ _ | .attach p _ _ => some p
  | .cleanLoad k | .cleanDeleted k _ | .cleanNext k _ _ | .cleanExchange k _ _ | .cleanReset k =>
    k.pushing
  | .idle | .swapNewest _ _ | .checkOldest _ _ | .resetNewest _ _ | .popLoad _ | .popGetShared _ _
  | .popDeleted _ _ | .popDelete _ _ | .peekLoad | .peekDeleted _ | .isEmpty | .drop _ => none

/-- The closure of a push answers differently from now on. It has just been called at `attach`, and
is not called again before the compare-and-exchange has failed. -/
def setCond (cond : Option T → Bool) : Pc T → Option (Pc T)
  | .loadNewest p => some (.loadNewest { p with cond := cond })
  | .loadOldest p => some (.loadOldest { p with cond := cond })
  | .traverse p current call => some (.traverse { p with cond := cond } current call)
  | .cleanLoad k => (k.setCond cond).map .cleanLoad
  | .cleanDeleted k x => (k.setCond cond).map (.cleanDeleted · x)
  | .cleanNext k x call => (k.setCond cond).map (.cleanNext · x call)
  | .cleanExchange k x next => (k.setCond cond).map (.cleanExchange · x next)
  | .cleanReset k => (k.setCond cond).map .cleanReset
  | _ => none

/-- The entries that the variables of a thread refer to, apart from a new entry. -/
def locals : Pc T → List Addr
  | .traverse _ current call => current :: call.locals
  | .attach _ _ newest => newest.toList
  | .swapNewest _ e | .checkOldest _ e | .resetNewest _ e => [e]
  | .cleanLoad k | .cleanReset k => k.locals
  | .cleanDeleted k x => x :: k.locals
  | .cleanNext k x call => x :: (call.locals ++ k.locals)
  | .cleanExchange k x next => x :: (next.toList ++ k.locals)
  | .popGetShared _ x | .popDeleted _ x | .popDelete _ x | .peekDeleted x => [x]
  | .drop call => call.locals
  | .idle | .loadNewest _ | .loadOldest _ | .popLoad _ | .peekLoad | .isEmpty => []

end Pc

namespace World

/-- The references that the next access of a thread takes and gives back, apart from those to an
entry that it attaches. -/
def refs (w : World T n) (t : Fin n) : Refs :=
  match w.pc t with
  | .traverse _ _ call | .drop call => call.refs w.heap
  | .swapNewest _ e => ⟨[e], w.newest.toList⟩
  | .resetNewest _ _ | .cleanReset _ => .release w.newest
  | .cleanNext _ _ call => call.refs w.heap
  | .cleanExchange _ x next =>
    if w.oldest = some x then .release (some x) else .release next
  | .popGetShared _ x => if w.heap.released x then .none else .take (some x)
  | .popDelete _ x => if (w.heap.deleteSelf x).2 then .none else .release (some x)
  | _ => .none

/-- `push_if` has returned `Err`, or leaves its loop to do so. -/
def rejects (w w' : World T n) : Bool :=
  match w'.history.drop w.history.length with
  | [.result _ _ .rejected] => true
  | _ => false

/-- The next access is the compare-and-exchange that attaches the entry. -/
def attaching : Pc T → Bool
  | .attach _ _ _ => true
  | _ => false

end World

/-- A queue with the reference counts of its entries. -/
def container (T : Type) (n : Nat) : Container (World T n) (Action T n) T n where
  init := .init
  heap w := w.heap
  words w := [w.oldest, w.newest]
  attached w := w.attached
  proceed w t := w.proceed t
  act w a :=
    match a with
    | .thread _ .proceed => none
    | a => w.step a
  actor a :=
    match a with
    | .thread t _ => some t
    | .release _ => none
  supplies a :=
    match a with
    | .thread _ (.invoke (.pushIf val _)) => some val
    | _ => none
  freed a :=
    match a with
    | .release x => some x
    | .thread _ _ => none
  setCond w t cond := ((w.pc t).setCond cond).map (w.goto t)
  push w t := (w.pc t).pushing.map fun p => (p.val, p.entry)
  rejects w w' := w.rejects w'
  begins w t := World.attaching (w.pc t)
  exchanging w t := World.attaching (w.pc t)
  refs w t := w.refs t
  locals w t := (w.pc t).locals

end Queue

namespace Stack

variable {T : Type} {n : Nat}

namespace Clean

/-- The push of a clean-up that has not attached its entry. -/
def pushing : Clean T → Option (Push T)
  | .push p => some p
  | .popIf _ | .popped _ _ | .peek | .isEmpty => none

/-- The condition of that push has changed its captured state, or answers otherwise. -/
def setCond (cond : Option T → Bool) : Clean T → Option (Clean T)
  | .push p => some (.push { p with cond := cond })
  | .popIf _ | .popped _ _ | .peek | .isEmpty => none

/-- The entries that the variables of a clean-up refer to. -/
def locals : Clean T → List Addr
  | .popped _ e => [e]
  | .push _ | .popIf _ | .peek | .isEmpty => []

end Clean

namespace Call

/-- The push of a call that has not attached its entry. -/
def pushing : Call T → Option (Push T)
  | .loadNewest k | .cleanDeleted k _ | .cleanNext k _ _ | .cleanExchange k _ _ => k.pushing
  | .swapLink p _ _ | .attach p _ _ => some p
  | .popGetShared _ _ | .popDeleted _ _ | .popDelete _ _ => none

/-- The closure of a push answers differently from now on. -/
def setCond (cond : Option T → Bool) : Call T → Option (Call T)
  | .loadNewest k => (k.setCond cond).map .loadNewest
  | .cleanDeleted k x => (k.setCond cond).map (.cleanDeleted · x)
  | .cleanNext k x call => (k.setCond cond).map (.cleanNext · x call)
  | .cleanExchange k x next => (k.setCond cond).map (.cleanExchange · x next)
  | .swapLink p e newest => some (.swapLink { p with cond := cond } e newest)
  | .attach p e newest => some (.attach { p with cond := cond } e newest)
  | .popGetShared _ _ | .popDeleted _ _ | .popDelete _ _ => none

/-- The entries that the variables of a call refer to, apart from a new entry. -/
def locals : Call T → List Addr
  | .loadNewest k => k.locals
  | .cleanDeleted k x => x :: k.locals
  | .cleanNext k x call => x :: (call.locals ++ k.locals)
  | .cleanExchange k x next => x :: (next.toList ++ k.locals)
  | .swapLink _ _ newest | .attach _ _ newest => newest.toList
  | .popGetShared _ x | .popDeleted _ x | .popDelete _ x => [x]

/-- The references that the next access of a call takes and gives back, apart from those to an
entry that it attaches. -/
def refs (m : Mem T) : Call T → Refs
  | .cleanNext _ _ call => call.refs m.heap
  | .cleanExchange _ x next =>
    if m.newest = some x then .release (some x) else .release next
  | .swapLink _ e newest =>
    ⟨(m.heap.getShared ⟨newest, .none⟩).toList, (m.heap.link e).addr.toList⟩
  | .attach _ _ newest => if m.newest = newest then .release newest else .none
  | .popGetShared _ x => if m.heap.released x then .none else .take (some x)
  | .popDelete _ x => if (m.heap.deleteSelf x).2 then .none else .release (some x)
  | .loadNewest _ | .cleanDeleted _ _ | .popDeleted _ _ => .none

end Call

namespace Pc

/-- The push of a thread that has not attached its entry. -/
def pushing : Pc T → Option (Push T)
  | .call c => c.pushing
  | .idle | .drop _ => none

/-- The condition of that push answers otherwise. -/
def setCond (cond : Option T → Bool) : Pc T → Option (Pc T)
  | .call c => (c.setCond cond).map .call
  | .idle | .drop _ => none

/-- The entries that the variables of a thread refer to, apart from a new entry. -/
def locals : Pc T → List Addr
  | .call c => c.locals
  | .drop d => d.locals
  | .idle => []

end Pc

namespace World

/-- The references that the next access of a thread takes and gives back. -/
def refs (w : World T n) (t : Fin n) : Refs :=
  match w.pc t with
  | .call c => c.refs w.mem
  | .drop call => call.refs w.mem.heap
  | .idle => .none

/-- `push_if` has returned `Err`, or leaves its loop to do so. -/
def rejects (w w' : World T n) : Bool :=
  match w'.history.drop w.history.length with
  | [.result _ _ .rejected] => true
  | _ => false

/-- The next access is the swap of the link of the new entry. -/
def swapping : Pc T → Bool
  | .call (.swapLink _ _ _) => true
  | _ => false

/-- The next access is the compare-and-exchange that attaches the entry. -/
def attaching : Pc T → Bool
  | .call (.attach _ _ _) => true
  | _ => false

end World

/-- A stack with the reference counts of its entries. -/
def container (T : Type) (n : Nat) : Container (World T n) (Action T n) T n where
  init := .init
  heap w := w.mem.heap
  words w := [w.mem.newest]
  attached w := w.mem.attached
  proceed w t := w.proceed t
  act w a :=
    match a with
    | .thread _ .proceed => none
    | a => w.step a
  actor a :=
    match a with
    | .thread t _ => some t
    | .release _ => none
  supplies a :=
    match a with
    | .thread _ (.invoke (.pushIf val _)) => some val
    | _ => none
  freed a :=
    match a with
    | .release x => some x
    | .thread _ _ => none
  setCond w t cond := ((w.pc t).setCond cond).map (w.goto t)
  push w t := (w.pc t).pushing.map fun p => (p.val, p.entry)
  rejects w w' := w.rejects w'
  begins w t := World.swapping (w.pc t)
  exchanging w t := World.attaching (w.pc t)
  refs w t := w.refs t
  locals w t := (w.pc t).locals

end Stack

end Sdd
