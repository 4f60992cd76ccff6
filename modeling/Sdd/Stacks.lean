import Sdd.Lib.Alone
import Sdd.Stack

/-!
# `Sdd.Stacks`: stacks that share entries

`pop_all` moves all entries of a stack to a new one: it swaps the word `newest` for null, and
the new stack starts with the old value of the word. The entries stay linked as they are, and a
call in progress on the old stack may be at one of them. `Family` is any number of stacks over
one heap: the stack `i` has the word `newest i`. A call on it sees `mem i`.

`World` is a family with `n` threads that call the methods of the stacks, `pop_all` included.
New stacks can be created at any time. `Returns` says that an operation that a thread begins now
returns when all other threads stand still; entries can be released in the mean time.
-/

set_option autoImplicit false

namespace Sdd.Stacks

open Sdd.Stack (Call Mem)
open Sdd.Lib.Linearize (Event)

/-- The words of stacks over one heap. -/
structure Family (T ι : Type) where
  newest : ι → Option Addr
  heap : Heap T
  attached : List Addr
  cond : Addr → Option T → Bool

namespace Family

variable {T ι : Type}

/-- No stack has an entry. -/
def empty : Family T ι := ⟨fun _ => none, .empty, [], fun _ _ => true⟩

/-- What a call on the stack `i` sees. -/
def mem (f : Family T ι) (i : ι) : Mem T := ⟨f.newest i, f.heap, f.attached, f.cond⟩

variable [DecidableEq ι]

/-- What a call on the stack `i` leaves. -/
def setMem (f : Family T ι) (i : ι) (m : Mem T) : Family T ι :=
  ⟨Function.update f.newest i m.newest, m.heap, m.attached, m.cond⟩

/-- `Stack::pop_all` on the stack `i`; the new stack is `j`. -/
def popAll (f : Family T ι) (i j : ι) : Family T ι :=
  { f with newest := Function.update (Function.update f.newest j (f.newest i)) i none }

end Family

/-- The operations on the stacks of a family. -/
inductive Op (T : Type) where
  /-- A method of the stack `i`. -/
  | call (i : Nat) (op : Stack.Op T)
  | popAll (i : Nat)

/-- Their answers. -/
inductive Res where
  | call (res : Stack.Res)
  /-- `pop_all` returns a new stack. -/
  | stack (j : Nat)

/-- The place where a thread stands. -/
inductive Pc (T : Type) where
  | idle
  | call (i : Nat) (call : Call T)
  /-- `pop_all`, before the swap of `newest`. -/
  | popAll (i : Nat)
  /-- The destructor of an entry, in `next_ptr_recursive` of the next one. -/
  | drop (call : NextPtr)

/-- The thread holds a `Shared` of `x`. -/
def Pc.holds {T : Type} (x : Addr) : Pc T → Bool
  | idle | popAll _ => false
  | call _ c => c.holds x
  | drop c => c.holds == some x

/-- The family, the number of its stacks, and the places of the threads. -/
structure World (T : Type) (n : Nat) where
  family : Family T Nat
  /-- The stacks are the ones below this number. -/
  count : Nat
  pc : Fin n → Pc T
  history : List (Event (Fin n) (Op T) Res)

/-- What a thread does next. -/
inductive Act (T : Type) where
  | invoke (op : Op T)
  /-- The next atomic access of the call in progress. -/
  | proceed
  /-- The destructor of the released entry `x` runs. -/
  | drop (x : Addr)

/-- A stack is created, or a thread acts. -/
inductive Action (T : Type) (n : Nat) where
  /-- A new stack. -/
  | create
  | thread (t : Fin n) (act : Act T)
  /-- The last owner of the entry `x` lets go of it. -/
  | release (x : Addr)

namespace World

variable {T : Type} {n : Nat}

/-- There is no stack. -/
def init : World T n := ⟨.empty, 0, fun _ => .idle, []⟩

/-- The thread goes to another place. -/
def goto (w : World T n) (t : Fin n) (pc : Pc T) : World T n :=
  { w with pc := Function.update w.pc t pc }

/-- The thread goes on after one atomic access of its call of `op` on the stack `i`. -/
def called (w : World T n) (t : Fin n) (i : Nat) (op : Stack.Op T) :
    Mem T × Outcome (Call T) Stack.Res → World T n
  | (m, .running call) => { w with family := w.family.setMem i m }.goto t (.call i call)
  | (m, .done res) =>
    { w with
        family := w.family.setMem i m
        history := w.history ++ [Event.result t (Op.call i op) (Res.call res)] }.goto t .idle

/-- The next atomic access of the call that a thread is in. -/
def proceed (w : World T n) (t : Fin n) : Option (World T n) :=
  match w.pc t with
  | .idle => none
  | .call i call => some (w.called t i call.op ((w.family.mem i).step call))
  | .popAll i =>
    some ({ w with
      family := w.family.popAll i w.count
      count := w.count + 1
      history := w.history ++ [Event.result t (Op.popAll i) (Res.stack w.count)] }.goto t .idle)
  | .drop call =>
    let w' := { w with family := { w.family with heap := (call.step w.family.heap).1 } }
    match (call.step w.family.heap).2 with
    | .running call' => some (w'.goto t (.drop call'))
    | .done _ => some (w'.goto t .idle)

/-- Where an operation begins, if the stack exists. -/
def entry (w : World T n) : Op T → Option (Pc T)
  | .call i op => if i < w.count then some (.call i (.start op)) else none
  | .popAll i => if i < w.count then some (.popAll i) else none

/-- The last owner of `x` can let go of it: nothing refers to it. -/
def unowned (w : World T n) (x : Addr) : Bool :=
  decide (x < w.family.heap.nextAddr) &&
    ((List.range w.count).all fun i => w.family.newest i != some x) &&
    w.family.heap.unlinked x && (List.finRange n).all fun t => !(w.pc t).holds x

/-- One action; `none` when it is not possible. -/
def step (w : World T n) : Action T n → Option (World T n)
  | .create => some { w with count := w.count + 1 }
  | .thread t (.invoke op) =>
    match w.pc t, w.entry op with
    | .idle, some pc => some ({ w with history := w.history ++ [Event.invoke t op] }.goto t pc)
    | _, _ => none
  | .thread t .proceed => w.proceed t
  | .thread t (.drop x) =>
    match w.pc t, w.family.heap.released x, (w.family.heap.link x).addr with
    | .idle, true, some y => some (w.goto t (.drop (.start y)))
    | _, _, _ => none
  | .release x =>
    if w.unowned x then
      some { w with family := { w.family with heap := w.family.heap.release x } }
    else
      none

/-- The release of an entry. -/
def Releases (w w' : World T n) : Prop := ∃ x, w.step (.release x) = some w'

/-- The operation returns if the thread begins it now, and the other threads stand still. -/
def Returns (w : World T n) (t : Fin n) (op : Op T) : Prop :=
  ∀ w', w.step (.thread t (.invoke op)) = some w' →
    Lib.Ends (fun w => w.proceed t) Releases (fun w => w.pc t = .idle) w'

end World

end Sdd.Stacks
