import Sdd.Proofs.LinkedList
import Sdd.PushIf

/-!
# `Sdd.Proofs.PushIf.Entries`: the entries that a list call refers to

The entries in the local variables of a call of `next_ptr` or `next_shared` were attached, and so
are those whose references it takes or gives back.
-/

set_option autoImplicit false

namespace Sdd.Proofs.PushIf

open Sdd.PushIf (Refs)

variable {T : Type} {h : Heap T} {v : View} {D : Prop} {b c x : Addr} {f : Frame}
  {callers : List Frame}

/-- The access takes and gives back references to attached entries only. -/
def RefsIn (v : View) (r : Refs) : Prop := ∀ x, x ∈ r.taken ∨ x ∈ r.released → v.att x

/-- A step that counts nothing counts attached entries only. -/
theorem refsIn_none : RefsIn v .none := by
  rintro x (hx | hx) <;> cases hx

/-- A reference is taken to an attached entry. -/
theorem refsIn_take {o : Option Addr} (ho : ∀ x, o = some x → v.att x) : RefsIn v (.take o) := by
  rintro x (hx | hx)
  · exact ho x (Option.mem_toList.mp hx)
  · cases hx

/-- A reference to an attached entry is given back. -/
theorem refsIn_release {o : Option Addr} (ho : ∀ x, o = some x → v.att x) :
    RefsIn v (.release o) := by
  rintro x (hx | hx)
  · cases hx
  · exact ho x (Option.mem_toList.mp hx)

/-- The next access of `next_ptr` counts attached entries only. -/
theorem callOk_refs {call : NextPtr} (hc : CallOk v D b call) : RefsIn v (call.refs h) := by
  cases call with
  | loadHead | loadNext => exact refsIn_none
  | getShared callers f nextValid =>
    obtain ⟨-, -, ha, -⟩ := hc
    exact refsIn_take fun x hx => (ha.1 x (getShared_eq hx).1).1
  | exchange callers f nextValid =>
    obtain ⟨-, hf, ha, -⟩ := hc
    simp only [NextPtr.refs]
    split
    · exact refsIn_release fun x hx => (hf.ahead x hx).1
    · exact refsIn_release fun x hx => (ha.1 x hx).1

/-- The next access of `next_shared` counts attached entries only. -/
theorem sharedOk_refs {call : NextShared} (hc : SharedOk v b call) : RefsIn v (call.refs h) := by
  cases call with
  | nextPtr call =>
    obtain ⟨c, -, -, hcall⟩ := hc
    exact callOk_refs hcall
  | getShared next =>
    obtain ⟨y, hy, hret⟩ := hc
    exact refsIn_take fun x hx => (hret.att x (hy.symm.trans (getShared_eq hx).1)).1

end Sdd.Proofs.PushIf
