/-!
# `Sdd.Tag`: tagged pointers

`Tag` is the two-bit value that `sdd` embeds in the low bits of an aligned pointer, and
`Ptr` is the pointer with its tag: the address part (`none` for a null address) and the
two bits. A null pointer can carry a tag. Two `Ptr` are equal when the whole words are,
the tag included, as in the source.
-/

set_option autoImplicit false

namespace Sdd

/-- The two least significant bits of a pointer. -/
inductive Tag where
  | none
  | first
  | second
  | both
  deriving DecidableEq, Repr

/-- A pointer word: an address, or null, and a tag. -/
structure Ptr (A : Type) where
  addr : Option A
  tag : Tag
  deriving DecidableEq, Repr

namespace Ptr

variable {A : Type}

/-- The untagged null pointer. -/
def null : Ptr A := ⟨Option.none, .none⟩

/-- The address part is null. The tag plays no role. -/
def isNull (p : Ptr A) : Bool := p.addr.isNone

/-- The pointer with its tag replaced. -/
def withTag (p : Ptr A) (tag : Tag) : Ptr A := ⟨p.addr, tag⟩

/-- A null pointer points to nothing. -/
@[simp] theorem null_addr : (null : Ptr A).addr = Option.none := rfl

/-- A null pointer has no tag. -/
@[simp] theorem null_tag : (null : Ptr A).tag = Tag.none := rfl

/-- Another tag, and the same address. -/
@[simp] theorem withTag_addr (p : Ptr A) (tag : Tag) : (p.withTag tag).addr = p.addr := rfl

/-- The tag is the given one. -/
@[simp] theorem withTag_tag (p : Ptr A) (tag : Tag) : (p.withTag tag).tag = tag := rfl

end Ptr

end Sdd
