import Conformance.Error
/-! Pointer fields that are reached through one or more indirections. -/
namespace Conformance

/-- One indirection: where the pointer is, and how its word is read. -/
structure Hop where
  /-- The distance of the pointer from the base the hop starts at. -/
  offset : UInt64
  /-- The bits of the word that belong to the pointer. -/
  mask : UInt64
  /-- Bits that, when one of them is set, mark a pointer to a wrapper whose first word is the
  pointer meant. -/
  tag : UInt64
deriving DecidableEq, Repr

namespace Hop

/-- A pointer that fills its word. -/
def direct (offset : UInt64) : Hop := ⟨offset, ~~~0, 0⟩

/-- A pointer that shares its word with flags outside `mask`. -/
def masked (offset mask : UInt64) : Hop := ⟨offset, mask, 0⟩

/-- A pointer that goes through a wrapper when `tag` is set. -/
def tagged (offset tag : UInt64) : Hop := ⟨offset, ~~~tag, tag⟩

end Hop

/-- The most indirections a path can have. -/
def Path.maxHops : Nat := 4

/-- A pointer field reached through one to four indirections. -/
structure Path where
  first : Hop
  later : List Hop
  length_le : later.length < Path.maxHops
deriving DecidableEq, Repr

namespace Path

/-- The path of one hop. -/
def single (hop : Hop) : Path := ⟨hop, [], by decide⟩

/-- The path of one pointer that fills its word. -/
def direct (offset : UInt64) : Path := single (.direct offset)

/-- The indirections in the order in which they are followed. -/
def hops (path : Path) : List Hop := path.first :: path.later

/-- The path along a list of hops, if their number allows one. -/
def ofHops (hops : List Hop) : Except Error Path :=
  match hops with
  | first :: later =>
      if short : later.length < maxHops then .ok ⟨first, later, short⟩
      else .error (.malformed (.hopCount maxHops hops.length))
  | [] => .error (.malformed (.hopCount maxHops 0))

end Path

end Conformance
