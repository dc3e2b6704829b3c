import Conformance.Memory.Image
import Conformance.Metadata.Access
/-! Laying out structures in memory. A builder appends zeroed blocks to one contiguous range and
writes fields into them. A step that fails keeps what was laid out before it failed. -/
namespace Conformance

/-- The bytes laid out so far, and what is needed to go on. -/
structure Builder where
  /-- The layout that structures are written in. -/
  layout : Layout
  /-- The address of the first byte. -/
  base : Address
  bytes : Buffer
  /-- The lists that protocols incorporate, for layouts that keep them in records. Later entries
  come first. -/
  nestedLists : List (Address × Address)
deriving DecidableEq, Repr

/-- A step of laying out structures. -/
abbrev Build := EStateM Error Builder

namespace Builder

/-- The address of the first block, unless another is asked for. -/
def defaultBase : Address := 0x10000000

/-- The alignment of blocks. It keeps the low bits of their addresses free for flags. -/
def blockAlign : UInt64 := 16

/-- The size of the smallest block. -/
def minBlock : UInt64 := 64

/-- A builder that has laid out nothing. -/
def start (layout : Layout) (base : Address) : Builder := ⟨layout, base, #[], []⟩

/-- The least multiple of the alignment that is not below a size, as a word. -/
def alignUp (size : UInt64) : UInt64 := size + (blockAlign - size % blockAlign) % blockAlign

/-- The size of a pointer. -/
def word (builder : Builder) : UInt64 := builder.layout.word

/-- The offset of an address, if the builder has laid out all of `length` bytes from there. -/
def offsetOf? (builder : Builder) (address : Address) (length : Nat) : Option Nat :=
  if builder.base ≤ address
      ∧ address.toNat - builder.base.toNat + length ≤ builder.bytes.size then
    some (address.toNat - builder.base.toNat)
  else none

/-- The bytes of a range. -/
def read (builder : Builder) (address : Address) (length : Nat) : Option (List UInt8) := do
  let _ ← Address.rangeEnd? address length
  builder.bytes.slice? (← builder.offsetOf? address length) length

/-- Whether a range is readable as a whole. -/
def isReadable (builder : Builder) (address : Address) (length : Nat) : Bool :=
  (Address.rangeEnd? address length).isSome && (builder.offsetOf? address length).isSome

/-- What was laid out so far as a source of memory. -/
def source (builder : Builder) : Source := ⟨builder.read, builder.isReadable⟩

/-- Freezes what was laid out into an image of one segment. -/
def toImage (builder : Builder) : Except Error Image := Image.ofSegment builder.base builder.bytes

end Builder

namespace Build

/-- The address at an offset from a base. -/
def place (base : Address) (offset : UInt64) : Build Address :=
  match Address.ofPosition? (Address.plus base offset) with
  | some address => pure address
  | none => throw .outOfBounds

/-- Writes bytes into what was laid out already. -/
def write (address : Address) (bytes : List UInt8) : Build Unit := do
  match (← get).offsetOf? address bytes.length with
  | some offset =>
      modify fun builder => { builder with bytes := builder.bytes.overwrite offset bytes }
  | none => throw .outOfBounds

/-- Writes a number in a field of a given width. -/
def writeField (address : Address) (width : Nat) (value : UInt64) : Build Unit := do
  match (← get).layout.order.wordBytes width value with
  | .ok bytes => write address bytes
  | .error error => throw error

/-- Writes a pointer-sized word. -/
def writePointer (address value : Address) : Build Unit := do
  writeField address (← get).layout.pointerWidth.bytes value

/-- Appends a zeroed block of at least `size` bytes. Its last byte has to have an address that a
pointer can hold. -/
def allocate (size : UInt64) : Build Address := do
  let builder ← get
  let size := Builder.alignUp (max size Builder.minBlock)
  let start := Builder.alignUp builder.bytes.size.toUInt64
  let finish ← place start size
  let address ← place builder.base start
  let last ← place builder.base (finish - 1)
  if builder.layout.pointerWidth.maxValue < last then throw .outOfBounds
  modify fun builder =>
    { builder with
      bytes := builder.bytes ++ Array.replicate (finish.toNat - builder.bytes.size) 0 }
  pure address

end Build

end Conformance
