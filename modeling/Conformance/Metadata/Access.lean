import Conformance.Memory.Source
import Conformance.Metadata.Layout
/-! Reads that a layout describes. A result is `none` where a read is refused, and null where a
pointer is. -/
namespace Conformance.Layout

/-- The number that the bytes of a field hold. -/
def decodeWord (layout : Layout) (bytes : List UInt8) : UInt64 :=
  (layout.order.decode bytes).toUInt64

/-- The pointer-sized word at a position, with all its bits. -/
def readWord (layout : Layout) (position : Nat) : Probe (Option UInt64) :=
  Probe.fetch position layout.pointerWidth.bytes layout.decodeWord

/-- The pointer at a position, without the bits that no pointer has. -/
def readPointer (layout : Layout) (position : Nat) : Probe (Option Address) :=
  Probe.fetch position layout.pointerWidth.bytes fun bytes =>
    layout.decodeWord bytes &&& layout.pointerMask

/-- The record count at a position. -/
def readCount (layout : Layout) (position : Nat) : Probe (Option UInt64) :=
  Probe.fetch position layout.list.countWidth.bytes layout.decodeWord

/-- The 32-bit field at a position. -/
def readHalf (layout : Layout) (position : Nat) : Probe (Option UInt32) :=
  Probe.fetch position 4 fun bytes => (layout.order.decode bytes).toUInt32

/-- The pointer that one hop leads to. A tagged word leads through its wrapper. -/
def readHop (layout : Layout) (base : Address) (hop : Hop) : Probe (Option Address) := do
  match ← layout.readPointer (Address.plus base hop.offset) with
  | none => pure none
  | some word =>
      if word &&& hop.tag = 0 then pure (some (word &&& hop.mask))
      else layout.readPointer (word &&& hop.mask).toNat

/-- The pointer at the end of a list of hops. It is null as soon as one hop is. -/
def followHops (layout : Layout) (base : Address) : List Hop → Probe (Option Address)
  | [] => pure (some base)
  | hop :: rest => do
      match ← layout.readHop base hop with
      | none => pure none
      | some next => if next = 0 then pure (some 0) else layout.followHops next rest

/-- The value of the pointer field that a path describes. -/
def follow (layout : Layout) (base : Address) (path : Path) : Probe (Option Address) :=
  layout.followHops base path.hops

end Conformance.Layout
