import Conformance.Memory.Buffer
import Conformance.Memory.Probe
/-! Sources of memory and the typed reads made through them. -/
namespace Conformance

/-- An inspected memory: the validated read primitive, and the test whether a range is readable
as a whole. -/
structure Source where
  read : Reader
  isReadable : Address → Nat → Bool

namespace Source

/-- The result of a computation over this memory. -/
def run {α : Type} (source : Source) (probe : Probe α) : α := probe.run source.read

/-- A memory that answers every address, by repeating `pattern` over the address space. Longer
reads go round the end of the space. -/
def periodic (pattern : Buffer) : Source where
  read address length :=
    some <| (List.range length).map fun i =>
      pattern.getD ((address.toNat + i) % UInt64.size % pattern.size) 0
  isReadable _ _ := true

end Source

/-- Reads a number of a fixed type at a position. -/
def readScalar (scalar : Scalar) (order : ByteOrder) (position : Nat) : Probe (Option Int) :=
  Probe.fetch position scalar.width (scalar.decode order)

/-- Reads a field of four or eight bytes at a position. No other width is readable. -/
def readWord (width : Nat) (order : ByteOrder) (position : Nat) : Probe (Option UInt64) :=
  if width = 4 ∨ width = 8 then
    Probe.fetch position width fun bytes => (order.decode bytes).toUInt64
  else pure none

end Conformance
