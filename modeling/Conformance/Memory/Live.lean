import Conformance.Memory.Source
import Conformance.Region.Map
/-! Memory of a running process. Every byte comes from a kernel primitive that validates the range
it is asked for; an optional region map keeps ranges from it that are not worth asking for. -/
namespace Conformance

/-- Memory read through the kernel, with the ranges that the kernel may be asked for. -/
structure LiveMemory where
  prefilter : Option RegionMap
deriving DecidableEq, Repr

namespace LiveMemory

/-- Memory that the kernel is asked for wherever a range is one. -/
def unfiltered : LiveMemory := ⟨none⟩

/-- Memory in which nothing is readable. -/
def unmapped : LiveMemory := ⟨some .empty⟩

/-- How many bytes the kernel is asked for at once when a range is tested. -/
def chunk : Nat := 256

/-- Whether a range may be asked for. -/
def admits (memory : LiveMemory) (address : Address) (length : Nat) : Bool :=
  match memory.prefilter with
  | some regions => regions.contains address length
  | none => (Address.rangeEnd? address length).isSome

/-- The bytes of a range, as a computation over the kernel's memory. Nothing is asked for the
empty range. -/
def read (memory : LiveMemory) (address : Address) (length : Nat) :
    Probe (Option (List UInt8)) :=
  if memory.admits address length then
    if length = 0 then pure (some []) else Probe.ask address length
  else pure none

/-- Asks for a range in chunks until one is refused or `chunks` were granted. -/
def askInChunks : (chunks position length : Nat) → Probe Bool
  | 0, _, _ => pure true
  | chunks + 1, position, length => do
      match ← Probe.fetch position (min length chunk) id with
      | some _ => askInChunks chunks (position + chunk) (length - chunk)
      | none => pure false

/-- Whether a range is readable as a whole, as a computation over the kernel's memory. -/
def isReadable (memory : LiveMemory) (address : Address) (length : Nat) : Probe Bool :=
  if memory.admits address length then
    askInChunks ((length + (chunk - 1)) / chunk) address.toNat length
  else pure false

/-- The memory as a source, given what the kernel answers. -/
def source (memory : LiveMemory) (kernel : Reader) : Source where
  read address length := (memory.read address length).run kernel
  isReadable address length := (memory.isReadable address length).run kernel

end LiveMemory

end Conformance
