import Conformance.Metadata.Path
import Conformance.Memory.ByteOrder
/-! The structural description of a runtime's metadata: every offset, width and mask that is
needed to find an object's type, a type's superclass and conformance list, the records of a list,
and the protocols that a protocol incorporates. -/
namespace Conformance

/-- The width of a pointer or count field. -/
inductive Width where
  | four
  | eight
deriving DecidableEq, Repr

namespace Width

/-- The number of bytes of a field. -/
def bytes : Width → Nat
  | .four => 4
  | .eight => 8

/-- The number of bytes of a field, as a word. -/
def word : Width → UInt64
  | .four => 4
  | .eight => 8

/-- The largest value that a field can hold. -/
def maxValue : Width → UInt64
  | .four => 0xFFFFFFFF
  | .eight => 0xFFFFFFFFFFFFFFFF

@[simp] theorem word_toNat (width : Width) : width.word.toNat = width.bytes := by
  cases width <;> rfl

theorem bytes_pos (width : Width) : 0 < width.bytes := by
  cases width <;> decide

theorem bytes_le (width : Width) : width.bytes ≤ 8 := by
  cases width <;> decide

end Width

/-- Where the list of protocols that a protocol incorporates is found. -/
inductive NestedList where
  /-- Protocols never incorporate others. -/
  | absent
  /-- A list pointer lies at this offset in each conformance record. -/
  | inRecord (offset : UInt64)
  /-- A list pointer lies at this offset in the protocol that the record names. -/
  | inInterface (offset : UInt64)
deriving DecidableEq, Repr

/-- A conformance list: a count, then records. -/
structure ListLayout where
  countOffset : UInt64
  countWidth : Width
  /-- The offset of the first record. -/
  entriesOffset : UInt64
deriving DecidableEq, Repr

/-- A conformance record. -/
structure RecordLayout where
  /-- The distance between consecutive records. -/
  stride : UInt64
  interfaceOffset : UInt64
  nested : NestedList
deriving DecidableEq, Repr

/-- A protocol composition: a header, then trailing words. -/
structure CompositionLayout where
  /-- The offset of the kind, which fills a pointer-sized word. -/
  kindOffset : UInt64
  /-- The offset of the 32-bit flags. -/
  flagsOffset : UInt64
  /-- The offset of the 32-bit number of protocols. -/
  countOffset : UInt64
  /-- The offset of the superclass constraint, if there is one, else of the first protocol
  reference. -/
  trailingOffset : UInt64
  /-- The bits of a protocol reference that belong to the pointer. -/
  protocolMask : UInt64
deriving DecidableEq, Repr

/-- The complete description of a runtime's metadata. -/
structure Layout where
  pointerWidth : Width
  order : ByteOrder
  /-- The bits kept of every pointer that is loaded. -/
  pointerMask : UInt64
  /-- From an object to its type. -/
  objectType : Path
  /-- From a type to its superclass. -/
  superclass : Path
  /-- From a type to its conformance list. -/
  conformances : Path
  list : ListLayout
  record : RecordLayout
  /-- The encoding of protocol compositions, if the runtime has them. -/
  composition : Option CompositionLayout
deriving DecidableEq, Repr

namespace Layout

/-- The size of a pointer, as a word. -/
def word (layout : Layout) : UInt64 := layout.pointerWidth.word

/-- The first mask that removes every bit of an address. -/
def maskFault? (layout : Layout) : Option Malformation :=
  if layout.pointerMask = 0 then some .emptyPointerMask
  else
    let paths := [(PathRole.objectType, layout.objectType), (.superclass, layout.superclass),
      (.conformances, layout.conformances)]
    (paths.find? fun (_, path) => path.hops.any (·.mask == 0)).map fun (role, _) =>
      .emptyHopMask role

/-- The first fault of the conformance records. Field ends are sums of words. -/
def recordFault? (layout : Layout) : Option Malformation :=
  let record := layout.record
  let word := layout.word
  if record.stride = 0 then some .zeroStride
  else if record.stride < record.interfaceOffset + word then
    some (.interfaceOutsideRecord record.interfaceOffset record.stride)
  else
    match record.nested with
    | .inRecord offset =>
        if record.stride < offset + word then some (.nestedOutsideRecord offset record.stride)
        else if max offset record.interfaceOffset - min offset record.interfaceOffset < word then
          some (.nestedOverInterface offset)
        else none
    | _ => none

/-- The fault of a list whose count reaches into its records. -/
def listFault? (layout : Layout) : Option Malformation :=
  let list := layout.list
  if list.entriesOffset < list.countOffset + list.countWidth.word then
    some (.countOverRecords list.countOffset list.entriesOffset)
  else none

/-- The first fault of the compositions, if there are any. -/
def compositionFault? (layout : Layout) : Option Malformation := do
  let composition ← layout.composition
  if composition.protocolMask = 0 then some .emptyProtocolMask
  else if composition.trailingOffset < composition.kindOffset + layout.word
      ∨ composition.trailingOffset < composition.flagsOffset + 4
      ∨ composition.trailingOffset < composition.countOffset + 4 then
    some (.headerOverTrailing composition.trailingOffset)
  else none

/-- The first inconsistency of a layout. -/
def fault? (layout : Layout) : Option Malformation :=
  layout.maskFault?.or <| layout.recordFault?.or <| layout.listFault?.or layout.compositionFault?

/-- Refuses a layout that is not consistent. -/
def validate (layout : Layout) : Except Error Unit :=
  match layout.fault? with
  | some fault => .error (.malformed fault)
  | none => .ok ()

end Layout

end Conformance
