import Conformance.Builder.Basic
import Conformance.Metadata.Kind
/-! The structures that a builder lays out: protocols, types, objects, protocol compositions, and
the lists and path blocks that belong to them. -/
namespace Conformance.Build

/-- Stores `value` at the end of the path that starts with `hop` at `base`. Blocks on the way that
do not exist yet are laid out. -/
def storeAlong (base : Address) (value : Address) (hop : Hop) : List Hop → Build Unit
  | [] => do writePointer (← place base hop.offset) value
  | next :: rest => do
      let field ← place base hop.offset
      let builder ← get
      match (builder.layout.readPointer field.toNat).run builder.read with
      | none => throw .outOfBounds
      | some existing =>
          if existing &&& hop.mask ≠ 0 then storeAlong (existing &&& hop.mask) value next rest
          else
            let block ← allocate (next.offset + builder.word)
            writePointer field block
            storeAlong block value next rest

/-- Stores `value` as the field that a path describes. -/
def store (base : Address) (path : Path) (value : Address) : Build Unit :=
  storeAlong base value path.first path.later

/-- Writes the records of a list from `entry` on. -/
def writeRecords (entry : Address) : List Address → Build Unit
  | [] => pure ()
  | interface :: rest => do
      let builder ← get
      let record := builder.layout.record
      writePointer (← place entry record.interfaceOffset) interface
      match record.nested with
      | .inRecord offset =>
          writePointer (← place entry offset) ((builder.nestedLists.lookup interface).getD 0)
      | _ => pure ()
      writeRecords (← place entry record.stride) rest

/-- Lays out the list of some protocols. The list of none is the null pointer. -/
def list (interfaces : List Address) : Build Address := do
  if interfaces.isEmpty then pure 0
  else
    let layout := (← get).layout
    let size := interfaces.length * layout.record.stride.toNat + layout.list.entriesOffset.toNat
    match Address.ofPosition? size with
    | none => throw .outOfBounds
    | some size =>
        let list ← allocate size
        writeField (← place list layout.list.countOffset) layout.list.countWidth.bytes
          interfaces.length.toUInt64
        writeRecords (← place list layout.list.entriesOffset) interfaces
        pure list

/-- Lays out a protocol that incorporates some others. -/
def protocol (incorporated : List Address) : Build Address := do
  let builder ← get
  match builder.layout.record.nested with
  | .inInterface offset =>
      let protocol ← allocate (offset + builder.word)
      let list ← list incorporated
      writePointer (← place protocol offset) list
      pure protocol
  | .inRecord _ =>
      let protocol ← allocate builder.word
      let list ← list incorporated
      modify fun builder =>
        { builder with nestedLists := (protocol, list) :: builder.nestedLists }
      pure protocol
  | .absent =>
      let protocol ← allocate builder.word
      let _ ← list incorporated
      pure protocol

/-- Replaces the superclass of a type. -/
def setSuperclass (type superclass : Address) : Build Unit := do
  store type (← get).layout.superclass superclass

/-- Lays out a type that declares some protocols. -/
def type (superclass : Option Address) (declared : List Address) : Build Address := do
  let builder ← get
  let layout := builder.layout
  let size := max layout.superclass.first.offset layout.conformances.first.offset + builder.word
  let type ← allocate size
  let list ← list declared
  store type layout.conformances list
  match superclass with
  | some superclass => setSuperclass type superclass
  | none => pure ()
  pure type

/-- Lays out an object of a type. -/
def object (type : Address) : Build Address := do
  let builder ← get
  let object ← allocate (builder.layout.objectType.first.offset + builder.word)
  store object builder.layout.objectType type
  pure object

/-- Writes pointers one after another. -/
def writePointers (position : Address) : List Address → Build Unit
  | [] => pure ()
  | pointer :: rest => do
      writePointer position pointer
      writePointers (← place position (← get).word) rest

/-- Lays out the composition of some protocols, with a superclass constraint if one is given. -/
def composition (protocols : List Address) (superclass : Option Address) : Build Address := do
  let builder ← get
  match builder.layout.composition with
  | none => throw .notSupported
  | some encoding =>
      if UInt32.size ≤ protocols.length then throw .outOfBounds
      let trailing := superclass.toList ++ protocols
      let composition ←
        allocate (encoding.trailingOffset + trailing.length.toUInt64 * builder.word)
      writePointer (← place composition encoding.kindOffset) Kind.existential.word
      let flags := if superclass.isSome then CompositionFlags.superclassBit else 0
      writeField (← place composition encoding.flagsOffset) 4 flags.toUInt64
      writeField (← place composition encoding.countOffset) 4 protocols.length.toUInt64
      writePointers (← place composition encoding.trailingOffset) trailing
      pure composition

end Conformance.Build

namespace Conformance

/-- The conformance list of a type, if it has one. -/
def Builder.conformanceList? (builder : Builder) (type : Address) : Option Address :=
  match (builder.layout.follow type builder.layout.conformances).run builder.read with
  | some list => if list = 0 then none else some list
  | none => none

end Conformance
