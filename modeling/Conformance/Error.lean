import Conformance.Region.Basic
/-! What can go wrong while layouts, regions and images are set up. Queries never fail; they
report anomalies instead. Each error is a cause with the values it names, and the wording is in
`Malformation.message` and `Error.message?` alone. -/
namespace Conformance

/-- The three pointer fields of a layout that are reached along a path. -/
inductive PathRole where
  | objectType
  | superclass
  | conformances
deriving DecidableEq, Repr

/-- A path's role as it is named in messages. -/
def PathRole.text : PathRole → String
  | .objectType => "object type"
  | .superclass => "superclass"
  | .conformances => "conformances"

/-- How a description of structures, regions or segments is inconsistent. -/
inductive Malformation where
  /-- A path has no hop, or more than it may have. -/
  | hopCount (limit count : Nat)
  | emptyPointerMask
  | emptyHopMask (role : PathRole)
  | zeroStride
  | interfaceOutsideRecord (offset stride : UInt64)
  | nestedOutsideRecord (offset stride : UInt64)
  | nestedOverInterface (offset : UInt64)
  | countOverRecords (offset entries : UInt64)
  | emptyProtocolMask
  | headerOverTrailing (trailing : UInt64)
  | fieldWidth (width : Nat)
  | segmentOverlap (start finish other : Address)
  | regionReversed (region : Region)
  | regionOverlap (region earlier : Region)
  /-- A line of a maps listing has fewer than two fields. -/
  | mapsLine (line : String)
  | mapsRange (range : String)
  | mapsPermissions (permissions : String)
deriving DecidableEq, Repr

/-- The wording of each malformation. -/
def Malformation.message : Malformation → String
  | .hopCount limit count =>
      "A field path needs between 1 and " ++ toString limit ++ " hops, got " ++ toString count
  | .emptyPointerMask => "The pointer mask clears every bit"
  | .emptyHopMask role => "The " ++ role.text ++ " path masks every bit"
  | .zeroStride => "Conformance records need a non-zero stride"
  | .interfaceOutsideRecord offset stride =>
      "Interface pointer at " ++ toString offset.toNat ++ " does not fit a record of "
        ++ toString stride.toNat ++ " bytes"
  | .nestedOutsideRecord offset stride =>
      "Nested list pointer at " ++ toString offset.toNat ++ " does not fit a record of "
        ++ toString stride.toNat ++ " bytes"
  | .nestedOverInterface offset =>
      "Nested list pointer at " ++ toString offset.toNat ++ " overlaps the interface pointer"
  | .countOverRecords offset entries =>
      "List count at " ++ toString offset.toNat ++ " overlaps the records at "
        ++ toString entries.toNat
  | .emptyProtocolMask => "The protocol mask clears every bit"
  | .headerOverTrailing trailing =>
      "Composition header overlaps the trailing words at " ++ toString trailing.toNat
  | .fieldWidth width => "Unsupported field width - " ++ toString width
  | .segmentOverlap start finish other =>
      "Segment 0x" ++ Text.upperHex start.toNat ++ "..0x" ++ Text.upperHex finish.toNat
        ++ " overlaps segment at 0x" ++ Text.upperHex other.toNat
  | .regionReversed region => "Region " ++ region.text ++ " ends before it starts"
  | .regionOverlap region earlier =>
      "Region " ++ region.text ++ " overlaps region " ++ earlier.text
  | .mapsLine line => "Invalid maps line - " ++ line
  | .mapsRange range => "Invalid address range - " ++ range
  | .mapsPermissions permissions => "Invalid permissions - " ++ permissions

/-- Why a set-up operation failed. -/
inductive Error where
  | malformed (cause : Malformation)
  /-- A range passes the end of what it has to lie in. -/
  | outOfBounds
  /-- The layout has no encoding for what was asked. -/
  | notSupported
  | unknownRuntime (name : String)
  /-- A text is not one of the names it has to be. -/
  | unmatchedName
  /-- No bytes were given. -/
  | empty
  /-- A file could not be opened. -/
  | file
deriving DecidableEq, Repr

/-- The wording of each error. A file that cannot be opened is described by the operating
system, not here. -/
def Error.message? : Error → Option String
  | .malformed cause => some cause.message
  | .outOfBounds => some "Out of Bound read would have occurred!"
  | .notSupported => some "The host runtime is not supported"
  | .unknownRuntime name => some ("Unknown host runtime - " ++ name)
  | .unmatchedName => some "Matching variant not found"
  | .empty => some "Provided input was empty"
  | .file => none

end Conformance
