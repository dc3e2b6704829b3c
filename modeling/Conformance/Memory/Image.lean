import Conformance.Memory.Source
/-! Owned memory snapshots made of disjoint segments, and dumps of one range. -/
namespace Conformance

/-- One contiguous run of bytes placed at a base address. -/
structure Segment where
  base : Address
  bytes : Buffer
deriving DecidableEq, Repr

/-- The position after the last byte of a segment. -/
def Segment.finish (segment : Segment) : Nat := segment.base.toNat + segment.bytes.size

/-- A snapshot of an address space. Segments are kept in ascending order of their bases. A range
is readable if one segment holds all of it; segments that touch are not joined. -/
structure Image where
  segments : List Segment
deriving DecidableEq, Repr

namespace Image

/-- The image that holds nothing. -/
def empty : Image := ⟨[]⟩

/-- The segments that start before an address. -/
def below (image : Image) (address : Address) : List Segment :=
  image.segments.takeWhile (·.base < address)

/-- The segments that start at an address or after it. -/
def above (image : Image) (address : Address) : List Segment :=
  image.segments.dropWhile (·.base < address)

/-- A neighbour that stands in the way of a segment from `base` to `finish`. The one that follows
is looked at first. -/
def obstacle? (image : Image) (base finish : Address) : Option Segment :=
  ((image.above base).head?.filter (·.base < finish)).or
    ((image.below base).getLast?.filter (base.toNat < ·.finish))

/-- Places `bytes` at `base`. -/
def addSegment (image : Image) (base : Address) (bytes : Buffer) : Except Error Image :=
  if bytes.isEmpty then .error .empty
  else
    match Address.rangeEnd? base bytes.size with
    | none => .error .outOfBounds
    | some finish =>
        match image.obstacle? base finish with
        | some other => .error (.malformed (.segmentOverlap base finish other.base))
        | none => .ok ⟨image.below base ++ ⟨base, bytes⟩ :: image.above base⟩

/-- The image of a single segment. -/
def ofSegment (base : Address) (bytes : Buffer) : Except Error Image :=
  empty.addSegment base bytes

/-- The segment that holds a range as a whole: the last one to start at its first address or
before, if the range ends inside it. -/
def holder? (image : Image) (address : Address) (length : Nat) : Option Segment := do
  let finish ← Address.rangeEnd? address length
  let segment ← (image.segments.takeWhile (·.base ≤ address)).getLast?
  if finish.toNat ≤ segment.finish then some segment else none

/-- The bytes of a range. -/
def read (image : Image) (address : Address) (length : Nat) : Option (List UInt8) := do
  let segment ← image.holder? address length
  segment.bytes.slice? (address.toNat - segment.base.toNat) length

/-- Whether a range is readable as a whole. -/
def isReadable (image : Image) (address : Address) (length : Nat) : Bool :=
  (image.holder? address length).isSome

/-- Replaces the bytes from `address` on, which have to lie in one segment. -/
def write (image : Image) (address : Address) (bytes : List UInt8) : Except Error Image :=
  match image.holder? address bytes.length with
  | none => .error .outOfBounds
  | some holder =>
      .ok ⟨image.segments.map fun segment =>
        if segment.base = holder.base then
          { segment with
            bytes := segment.bytes.overwrite (address.toNat - segment.base.toNat) bytes }
        else segment⟩

/-- The number of bytes in all segments. -/
def size (image : Image) : Nat := (image.segments.map (·.bytes.size)).foldr (· + ·) 0

/-- Whether the image has no segment. -/
def isEmpty (image : Image) : Bool := image.segments.isEmpty

/-- The image as a source of memory. -/
def source (image : Image) : Source := ⟨image.read, image.isReadable⟩

end Image

/-- The bytes of one range of an address space, as they were found in a dump file. -/
structure Dump where
  base : Address
  bytes : Buffer
deriving DecidableEq, Repr

namespace Dump

/-- Places the content of a dump file at `base`. A file that cannot be opened has no content. -/
def ofFile (content : Option Buffer) (base : Address) : Except Error Dump :=
  match content with
  | none => .error .file
  | some bytes =>
      if bytes.isEmpty then .error .empty
      else if (Address.rangeEnd? base bytes.size).isNone then .error .outOfBounds
      else .ok ⟨base, bytes⟩

/-- The bytes of a range. -/
def read (dump : Dump) (address : Address) (length : Nat) : Option (List UInt8) :=
  if dump.base ≤ address then dump.bytes.slice? (address.toNat - dump.base.toNat) length
  else none

/-- Whether a range is readable as a whole. -/
def isReadable (dump : Dump) (address : Address) (length : Nat) : Bool :=
  dump.base ≤ address &&
    decide (address.toNat - dump.base.toNat + length ≤ dump.bytes.size)

/-- The dump as a source of memory. -/
def source (dump : Dump) : Source := ⟨dump.read, dump.isReadable⟩

end Dump

end Conformance
