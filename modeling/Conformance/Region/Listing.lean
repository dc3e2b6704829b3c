import Conformance.Region.Map
import Conformance.Text.Blank
/-! The text listing of a process's mappings. Each line is
`start-end permissions offset device inode [path]`, with hexadecimal addresses. -/
namespace Conformance.RegionMap

open Text

/-- Mappings that are listed as readable but fault or act on a device when they are read. -/
def isHazardous (path : List Char) : Bool :=
  "/dev/".toList.isPrefixOf path || "[vvar".toList.isPrefixOf path || path == "[vsyscall]".toList

/-- Reads a permission field of four bytes, such as `r-xp`. A byte other than the expected letter
means that the permission is not granted. -/
def parseProtection (field : List Char) : Except Error Protection :=
  match field.flatMap String.utf8EncodeChar with
  | [r, w, x, s] =>
      .ok ⟨r == 'r'.toUInt8, w == 'w'.toUInt8, x == 'x'.toUInt8, s == 's'.toUInt8⟩
  | _ => .error (.malformed (.mapsPermissions (String.ofList field)))

/-- Reads a range `start-end` of hexadecimal addresses. -/
def parseRange? (field : List Char) : Option (Address × Address) := do
  let (start, finish) ← cutAt? '-' field
  let start ← parseWord? 16 start
  let finish ← parseWord? 16 finish
  pure (start, finish)

/-- Reads one line that is not blank. A hazardous mapping gives no region, whatever its
permission field holds. -/
def parseLine (line : List Char) : Except Error (Option Region) :=
  match words line with
  | range :: permissions :: others =>
      match parseRange? range with
      | none => .error (.malformed (.mapsRange (String.ofList range)))
      | some (start, finish) =>
          if isHazardous (others.getD 3 []) then .ok none
          else (parseProtection permissions).map fun protection =>
            some ⟨start, finish, protection⟩
  | _ => .error (.malformed (.mapsLine (String.ofList line)))

/-- The regions of a listing, hazardous mappings left out. -/
def parseLines : List (List Char) → Except Error (List Region)
  | [] => .ok []
  | line :: rest => do
      if line.all isBlank then parseLines rest
      else
        let region ← parseLine line
        let later ← parseLines rest
        pure (region.toList ++ later)

/-- The map of a listing. The listing is not taken at one instant, so a mapping that moves
meanwhile can overlap one listed before; such a region is left out. -/
def ofListing (text : String) : Except Error RegionMap := do
  let regions ← parseLines (lines text.toList)
  build .keepEarlier regions

end Conformance.RegionMap
