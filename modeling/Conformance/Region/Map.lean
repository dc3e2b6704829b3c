import Conformance.Error
/-! Region maps: the readable ranges of an address space, sorted, joined where they touch, and
looked up by range. -/
namespace Conformance

/-- What happens to a region that overlaps an earlier one. -/
inductive OverlapPolicy where
  /-- The map is refused. -/
  | refuse
  /-- The later region is left out. -/
  | keepEarlier
deriving DecidableEq, Repr

/-- The readable ranges of an address space in ascending order, none touching the next. -/
structure RegionMap where
  regions : List Region
deriving DecidableEq, Repr

namespace RegionMap

/-- The map without any range. -/
def empty : RegionMap := ⟨[]⟩

/-- Joins sorted regions to the range `run` that was reached before them. Joined ranges keep the
permissions that all their parts grant. -/
def coalesce (policy : OverlapPolicy) (run : Region) : List Region → Except Error (List Region)
  | [] => .ok [run]
  | region :: rest =>
      if region.start < run.finish then
        match policy with
        | .refuse => .error (.malformed (.regionOverlap region run))
        | .keepEarlier => coalesce policy run rest
      else if region.start = run.finish then
        coalesce policy
          ⟨run.start, region.finish, run.protection.inter region.protection⟩ rest
      else do
        let later ← coalesce policy region rest
        pure (run :: later)

/-- Builds the map of a list of regions. A region that finishes before it starts is an error,
readable or not; regions that are empty or not readable are left out. -/
def build (policy : OverlapPolicy) (regions : List Region) : Except Error RegionMap :=
  match regions.find? (fun region => region.finish < region.start) with
  | some region => .error (.malformed (.regionReversed region))
  | none =>
      let readable := regions.filter fun region => !region.isEmpty && region.protection.read
      match readable.mergeSort (fun a b => a.start ≤ b.start) with
      | [] => .ok empty
      | first :: rest => (coalesce policy first rest).map RegionMap.mk

/-- The map of caller-supplied regions, which must not overlap. -/
def ofRegions (regions : List Region) : Except Error RegionMap := build .refuse regions

/-- Whether a range lies in one region of the map: in the last one to start at its first address
or before. -/
def contains (map : RegionMap) (address : Address) (length : Nat) : Bool :=
  match Address.rangeEnd? address length,
      (map.regions.takeWhile (·.start ≤ address)).getLast? with
  | some finish, some region => finish ≤ region.finish
  | _, _ => false

end RegionMap

end Conformance
