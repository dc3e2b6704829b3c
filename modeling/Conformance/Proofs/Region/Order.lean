import Conformance.Proofs.Region.Canonical
/-! Region maps do not depend on the order in which regions are given. Sorted regions without a byte
in common stand one after another, so a pass that compares each region with the last run alone sees
every overlap. Such regions also have different starts, which leaves the sort no ties to break. -/
namespace Conformance

namespace Region

/-- Two regions take part in a map and have a byte in common. -/
def Overlaps (first second : Region) : Prop :=
  first.Readable ∧ second.Readable ∧ ∃ position, first.Covers position ∧ second.Covers position

/-- The region ends before another one starts, or right there. -/
def EndsBefore (first second : Region) : Prop := first.finish ≤ second.start

theorem Overlaps.symm {first second : Region} (h : first.Overlaps second) :
    second.Overlaps first := by
  obtain ⟨hFirst, hSecond, position, hCovers⟩ := h
  exact ⟨hSecond, hFirst, position, hCovers.symm⟩

/-- Of two regions in the order of their starts, the second one starts inside the first if they
overlap. -/
theorem endsBefore_iff_not_overlaps {first second : Region} (hFirst : first.Readable)
    (hSecond : second.Readable) (hStart : first.start ≤ second.start) :
    first.EndsBefore second ↔ ¬ first.Overlaps second := by
  unfold EndsBefore
  rw [UInt64.le_iff_toNat_le]
  constructor
  · rintro hEnd ⟨-, -, position, ⟨-, hBefore⟩, hAfter, -⟩
    omega
  · intro hApart
    by_contra hEnd
    have hInside : first.Covers second.start.toNat :=
      ⟨UInt64.le_iff_toNat_le.mp hStart, Nat.lt_of_not_le hEnd⟩
    exact hApart ⟨hFirst, hSecond, _, hInside, hSecond.covers_start⟩

/-- No two regions that hold something end before each other. -/
theorem Readable.not_endsBefore_both {first second : Region} (hFirst : first.Readable)
    (hSecond : second.Readable) (hEnds : first.EndsBefore second) :
    ¬ second.EndsBefore first := by
  intro hBack
  have hRound := UInt64.lt_of_lt_of_le (UInt64.lt_of_lt_of_le hFirst.2 hEnds)
    (UInt64.le_trans (UInt64.le_of_lt hSecond.2) hBack)
  exact UInt64.lt_irrefl _ hRound

end Region

namespace RegionMap

open Region

/-- The regions that take part in a map, sorted by their starts. -/
def byStart (regions : List Region) : List Region :=
  (regions.filter fun region => !region.isEmpty && region.protection.read).mergeSort
    fun a b => a.start ≤ b.start

/-- The map of sorted regions. -/
def ofSorted : List Region → Except Error RegionMap
  | [] => .ok empty
  | first :: rest => (coalesce .refuse first rest).map RegionMap.mk

/-- No region finishes before it starts. -/
def Forward (regions : List Region) : Prop :=
  ∀ region ∈ regions, ¬ region.finish < region.start

variable {regions other : List Region}

theorem ofRegions_of_forward (hForward : Forward regions) :
    ofRegions regions = ofSorted (byStart regions) := by
  have hFind : regions.find? (fun region => region.finish < region.start) = none :=
    List.find?_eq_none.mpr fun region hRegion => by simpa using hForward region hRegion
  unfold ofRegions build
  rw [hFind]
  rfl

/-- A region that finishes before it starts is refused, whatever happens to overlaps. -/
theorem exists_error_of_not_forward (policy : OverlapPolicy) (hReversed : ¬ Forward regions) :
    ∃ error, build policy regions = .error error := by
  cases hFind : regions.find? (fun region => region.finish < region.start) with
  | some region =>
      unfold build
      rw [hFind]
      exact ⟨_, rfl⟩
  | none =>
      refine absurd (fun region hRegion => ?_) hReversed
      simpa using List.find?_eq_none.mp hFind region hRegion

theorem perm_byStart (hForward : Forward regions) :
    (byStart regions).Perm (regions.filter fun region => region.Readable) := by
  refine (List.mergeSort_perm _ _).trans (.of_eq (List.filter_congr fun region hRegion => ?_))
  rw [Bool.eq_iff_iff, decide_eq_true_iff]
  exact takesPart_iff (hForward region hRegion)

theorem readable_of_mem_byStart (hForward : Forward regions) :
    ∀ region ∈ byStart regions, region.Readable := by
  intro region hRegion
  have hMem := (perm_byStart hForward).mem_iff.mp hRegion
  exact of_decide_eq_true (List.mem_filter.mp hMem).2

theorem sorted_byStart (regions : List Region) :
    (byStart regions).Pairwise fun first second => first.start ≤ second.start := by
  have hSorted : (byStart regions).Pairwise fun first second =>
      decide (first.start ≤ second.start) = true := by
    refine List.pairwise_mergeSort (fun a b c hFirst hSecond => ?_) (fun a b => ?_) _
    · have hThrough := UInt64.le_trans (of_decide_eq_true hFirst) (of_decide_eq_true hSecond)
      exact decide_eq_true hThrough
    · simpa using UInt64.le_total a.start b.start
  exact hSorted.imp of_decide_eq_true

/-- The regions can be joined if each of them ends before the later ones start. -/
theorem exists_coalesce_iff {run : Region} {rest : List Region}
    (hRest : ∀ region ∈ rest, region.Readable) :
    (∃ stored, coalesce .refuse run rest = .ok stored) ↔
      (run :: rest).Pairwise EndsBefore := by
  induction rest generalizing run with
  | nil => simp [coalesce]
  | cons region rest ih =>
      obtain ⟨hRegion, hLater⟩ := List.forall_mem_cons.mp hRest
      have hNext : (run :: region :: rest).Pairwise EndsBefore ↔
          run.EndsBefore region ∧ (region :: rest).Pairwise EndsBefore := by
        rw [List.pairwise_cons, List.forall_mem_cons, and_assoc]
        refine and_congr_right fun hEnds => and_iff_right_of_imp fun hRest later hLater => ?_
        have hBeyond := (List.pairwise_cons.mp hRest).1 later hLater
        exact UInt64.le_trans (UInt64.le_trans hEnds (UInt64.le_of_lt hRegion.2)) hBeyond
      rw [hNext]
      unfold coalesce
      split_ifs with hOverlap hTouch
      · have hNot : ¬ run.EndsBefore region := UInt64.not_le.mpr hOverlap
        simp [hNot]
      · -- The joined run ends where the region does.
        have hJoined := @ih ⟨run.start, region.finish,
          run.protection.inter region.protection⟩ hLater
        have hEnds : run.EndsBefore region := UInt64.le_of_eq hTouch.symm
        rw [hJoined, and_iff_right hEnds]
        simp only [List.pairwise_cons, EndsBefore]
      · have hEnds : run.EndsBefore region := UInt64.not_lt.mp hOverlap
        rw [← ih hLater, and_iff_right hEnds]
        cases coalesce .refuse region rest with
        | error error =>
            have hError {stored : List Region} : Except.error error ≠ Except.ok stored := by simp
            exact iff_of_false (not_exists.mpr fun _ => hError) (not_exists.mpr fun _ => hError)
        | ok later => exact ⟨fun _ => ⟨later, rfl⟩, fun _ => ⟨run :: later, rfl⟩⟩

theorem exists_ofSorted_iff {sorted : List Region}
    (hReadable : ∀ region ∈ sorted, region.Readable) :
    (∃ map, ofSorted sorted = .ok map) ↔ sorted.Pairwise EndsBefore := by
  cases sorted with
  | nil => simp [ofSorted]
  | cons first rest =>
      rw [← exists_coalesce_iff (List.forall_mem_cons.mp hReadable).2]
      cases hStored : coalesce .refuse first rest with
      | error error => simp [ofSorted, hStored, Except.map]
      | ok stored => simp [ofSorted, hStored, Except.map]

/-- Of sorted regions, each ends before the later ones start if no two of them overlap, wherever in
the list they stood before. -/
theorem pairwise_byStart_iff (hForward : Forward regions) :
    (byStart regions).Pairwise EndsBefore ↔
      regions.Pairwise fun first second => ¬ first.Overlaps second := by
  have hReadable := readable_of_mem_byStart hForward
  have hSorted : (byStart regions).Pairwise EndsBefore ↔
      (byStart regions).Pairwise fun first second => ¬ first.Overlaps second := by
    constructor
    · refine fun h => (h.and (sorted_byStart regions)).imp_of_mem fun hFirst hSecond h => ?_
      exact (endsBefore_iff_not_overlaps (hReadable _ hFirst) (hReadable _ hSecond) h.2).mp h.1
    · refine fun h => (h.and (sorted_byStart regions)).imp_of_mem fun hFirst hSecond h => ?_
      exact (endsBefore_iff_not_overlaps (hReadable _ hFirst) (hReadable _ hSecond) h.2).mpr h.1
  rw [hSorted, (perm_byStart hForward).pairwise_iff fun hApart h => hApart h.symm,
    List.pairwise_filter]
  simp only [decide_eq_true_iff]
  constructor
  · exact fun h => h.imp fun hApart hOverlaps => hApart hOverlaps.1 hOverlaps.2.1 hOverlaps
  · exact fun h => h.imp fun hApart _ _ => hApart

/-- A map is made exactly if all regions run forward and no two of them overlap. -/
theorem exists_ofRegions_iff (regions : List Region) :
    (∃ map, ofRegions regions = .ok map) ↔
      Forward regions ∧ regions.Pairwise fun first second => ¬ first.Overlaps second := by
  by_cases hForward : Forward regions
  · rw [ofRegions_of_forward hForward, exists_ofSorted_iff (readable_of_mem_byStart hForward),
      pairwise_byStart_iff hForward, and_iff_right hForward]
  · obtain ⟨error, hError⟩ := exists_error_of_not_forward .refuse hForward
    simp [ofRegions, hError, hForward]

/-- Overlaps are found at two different places, in whichever order these are named. -/
theorem pairwise_not_overlaps_iff (regions : List Region) :
    (regions.Pairwise fun first second => ¬ first.Overlaps second) ↔
      ¬ ∃ i j : Fin regions.length, i ≠ j ∧ (regions.get i).Overlaps (regions.get j) := by
  rw [List.pairwise_iff_getElem]
  constructor
  · rintro hApart ⟨i, j, hNe, hOverlaps⟩
    rcases Nat.lt_or_gt_of_ne (Fin.val_ne_of_ne hNe) with hLess | hMore
    · exact hApart i j i.isLt j.isLt hLess hOverlaps
    · exact hApart j i j.isLt i.isLt hMore hOverlaps.symm
  · intro hNone i j hi hj hLess hOverlaps
    exact hNone ⟨⟨i, hi⟩, ⟨j, hj⟩, Fin.ne_of_val_ne (Nat.ne_of_lt hLess), hOverlaps⟩

theorem forward_of_perm (perm : regions.Perm other) (hForward : Forward regions) : Forward other :=
  fun region hRegion => hForward region (perm.mem_iff.mpr hRegion)

/-- Without overlaps there is only one way to sort the regions. -/
theorem byStart_of_perm (perm : regions.Perm other) (hForward : Forward regions)
    (hApart : regions.Pairwise fun first second => ¬ first.Overlaps second) :
    byStart regions = byStart other := by
  have hOther := forward_of_perm perm hForward
  have hPairwise := (perm.pairwise_iff fun hApart h => hApart h.symm).mp hApart
  refine List.Perm.eq_of_pairwise ?_ ((pairwise_byStart_iff hForward).mpr hApart)
    ((pairwise_byStart_iff hOther).mpr hPairwise) ?_
  · intro first second hFirst hSecond hEnds hBack
    have hReadable := readable_of_mem_byStart hForward first hFirst
    exact absurd hBack (hReadable.not_endsBefore_both
      (readable_of_mem_byStart hOther second hSecond) hEnds)
  · exact (perm_byStart hForward).trans ((perm.filter _).trans (perm_byStart hOther).symm)

theorem ofRegions_of_perm (perm : regions.Perm other) {map : RegionMap}
    (hMap : ofRegions regions = .ok map) : ofRegions other = .ok map := by
  obtain ⟨hForward, hApart⟩ := (exists_ofRegions_iff regions).mp ⟨map, hMap⟩
  rw [ofRegions_of_forward hForward, byStart_of_perm perm hForward hApart] at hMap
  rwa [ofRegions_of_forward (forward_of_perm perm hForward)]

/-- Some regions are refused exactly if one of them finishes before it starts or if two of them, at
different places, may be read and have a byte in common. In another order they are refused as well
or make the same map. -/
theorem ofRegions_refuses_in_any_order (regions : List Region) :
    ((∃ error, ofRegions regions = .error error) ↔
      (∃ region ∈ regions, region.finish < region.start) ∨
        ∃ i j : Fin regions.length, i ≠ j ∧ (regions.get i).Overlaps (regions.get j)) ∧
    ∀ other, regions.Perm other →
      ((∃ error, ofRegions regions = .error error) ↔ ∃ error, ofRegions other = .error error) ∧
      ∀ map, ofRegions regions = .ok map ↔ ofRegions other = .ok map := by
  have hRefused (regions : List Region) :
      (∃ error, ofRegions regions = .error error) ↔ ¬ ∃ map, ofRegions regions = .ok map := by
    cases ofRegions regions with
    | error error => simp
    | ok map => simp
  constructor
  · rw [hRefused, exists_ofRegions_iff, not_and_or, pairwise_not_overlaps_iff, Forward]
    push Not
    rfl
  · intro other perm
    have hMap (map : RegionMap) : ofRegions regions = .ok map ↔ ofRegions other = .ok map :=
      ⟨ofRegions_of_perm perm, ofRegions_of_perm perm.symm⟩
    refine ⟨?_, hMap⟩
    rw [hRefused, hRefused]
    exact not_congr (exists_congr hMap)

/-- A mapping, a page apart from it, and two pages inside it that do not touch. -/
def nestedRegions : List Region :=
  [⟨0x1000, 0x8000, ⟨true, false, true, false⟩⟩, ⟨0x9000, 0xa000, .readOnly⟩,
    ⟨0x2000, 0x3000, .readOnly⟩, ⟨0x5000, 0x6000, .readOnly⟩]

theorem ofRegions_refuses_in_any_order_mapped :
    (∃ error, ofRegions nestedRegions = .error error) ∧
      ofRegions mappedRegions.reverse = .ok mappedRanges := by
  constructor
  · refine (ofRegions_refuses_in_any_order nestedRegions).1.mpr (Or.inr ?_)
    refine ⟨⟨0, by decide⟩, ⟨3, by decide⟩, by decide, ?_⟩
    exact ⟨by decide, by decide, 0x5000, by decide, by decide⟩
  · have hPerm : mappedRegions.Perm mappedRegions.reverse := (List.reverse_perm _).symm
    have hSame := ((ofRegions_refuses_in_any_order mappedRegions).2 _ hPerm).2 mappedRanges
    exact hSame.mp ofRegions_mappedRegions

end RegionMap

end Conformance
