import Conformance.Proofs.Region.Order
/-! Region maps that leave out what overlaps. Such a map is the map of the regions that are kept,
and each region is kept that overlaps none kept before it in the order of their starts. The order in
which the regions are given counts only between two that overlap: as long as each of these pairs is
given in the order of its starts, the same regions are kept in both orders. -/
namespace Conformance

namespace Region

variable {first second : Region}

/-- Regions overlap if each of them starts before the other one ends. -/
theorem overlaps_iff : first.Overlaps second ↔
    (first.Readable ∧ second.Readable) ∧ first.start < second.finish ∧
      second.start < first.finish := by
  rw [Overlaps, and_assoc]
  refine and_congr_right fun hFirst => and_congr_right fun hSecond => ?_
  have hRoom := UInt64.lt_iff_toNat_lt.mp hFirst.2
  have hOther := UInt64.lt_iff_toNat_lt.mp hSecond.2
  simp only [UInt64.lt_iff_toNat_lt, Covers]
  constructor
  · intro h
    obtain ⟨position, hHere, hThere⟩ := h
    omega
  · intro h
    exact ⟨max first.start.toNat second.start.toNat, by omega, by omega⟩

instance : Decidable (first.Overlaps second) := decidable_of_iff _ overlaps_iff.symm

/-- Of two regions in the order of their starts, only the end of the first one matters. -/
theorem overlaps_iff_of_start_le (hFirst : first.Readable) (hSecond : second.Readable)
    (hStart : first.start ≤ second.start) :
    first.Overlaps second ↔ second.start < first.finish := by
  have hApart := endsBefore_iff_not_overlaps hFirst hSecond hStart
  rw [EndsBefore, ← UInt64.not_lt] at hApart
  exact not_iff_not.mp hApart.symm

end Region

namespace RegionMap

open Region

/-- Of the regions that come after some kept ones, those that overlap none kept before them. -/
def keptAfter (kept : List Region) : List Region → List Region
  | [] => []
  | region :: rest =>
      if ∃ other ∈ kept, other.Overlaps region then keptAfter kept rest
      else region :: keptAfter (region :: kept) rest

/-- The regions that overlap none kept before them. -/
def firstKept (regions : List Region) : List Region := keptAfter [] regions

variable {kept other regions rest : List Region} {region : Region}

theorem keptAfter_sublist (kept regions : List Region) :
    (keptAfter kept regions).Sublist regions := by
  induction regions generalizing kept with
  | nil => exact .slnil
  | cons region rest ih =>
      unfold keptAfter
      split_ifs
      · exact (ih kept).cons region
      · exact (ih (region :: kept)).cons_cons region

/-- What is kept overlaps neither itself nor what was kept before. -/
theorem pairwise_keptAfter (kept regions : List Region) :
    (∀ earlier ∈ kept, ∀ later ∈ keptAfter kept regions, ¬ earlier.Overlaps later) ∧
      (keptAfter kept regions).Pairwise fun earlier later => ¬ earlier.Overlaps later := by
  induction regions generalizing kept with
  | nil => exact ⟨fun _ _ _ h => absurd h List.not_mem_nil, List.Pairwise.nil⟩
  | cons region rest ih =>
      unfold keptAfter
      split_ifs with hOverlap
      · exact ih kept
      · obtain ⟨hEarlier, hLater⟩ := ih (region :: kept)
        obtain ⟨hHere, hBefore⟩ := List.forall_mem_cons.mp hEarlier
        refine ⟨fun earlier hMem => ?_, List.pairwise_cons.mpr ⟨hHere, hLater⟩⟩
        have hNot : ¬ earlier.Overlaps region := fun h => hOverlap ⟨earlier, hMem, h⟩
        exact List.forall_mem_cons.mpr ⟨hNot, hBefore earlier hMem⟩

/-- Without overlaps everything is kept. -/
theorem keptAfter_eq_self
    (hKept : ∀ earlier ∈ kept, ∀ later ∈ regions, ¬ earlier.Overlaps later)
    (hApart : regions.Pairwise fun earlier later => ¬ earlier.Overlaps later) :
    keptAfter kept regions = regions := by
  induction regions generalizing kept with
  | nil => rfl
  | cons region rest ih =>
      obtain ⟨hHere, hRest⟩ := List.pairwise_cons.mp hApart
      unfold keptAfter
      split_ifs with hOverlap
      · obtain ⟨earlier, hMem, hOverlaps⟩ := hOverlap
        exact absurd hOverlaps (hKept earlier hMem region List.mem_cons_self)
      · refine congrArg (region :: ·) (ih (List.forall_mem_cons.mpr ⟨hHere, ?_⟩) hRest)
        exact fun earlier hMem later hLater =>
          hKept earlier hMem later (List.mem_cons_of_mem _ hLater)

/-! The pass over sorted regions. -/

/-- A region that is joined or stored as the next run: regions after it overlap what was kept if
they overlap this region. -/
theorem overlaps_kept_iff {bound : Address} (hRegion : region.Readable)
    (hBound : bound ≤ region.start)
    (hSorted : ∀ later ∈ rest, region.start ≤ later.start)
    (hReadable : ∀ later ∈ rest, later.Readable)
    (hKept : ∀ later ∈ rest,
      (∃ earlier ∈ kept, earlier.Overlaps later) ↔ later.start < bound) :
    ∀ later ∈ rest, (∃ earlier ∈ region :: kept, earlier.Overlaps later) ↔
      later.start < region.finish := by
  intro later hLater
  simp only [List.mem_cons, exists_eq_or_imp]
  rw [hKept later hLater,
    overlaps_iff_of_start_le hRegion (hReadable later hLater) (hSorted later hLater)]
  refine or_iff_left_of_imp fun hBefore => ?_
  exact UInt64.lt_trans (UInt64.lt_of_lt_of_le hBefore hBound) hRegion.2

/-- Leaving out the regions that start inside the last run is the same as joining those that overlap
no region kept before. -/
theorem coalesce_keepEarlier {run : Region}
    (hSorted : rest.Pairwise fun first second => first.start ≤ second.start)
    (hReadable : ∀ region ∈ rest, region.Readable)
    (hKept : ∀ region ∈ rest,
      (∃ earlier ∈ kept, earlier.Overlaps region) ↔ region.start < run.finish) :
    coalesce .keepEarlier run rest = coalesce .refuse run (keptAfter kept rest) := by
  induction rest generalizing run kept with
  | nil => rfl
  | cons region rest ih =>
      obtain ⟨hStart, hSorted⟩ := List.pairwise_cons.mp hSorted
      obtain ⟨hRegion, hReadable⟩ := List.forall_mem_cons.mp hReadable
      obtain ⟨hHere, hKept⟩ := List.forall_mem_cons.mp hKept
      by_cases hOverlap : region.start < run.finish
      · rw [keptAfter, if_pos (hHere.mpr hOverlap), coalesce, if_pos hOverlap]
        exact ih hSorted hReadable hKept
      · have hNext := overlaps_kept_iff hRegion (UInt64.not_lt.mp hOverlap) hStart hReadable hKept
        rw [keptAfter, if_neg (hOverlap ∘ hHere.mp), coalesce, if_neg hOverlap, coalesce,
          if_neg hOverlap]
        split_ifs with hTouch
        · exact ih hSorted hReadable hNext
        · rw [ih hSorted hReadable hNext]

theorem byStart_eq (hForward : Forward regions) :
    byStart regions = (regions.filter fun region => region.Readable).mergeSort
      fun first second => first.start ≤ second.start := by
  refine congrArg (List.mergeSort · _) (List.filter_congr fun region hRegion => ?_)
  rw [Bool.eq_iff_iff, decide_eq_true_iff]
  exact takesPart_iff (hForward region hRegion)

theorem build_keepEarlier (hForward : Forward regions) :
    build .keepEarlier regions = ofSorted (firstKept (byStart regions)) := by
  have hFind : regions.find? (fun region => region.finish < region.start) = none :=
    List.find?_eq_none.mpr fun region hRegion => by simpa using hForward region hRegion
  have hSorted := sorted_byStart regions
  have hReadable := readable_of_mem_byStart hForward
  unfold build
  rw [hFind]
  change (match byStart regions with
    | [] => Except.ok empty
    | first :: rest => (coalesce .keepEarlier first rest).map RegionMap.mk) = _
  cases hRegions : byStart regions with
  | nil => rfl
  | cons first rest =>
      rw [hRegions] at hSorted hReadable
      obtain ⟨hStart, hSorted⟩ := List.pairwise_cons.mp hSorted
      obtain ⟨hFirst, hReadable⟩ := List.forall_mem_cons.mp hReadable
      have hKept : ∀ later ∈ rest, (∃ earlier ∈ [first], earlier.Overlaps later) ↔
          later.start < first.finish := fun later hLater => by
        simpa using overlaps_iff_of_start_le hFirst (hReadable later hLater) (hStart later hLater)
      have hAlone : firstKept (first :: rest) = first :: keptAfter [first] rest := by
        simp [firstKept, keptAfter]
      rw [hAlone, ofSorted, ← coalesce_keepEarlier hSorted hReadable hKept]

/-- Leaving out overlaps gives the map of the regions that are kept. -/
theorem build_keepEarlier_eq_ofRegions (hForward : Forward regions) :
    build .keepEarlier regions = ofRegions (firstKept (byStart regions)) := by
  have hSublist := keptAfter_sublist [] (byStart regions)
  have hReadable : ∀ region ∈ firstKept (byStart regions), region.Readable := fun region h =>
    readable_of_mem_byStart hForward region (hSublist.mem h)
  have hKept : Forward (firstKept (byStart regions)) := fun region h =>
    UInt64.lt_asymm (hReadable region h).2
  have hSorted := (sorted_byStart regions).sublist hSublist
  have hStay : byStart (firstKept (byStart regions)) = firstKept (byStart regions) := by
    rw [byStart_eq hKept,
      List.filter_eq_self.mpr fun region h => decide_eq_true (hReadable region h)]
    exact List.mergeSort_of_pairwise (hSorted.imp decide_eq_true)
  rw [build_keepEarlier hForward, ofRegions_of_forward hKept, hStay]

/-! The order in which regions are given. -/

/-- What is kept depends only on which regions the earlier ones overlap. -/
theorem keptAfter_congr
    (hSame : ∀ region ∈ regions,
      (∃ earlier ∈ kept, earlier.Overlaps region) ↔ ∃ earlier ∈ other, earlier.Overlaps region) :
    keptAfter kept regions = keptAfter other regions := by
  induction regions generalizing kept other with
  | nil => rfl
  | cons region rest ih =>
      obtain ⟨hHere, hRest⟩ := List.forall_mem_cons.mp hSame
      unfold keptAfter
      rw [ih hRest, @ih (region :: kept) (region :: other) fun later hLater => by
        simp only [List.mem_cons, exists_eq_or_imp, hRest later hLater]]
      simp only [hHere]

theorem perm_keptAfter_cons
    (h : ∀ kept, (keptAfter kept regions).Perm (keptAfter kept rest)) (kept : List Region) :
    (keptAfter kept (region :: regions)).Perm (keptAfter kept (region :: rest)) := by
  unfold keptAfter
  split_ifs
  · exact h kept
  · exact (h (region :: kept)).cons region

/-- Neighbours that do not overlap may change places. -/
theorem perm_keptAfter_swap {first second : Region} (hApart : ¬ first.Overlaps second)
    (kept : List Region) :
    (keptAfter kept (first :: second :: rest)).Perm
      (keptAfter kept (second :: first :: rest)) := by
  have hBack : ¬ second.Overlaps first := fun h => hApart h.symm
  have hSwap : keptAfter (second :: first :: kept) rest =
      keptAfter (first :: second :: kept) rest := by
    refine keptAfter_congr fun region _ => ?_
    simp only [List.mem_cons, exists_eq_or_imp, or_left_comm]
  by_cases hFirst : ∃ earlier ∈ kept, earlier.Overlaps first
  · by_cases hSecond : ∃ earlier ∈ kept, earlier.Overlaps second
    · simp [keptAfter, hFirst, hSecond]
    · simp [keptAfter, hFirst, hSecond]
  · by_cases hSecond : ∃ earlier ∈ kept, earlier.Overlaps second
    · simp [keptAfter, hFirst, hSecond]
    · simp only [keptAfter, List.mem_cons, exists_eq_or_imp, hApart, hBack, hFirst, hSecond,
        or_self, if_false, hSwap]
      exact List.Perm.swap _ _ _

/-- A region may be moved behind regions that it does not overlap. -/
theorem perm_keptAfter_move {passed : List Region}
    (hApart : ∀ earlier ∈ passed, ¬ region.Overlaps earlier) (kept : List Region) :
    (keptAfter kept (region :: (passed ++ rest))).Perm
      (keptAfter kept (passed ++ region :: rest)) := by
  induction passed generalizing kept with
  | nil => exact .refl _
  | cons next passed ih =>
      obtain ⟨hNext, hApart⟩ := List.forall_mem_cons.mp hApart
      exact (perm_keptAfter_swap hNext kept).trans (perm_keptAfter_cons (ih hApart) kept)

/-- Sorting moves a region only behind regions that start before it. -/
theorem perm_keptAfter_mergeSort
    (hOrder : regions.Pairwise fun earlier later =>
      earlier.Overlaps later → earlier.start ≤ later.start) (kept : List Region) :
    (keptAfter kept regions).Perm
      (keptAfter kept (regions.mergeSort fun first second => first.start ≤ second.start)) := by
  induction regions generalizing kept with
  | nil => simp
  | cons region rest ih =>
      obtain ⟨hHere, hRest⟩ := List.pairwise_cons.mp hOrder
      obtain ⟨passed, after, hSorted, hSplit, hPassed⟩ := @List.mergeSort_cons Region
        (fun first second => first.start ≤ second.start)
        (fun _ _ _ hFirst hSecond => decide_eq_true
          (UInt64.le_trans (of_decide_eq_true hFirst) (of_decide_eq_true hSecond)))
        (fun first second => by simpa using UInt64.le_total first.start second.start) region rest
      have hPerm : (passed ++ after).Perm rest := hSplit ▸ List.mergeSort_perm rest _
      have hApart : ∀ earlier ∈ passed, ¬ region.Overlaps earlier := fun earlier hMem hOverlap => by
        have hLater := hPerm.mem_iff.mp (List.mem_append_left after hMem)
        have hBefore := hPassed earlier hMem
        simp [hHere earlier hLater hOverlap] at hBefore
      have hMove := @perm_keptAfter_move after region passed hApart kept
      rw [← hSplit, ← hSorted] at hMove
      exact (perm_keptAfter_cons (ih hRest) kept).trans hMove

/-- The order of the starts makes no difference where each of two regions that overlap is given
before the other one only if it does not start after it. -/
theorem perm_firstKept_byStart (hForward : Forward regions)
    (hOrder : regions.Pairwise fun earlier later =>
      earlier.Overlaps later → earlier.start ≤ later.start) :
    (firstKept (regions.filter fun region => region.Readable)).Perm
      (firstKept (byStart regions)) := by
  rw [byStart_eq hForward]
  exact perm_keptAfter_mergeSort (hOrder.sublist List.filter_sublist) []

end RegionMap

end Conformance
