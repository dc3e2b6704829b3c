import Conformance.Proofs.Region.Lines
import Conformance.Proofs.Region.Skipping
/-! The maps of listings. A listing is refused for what one of its lines says and never for what two
of them map, and its map allows nothing that no line allows. Of lines that overlap, the map keeps
those that start first, not those that come first. -/
namespace Conformance.RegionMap

open Region Text

/-- The reads that a map allows are those of which some regions cover every byte. -/
def Allows (map : RegionMap) (regions : List Region) : Prop :=
  ∀ (address : Address) (length : Nat), 1 ≤ length → (map.contains address length = true ↔
    ∀ position, address.toNat ≤ position → position < address.toNat + length →
      ∃ region ∈ regions, region.Covers position)

/-- The regions that the lines of a listing list, in the order of the lines. -/
def ListedBy (text : String) (regions : List Region) : Prop :=
  List.Forall₂ Lists (ordinary (lines text.toList)) regions

variable {map : RegionMap} {regions other : List Region} {text : String}

theorem Allows.of_perm (allows : map.Allows regions) (perm : regions.Perm other) :
    map.Allows other := by
  intro address length hLength
  simp only [allows address length hLength, perm.mem_iff]

theorem allows_of_ofRegions (hReadable : ∀ region ∈ regions, region.Readable)
    (hMap : ofRegions regions = .ok map) : map.Allows regions := by
  obtain ⟨parts, hParts, coalesced⟩ := coalesced_of_ofRegions hMap
  intro address length hLength
  rw [(coalesced.canonical hParts).contains_iff address hLength]
  constructor
  · intro h position hLow hHigh
    obtain ⟨region, hRegion, -, hCovers⟩ := h.1 position hLow hHigh
    exact ⟨region, hRegion, hCovers⟩
  · intro hBytes
    refine ⟨fun position hLow hHigh => ?_, ?_⟩
    · obtain ⟨region, hRegion, hCovers⟩ := hBytes position hLow hHigh
      exact ⟨region, hRegion, (hReadable region hRegion).1, hCovers⟩
    · obtain ⟨region, -, -, hLast⟩ := hBytes (address.toNat + length - 1) (by omega) (by omega)
      have hBound := region.finish.toNat_lt_size
      omega

theorem ofListing_of_parseLines (hLines : parseLines (lines text.toList) = .ok regions) :
    ofListing text = build .keepEarlier regions := by
  rw [ofListing, hLines]
  rfl

theorem parseLines_of_ofListing (hMap : ofListing text = .ok map) :
    ∃ regions, parseLines (lines text.toList) = .ok regions ∧
      build .keepEarlier regions = .ok map := by
  cases hLines : parseLines (lines text.toList) with
  | error error =>
      rw [ofListing, hLines] at hMap
      cases hMap
  | ok regions => exact ⟨regions, rfl, ofListing_of_parseLines hLines ▸ hMap⟩

theorem listedBy_of_parseLines (hLines : parseLines (lines text.toList) = .ok regions) :
    ListedBy text regions := by
  have hRead := readsAllAs_parseLines (lines text.toList)
  rw [hLines] at hRead
  cases hRead with
  | listed _ lists => exact lists

theorem forward_of_build {policy : OverlapPolicy} (hMap : build policy regions = .ok map) :
    Forward regions := by
  by_contra hReversed
  obtain ⟨error, hError⟩ := exists_error_of_not_forward policy hReversed
  rw [hMap] at hError
  cases hError

/-- Overlaps are no reason to refuse a listing. -/
theorem exists_build_keepEarlier (hForward : Forward regions) :
    ∃ map, build .keepEarlier regions = .ok map := by
  rw [build_keepEarlier_eq_ofRegions hForward]
  refine (exists_ofRegions_iff _).mpr ⟨fun region hRegion => ?_, (pairwise_keptAfter [] _).2⟩
  have hMem := (keptAfter_sublist [] _).mem hRegion
  exact UInt64.lt_asymm (readable_of_mem_byStart hForward region hMem).2

theorem allows_of_build (hBuild : build .keepEarlier regions = .ok map) :
    map.Allows (firstKept (byStart regions)) := by
  have hForward := forward_of_build hBuild
  rw [build_keepEarlier_eq_ofRegions hForward] at hBuild
  refine allows_of_ofRegions (fun region hRegion => ?_) hBuild
  exact readable_of_mem_byStart hForward region ((keptAfter_sublist [] _).mem hRegion)

/-- Without overlaps nothing is left out. -/
theorem build_keepEarlier_of_apart (hForward : Forward regions)
    (hApart : regions.Pairwise fun first second => ¬ first.Overlaps second) :
    build .keepEarlier regions = ofRegions regions := by
  have hSorted : (byStart regions).Pairwise fun first second => ¬ first.Overlaps second := by
    refine ((perm_byStart hForward).pairwise_iff fun h hBack => h hBack.symm).mpr ?_
    exact hApart.sublist List.filter_sublist
  rw [build_keepEarlier hForward, ofRegions_of_forward hForward, firstKept,
    keptAfter_eq_self (fun _ h => absurd h List.not_mem_nil) hSorted]

theorem exists_of_forall₂ {α β : Type} {relates : α → β → Prop} {first : List α}
    {second : List β} (h : List.Forall₂ relates first second) {a : α} (hMem : a ∈ first) :
    ∃ b ∈ second, relates a b := by
  induction h with
  | nil => cases hMem
  | cons hHere _ ih =>
      rcases List.mem_cons.mp hMem with rfl | hLater
      · exact ⟨_, List.mem_cons_self, hHere⟩
      · obtain ⟨b, hB, hRelates⟩ := ih hLater
        exact ⟨b, List.mem_cons_of_mem _ hB, hRelates⟩

/-- A listing lists its regions in one way. -/
theorem ListedBy.unique (listed : ListedBy text regions) (hOther : ListedBy text other) :
    regions = other := by
  have hLists : Relator.RightUnique Lists := fun _ _ _ lists hOther => lists.unique hOther
  exact hLists.forall₂ listed hOther

theorem ListedBy.exists_line (listed : ListedBy text regions) {region : Region}
    (hRegion : region ∈ regions) : ∃ line ∈ ordinary (lines text.toList), Lists line region :=
  exists_of_forall₂ (List.Forall₂.flip listed) hRegion

/-- If all lines can be read, only a region that ends before it starts is refused. -/
theorem refused_iff_of_readable
    (readable : ∀ line ∈ filled (lines text.toList), ¬ Unreadable line)
    (listed : ListedBy text regions) :
    (∃ line ∈ filled (lines text.toList), Refused line) ↔ ¬ Forward regions := by
  rw [Forward]
  push Not
  constructor
  · rintro ⟨line, hLine, unreadable | ⟨notHazardous, start, finish, spans, hReversed⟩⟩
    · exact absurd unreadable (readable line hLine)
    · have hMem : line ∈ ordinary (lines text.toList) :=
        List.mem_filter.mpr ⟨hLine, decide_eq_true notHazardous⟩
      obtain ⟨region, hRegion, lists⟩ := exists_of_forall₂ listed hMem
      obtain ⟨hStart, hFinish⟩ := lists.spans.unique spans
      exact ⟨region, hRegion, hStart ▸ hFinish ▸ hReversed⟩
  · rintro ⟨region, hRegion, hReversed⟩
    obtain ⟨line, hMem, lists⟩ := listed.exists_line hRegion
    obtain ⟨hLine, notHazardous⟩ := List.mem_filter.mp hMem
    exact ⟨line, hLine, .inr ⟨of_decide_eq_true notHazardous, _, _, lists.spans, hReversed⟩⟩

/-- A listing is refused exactly if one of its lines is. -/
theorem exists_ofListing_error_iff (text : String) :
    (∃ error, ofListing text = .error error) ↔
      ∃ line ∈ filled (lines text.toList), Refused line := by
  have hRead := readsAllAs_parseLines (lines text.toList)
  cases hLines : parseLines (lines text.toList) with
  | error error =>
      rw [hLines] at hRead
      cases hRead with
      | refused mem unreadable =>
          have hListing : ofListing text = .error error := by
            rw [ofListing, hLines]
            rfl
          exact ⟨fun _ => ⟨_, mem, .inl unreadable⟩, fun _ => ⟨error, hListing⟩⟩
  | ok regions =>
      rw [hLines] at hRead
      cases hRead with
      | listed readable lists =>
          rw [refused_iff_of_readable readable lists, ofListing_of_parseLines hLines]
          refine ⟨fun ⟨error, hError⟩ hForward => ?_, exists_error_of_not_forward .keepEarlier⟩
          obtain ⟨map, hMap⟩ := exists_build_keepEarlier hForward
          rw [hMap] at hError
          cases hError

/-- A listing is refused exactly for a line that may not stand in it. The map of any other listing
allows nothing that no line allows, and it is the map of the regions that its lines list if no two
of these overlap. -/
theorem ofListing_reads_lines (text : String) :
    ((∃ error, ofListing text = .error error) ↔
      ∃ line ∈ filled (lines text.toList), Refused line) ∧
    ∀ map, ofListing text = .ok map → ∃ regions, ListedBy text regions ∧
      (∀ (address : Address) (length position : Nat), map.contains address length = true →
        address.toNat ≤ position → position < address.toNat + length →
        ∃ line ∈ ordinary (lines text.toList), ∃ region, Lists line region ∧
          region.protection.read = true ∧ region.Covers position) ∧
      ((regions.Pairwise fun first second => ¬ first.Overlaps second) →
        ofRegions regions = .ok map) := by
  refine ⟨exists_ofListing_error_iff text, fun map hMap => ?_⟩
  obtain ⟨regions, hLines, hBuild⟩ := parseLines_of_ofListing hMap
  have listed := listedBy_of_parseLines hLines
  have hForward := forward_of_build hBuild
  refine ⟨regions, listed, fun address length position hContains hLow hHigh => ?_, fun hApart => ?_⟩
  · have allows := allows_of_build hBuild
    obtain ⟨region, hRegion, hCovers⟩ :=
      (allows address length (by omega)).mp hContains position hLow hHigh
    have hMem := (keptAfter_sublist [] _).mem hRegion
    have hListed := List.mem_of_mem_filter ((perm_byStart hForward).mem_iff.mp hMem)
    obtain ⟨line, hLine, lists⟩ := listed.exists_line hListed
    exact ⟨line, hLine, region, lists, (readable_of_mem_byStart hForward region hMem).1, hCovers⟩
  · rw [← build_keepEarlier_of_apart hForward hApart, hBuild]

/-- Code and data of a process, a blank line, a page out of order and a device that may be read. -/
def processListing : String :=
  "1000-2000 r-xp 0 fd:01 7 /usr/bin/cat\n4000-5000 rw-p 0 00:00 0\n \t\n" ++
    "2000-3000 r--p 1000 fd:01 7 /usr/bin/cat\n3000-4000 rw-s 0 00:05 9 /dev/dri/card0\n"

def processRegions : List Region :=
  [⟨0x1000, 0x2000, ⟨true, false, true, false⟩⟩, ⟨0x4000, 0x5000, ⟨true, true, false, false⟩⟩,
    ⟨0x2000, 0x3000, .readOnly⟩]

/-- The code is one range, and the device is no part of it. -/
def processMap : RegionMap :=
  ⟨[⟨0x1000, 0x3000, .readOnly⟩, ⟨0x4000, 0x5000, ⟨true, true, false, false⟩⟩]⟩

theorem parseLines_processListing :
    parseLines (lines processListing.toList) = .ok processRegions := by decide +kernel

theorem ofListing_processListing : ofListing processListing = .ok processMap := by
  rw [ofListing_of_parseLines parseLines_processListing]
  simp [build, processRegions, processMap, List.mergeSort, Region.isEmpty, coalesce,
    Protection.inter, Protection.readOnly, Except.map, pure, Except.pure, bind, Except.bind]

theorem ofListing_reads_lines_process :
    (∃ error, ofListing "1000-2000 r-p 0 00:00 0" = .error error) ∧
      ofListing processListing = .ok processMap ∧ ofRegions processRegions = .ok processMap ∧
      ∀ position, 0x1FF0 ≤ position → position < 0x1FF0 + 0x20 →
        ∃ line ∈ ordinary (lines processListing.toList), ∃ region, Lists line region ∧
          region.protection.read = true ∧ region.Covers position := by
  obtain ⟨regions, listed, hBytes, hSame⟩ :=
    (ofListing_reads_lines processListing).2 processMap ofListing_processListing
  obtain rfl := listed.unique (listedBy_of_parseLines parseLines_processListing)
  refine ⟨?_, ofListing_processListing, hSame (by decide), fun position => ?_⟩
  · refine (ofListing_reads_lines "1000-2000 r-p 0 00:00 0").1.mpr ?_
    refine ⟨"1000-2000 r-p 0 00:00 0".toList, by decide +kernel, .inl ?_⟩
    exact .permissions (by decide +kernel : _ = some "r-p".toList) (by decide +kernel) (by decide)
  · exact hBytes 0x1FF0 0x20 position (by decide)

/-- The map of a listing allows what those lines allow that are kept in the order of their starts.
These are also the lines that are kept in their own order, if no line overlaps one before it that
starts later. -/
theorem ofListing_keeps_by_start {text : String} {map : RegionMap}
    (hMap : ofListing text = .ok map) :
    ∃ regions, ListedBy text regions ∧ map.Allows (firstKept (byStart regions)) ∧
      ((regions.Pairwise fun earlier later =>
          earlier.Overlaps later → earlier.start ≤ later.start) →
        map.Allows (firstKept (regions.filter fun region => region.Readable))) := by
  obtain ⟨regions, hLines, hBuild⟩ := parseLines_of_ofListing hMap
  have allows := allows_of_build hBuild
  refine ⟨regions, listedBy_of_parseLines hLines, allows, fun hOrder => ?_⟩
  exact allows.of_perm (perm_firstKept_byStart (forward_of_build hBuild) hOrder).symm

/-- A heap that grew while it was listed, and a mapping after it. -/
def grownListing : String :=
  "1000-3000 rw-p 0 00:00 0 [heap]\n2000-5000 rw-p 0 00:00 0 [heap]\n4000-6000 r--p 0 00:00 0\n"

def grownRegions : List Region :=
  [⟨0x1000, 0x3000, ⟨true, true, false, false⟩⟩, ⟨0x2000, 0x5000, ⟨true, true, false, false⟩⟩,
    ⟨0x4000, 0x6000, .readOnly⟩]

/-- The mapping after the heap overlaps only the line that is left out. -/
def grownMap : RegionMap :=
  ⟨[⟨0x1000, 0x3000, ⟨true, true, false, false⟩⟩, ⟨0x4000, 0x6000, .readOnly⟩]⟩

theorem parseLines_grownListing :
    parseLines (lines grownListing.toList) = .ok grownRegions := by decide +kernel

theorem ofListing_grownListing : ofListing grownListing = .ok grownMap := by
  rw [ofListing_of_parseLines parseLines_grownListing]
  simp [build, grownRegions, grownMap, List.mergeSort, Region.isEmpty, coalesce,
    Protection.readOnly, Except.map, pure, Except.pure, bind, Except.bind]

theorem ofListing_keeps_by_start_grown :
    ofListing grownListing = .ok grownMap ∧ ListedBy grownListing grownRegions ∧
      grownMap.Allows
        [⟨0x1000, 0x3000, ⟨true, true, false, false⟩⟩, ⟨0x4000, 0x6000, .readOnly⟩] := by
  have hListed := listedBy_of_parseLines parseLines_grownListing
  obtain ⟨regions, listed, -, hKeeps⟩ := ofListing_keeps_by_start ofListing_grownListing
  obtain rfl := listed.unique hListed
  have hKept : firstKept (grownRegions.filter fun region => region.Readable) =
      [⟨0x1000, 0x3000, ⟨true, true, false, false⟩⟩, ⟨0x4000, 0x6000, .readOnly⟩] := by
    decide +kernel
  exact ⟨ofListing_grownListing, hListed, hKept ▸ hKeeps (by decide)⟩

/-- A mapping, and one that moved down into it while the listing was read. -/
def movedListing : String := "2000-3000 r--p 0 00:00 0\n1000-2800 r--p 0 00:00 0\n"

def movedRegions : List Region := [⟨0x2000, 0x3000, .readOnly⟩, ⟨0x1000, 0x2800, .readOnly⟩]

theorem parseLines_movedListing :
    parseLines (lines movedListing.toList) = .ok movedRegions := by decide +kernel

/-- The line that comes first is left out, and the end of what it maps is not allowed. -/
theorem not_allows_moved :
    ofListing movedListing = .ok ⟨[⟨0x1000, 0x2800, .readOnly⟩]⟩ ∧
      ListedBy movedListing movedRegions ∧
      ¬ (⟨[⟨0x1000, 0x2800, .readOnly⟩]⟩ : RegionMap).Allows
        (firstKept (movedRegions.filter fun region => region.Readable)) := by
  refine ⟨?_, listedBy_of_parseLines parseLines_movedListing, fun allows => ?_⟩
  · rw [ofListing_of_parseLines parseLines_movedListing]
    simp [build, movedRegions, List.mergeSort, Region.isEmpty, coalesce, Protection.readOnly,
      Except.map]
  · have hKept : firstKept (movedRegions.filter fun region => region.Readable) =
        [⟨0x2000, 0x3000, .readOnly⟩] := by decide +kernel
    have hAllowed := (allows 0x2800 0x800 (by decide)).mpr fun position hLow hHigh => by
      rw [hKept]
      exact ⟨_, List.mem_cons_self, Nat.le_trans (by decide) hLow, hHigh⟩
    exact absurd hAllowed (by decide)

end Conformance.RegionMap
