import Conformance.Proofs.Neighbours
import Conformance.Region.Map
import Mathlib.Tactic.ByContra
import Mathlib.Tactic.SplitIfs
/-! Region maps are canonical. Joining touching regions loses no byte and adds none, and leaves a
gap between any two stored regions; so a range that may be read as a whole lies in one stored
region, and a lookup that only looks at one region is exact. -/
namespace Conformance

namespace Protection

/-- The permissions that each of some ranges grants. -/
def common (protections : List Protection) : Protection :=
  ⟨protections.all (·.read), protections.all (·.write), protections.all (·.execute),
    protections.all (·.shared)⟩

/-- One range grants whatever another one does. -/
def Includes (larger smaller : Protection) : Prop :=
  (smaller.read = true → larger.read = true) ∧ (smaller.write = true → larger.write = true) ∧
    (smaller.execute = true → larger.execute = true) ∧
    (smaller.shared = true → larger.shared = true)

theorem common_concat (protections : List Protection) (protection : Protection) :
    common (protections ++ [protection]) = (common protections).inter protection := by
  simp [common, inter]

theorem includes_common {protections : List Protection} {protection : Protection}
    (h : protection ∈ protections) : protection.Includes (common protections) := by
  simp only [Includes, common, List.all_eq_true]
  exact ⟨(· _ h), (· _ h), (· _ h), (· _ h)⟩

theorem common_includes {protections : List Protection} {protection : Protection}
    (h : ∀ other ∈ protections, other.Includes protection) :
    (common protections).Includes protection := by
  simp only [Includes, common, List.all_eq_true]
  exact ⟨fun hRead other hOther => (h other hOther).1 hRead,
    fun hWrite other hOther => (h other hOther).2.1 hWrite,
    fun hExecute other hOther => (h other hOther).2.2.1 hExecute,
    fun hShared other hOther => (h other hOther).2.2.2 hShared⟩

theorem Includes.antisymm {first second : Protection} (h : first.Includes second)
    (hBack : second.Includes first) : first = second := by
  obtain ⟨read, write, execute, shared⟩ := first
  obtain ⟨other, writeOther, executeOther, sharedOther⟩ := second
  obtain ⟨hRead, hWrite, hExecute, hShared⟩ := h
  obtain ⟨hRead', hWrite', hExecute', hShared'⟩ := hBack
  rw [Protection.mk.injEq]
  exact ⟨Bool.eq_iff_iff.mpr ⟨hRead', hRead⟩, Bool.eq_iff_iff.mpr ⟨hWrite', hWrite⟩,
    Bool.eq_iff_iff.mpr ⟨hExecute', hExecute⟩, Bool.eq_iff_iff.mpr ⟨hShared', hShared⟩⟩

end Protection

namespace Region

/-- The region takes part in a map: it may be read, and there is something to read. -/
def Readable (region : Region) : Prop :=
  region.protection.read = true ∧ region.start < region.finish

instance (region : Region) : Decidable region.Readable :=
  inferInstanceAs (Decidable (_ ∧ _))

/-- The region lies in another one as a whole. -/
def Within (inner outer : Region) : Prop :=
  outer.start ≤ inner.start ∧ inner.finish ≤ outer.finish

instance (inner outer : Region) : Decidable (inner.Within outer) :=
  inferInstanceAs (Decidable (_ ∧ _))

/-- The region ends before another one starts, with a gap between them. -/
def Precedes (first second : Region) : Prop := first.finish < second.start

/-- Some regions, each touching the next, make up a region. -/
inductive Makes : List Region → Region → Prop where
  | single (region : Region) : Makes [region] region
  | join {parts : List Region} {run region : Region} (first : Makes parts run)
      (touch : region.start = run.finish) :
      Makes (parts ++ [region])
        ⟨run.start, region.finish, run.protection.inter region.protection⟩

namespace Makes

variable {parts : List Region} {run : Region}

theorem protection (makes : Makes parts run) :
    run.protection = .common (parts.map (·.protection)) := by
  induction makes with
  | single region => simp [Protection.common]
  | join _ _ ih => rw [List.map_append, List.map_singleton, Protection.common_concat, ih]

theorem readable (makes : Makes parts run) (hParts : ∀ part ∈ parts, part.Readable) :
    run.Readable := by
  induction makes with
  | single region => exact hParts region List.mem_cons_self
  | @join parts run region _ touch ih =>
      obtain ⟨hRead, hRun⟩ := ih fun part h => hParts part (List.mem_append_left _ h)
      obtain ⟨hLast, hRegion⟩ := hParts region (by simp)
      refine ⟨by simp [Protection.inter, hRead, hLast], ?_⟩
      rw [touch] at hRegion
      exact UInt64.lt_trans hRun hRegion

theorem within (makes : Makes parts run) (hParts : ∀ part ∈ parts, part.Readable) :
    ∀ part ∈ parts, part.Within run := by
  induction makes with
  | single region =>
      intro part hPart
      obtain rfl := List.mem_singleton.mp hPart
      exact ⟨UInt64.le_refl _, UInt64.le_refl _⟩
  | @join parts run region first touch ih =>
      have hEarlier := fun part h => hParts part (List.mem_append_left _ h)
      have hRun := (first.readable hEarlier).2
      have hRegion := (hParts region (by simp)).2
      rw [touch] at hRegion
      intro part hPart
      rcases List.mem_append.mp hPart with hOld | hNew
      · obtain ⟨hStart, hFinish⟩ := ih hEarlier part hOld
        exact ⟨hStart, UInt64.le_trans hFinish (UInt64.le_of_lt hRegion)⟩
      · obtain rfl := List.mem_singleton.mp hNew
        exact ⟨touch ▸ UInt64.le_of_lt hRun, UInt64.le_refl _⟩

theorem exists_covers (makes : Makes parts run) {position : Nat} (hPosition : run.Covers position) :
    ∃ part ∈ parts, part.Covers position := by
  induction makes with
  | single region => exact ⟨region, List.mem_cons_self, hPosition⟩
  | @join parts run region _ touch ih =>
      obtain ⟨hStart, hFinish⟩ := hPosition
      by_cases hEarlier : position < run.finish.toNat
      · obtain ⟨part, hPart, hCovers⟩ := ih ⟨hStart, hEarlier⟩
        exact ⟨part, List.mem_append_left _ hPart, hCovers⟩
      · refine ⟨region, by simp, ?_, hFinish⟩
        rw [touch]
        omega

end Makes

theorem Within.covers {inner outer : Region} (within : inner.Within outer) {position : Nat}
    (hPosition : inner.Covers position) : outer.Covers position := by
  obtain ⟨hStart, hFinish⟩ := within
  rw [UInt64.le_iff_toNat_le] at hStart hFinish
  obtain ⟨hLow, hHigh⟩ := hPosition
  exact ⟨by omega, by omega⟩

theorem Readable.covers_start {region : Region} (readable : region.Readable) :
    region.Covers region.start.toNat :=
  ⟨Nat.le_refl _, UInt64.lt_iff_toNat_lt.mp readable.2⟩

end Region

namespace RegionMap

open Region

/-- Some regions are joined to stored ones. Each of them is used, and nothing else is. -/
structure Coalesced (parts stored : List Region) : Prop where
  made : ∀ run ∈ stored, ∃ group, Makes group run ∧ group ⊆ parts
  used : ∀ part ∈ parts, ∃ run ∈ stored, ∃ group, Makes group run ∧ group ⊆ parts ∧ part ∈ group
  apart : stored.Pairwise Precedes

/-- A run that is complete comes before what is joined later. -/
theorem Coalesced.cons {group parts stored : List Region} {run : Region}
    (coalesced : Coalesced parts stored) (makes : Makes group run)
    (hApart : ∀ later ∈ stored, run.Precedes later) :
    Coalesced (group ++ parts) (run :: stored) := by
  refine ⟨fun other hOther => ?_, fun part hPart => ?_,
    List.pairwise_cons.mpr ⟨hApart, coalesced.apart⟩⟩
  · rcases List.mem_cons.mp hOther with rfl | hLater
    · exact ⟨group, makes, List.subset_append_left _ _⟩
    · obtain ⟨later, hMakes, hSubset⟩ := coalesced.made other hLater
      exact ⟨later, hMakes, List.subset_append_of_subset_right _ hSubset⟩
  · rcases List.mem_append.mp hPart with hHere | hLater
    · exact ⟨run, List.mem_cons_self, group, makes, List.subset_append_left _ _, hHere⟩
    · obtain ⟨other, hOther, later, hMakes, hSubset, hMem⟩ := coalesced.used part hLater
      exact ⟨other, List.mem_cons_of_mem _ hOther, later, hMakes,
        List.subset_append_of_subset_right _ hSubset, hMem⟩

theorem lt_of_not_touching {run region : Region} (hOverlap : ¬ region.start < run.finish)
    (hTouch : ¬ region.start = run.finish) : run.finish < region.start := by
  rw [UInt64.lt_iff_toNat_lt] at hOverlap ⊢
  have hNe : region.start.toNat ≠ run.finish.toNat := fun h => hTouch (UInt64.toNat_inj.mp h)
  omega

/-- Joining regions to the run that was reached uses a part of them; all of them, where none may be
left out. Nothing that is stored starts before the run. -/
theorem coalesced_of_coalesce {policy : OverlapPolicy} {run : Region}
    {group rest stored : List Region} (makes : Makes group run)
    (hGroup : ∀ region ∈ group, region.Readable) (hRest : ∀ region ∈ rest, region.Readable)
    (hStored : coalesce policy run rest = .ok stored) :
    ∃ kept, kept.Sublist rest ∧ (policy = .refuse → kept = rest) ∧
      Coalesced (group ++ kept) stored ∧ ∀ other ∈ stored, run.start ≤ other.start := by
  induction rest generalizing run group stored with
  | nil =>
      obtain rfl := Except.ok.inj hStored
      refine ⟨[], .slnil, fun _ => rfl, ?_, fun other h => ?_⟩
      · exact Coalesced.cons ⟨by simp, by simp, .nil⟩ makes (by simp)
      · exact List.mem_singleton.mp h ▸ UInt64.le_refl _
  | cons region rest ih =>
      obtain ⟨hRegion, hLater⟩ := List.forall_mem_cons.mp hRest
      unfold coalesce at hStored
      split_ifs at hStored with hOverlap hTouch
      · cases policy with
        | refuse => cases hStored
        | keepEarlier =>
            obtain ⟨kept, hKept, -, coalesced, hStart⟩ := ih makes hGroup hLater hStored
            exact ⟨kept, hKept.cons region, nofun, coalesced, hStart⟩
      · have hJoined : ∀ part ∈ group ++ [region], part.Readable :=
          List.forall_mem_append.mpr ⟨hGroup, List.forall_mem_singleton.mpr hRegion⟩
        obtain ⟨kept, hKept, hAll, coalesced, hStart⟩ :=
          ih (makes.join hTouch) hJoined hLater hStored
        refine ⟨region :: kept, hKept.cons_cons region, fun h => congrArg _ (hAll h), ?_, hStart⟩
        rwa [List.append_assoc, List.singleton_append] at coalesced
      · cases hNext : coalesce policy region rest with
        | error error =>
            rw [hNext] at hStored
            cases hStored
        | ok later =>
            rw [hNext] at hStored
            obtain rfl := Except.ok.inj hStored
            obtain ⟨kept, hKept, hAll, coalesced, hStart⟩ :=
              ih (.single region) (List.forall_mem_singleton.mpr hRegion) hLater hNext
            have hApart (other : Region) (hOther : other ∈ later) : run.Precedes other :=
              UInt64.lt_of_lt_of_le (lt_of_not_touching hOverlap hTouch) (hStart other hOther)
            refine ⟨region :: kept, hKept.cons_cons region, fun h => congrArg _ (hAll h),
              coalesced.cons makes hApart, ?_⟩
            have hRun := UInt64.le_of_lt (makes.readable hGroup).2
            exact List.forall_mem_cons.mpr ⟨UInt64.le_refl _, fun other hOther =>
              UInt64.le_trans hRun (UInt64.le_of_lt (hApart other hOther))⟩

namespace Coalesced

variable {parts stored : List Region} (coalesced : Coalesced parts stored)
  (hParts : ∀ part ∈ parts, part.Readable)

include coalesced hParts

theorem readable : ∀ run ∈ stored, run.Readable := by
  intro run hRun
  obtain ⟨group, makes, hGroup⟩ := coalesced.made run hRun
  exact makes.readable fun part h => hParts part (hGroup h)

theorem exists_within : ∀ part ∈ parts, ∃ run ∈ stored, part.Within run := by
  intro part hPart
  obtain ⟨run, hRun, group, makes, hGroup, hMem⟩ := coalesced.used part hPart
  exact ⟨run, hRun, makes.within (fun other h => hParts other (hGroup h)) part hMem⟩

/-- Joining loses no byte and adds none. -/
theorem covers_iff {position : Nat} :
    (∃ run ∈ stored, run.Covers position) ↔ ∃ part ∈ parts, part.Covers position := by
  constructor
  · intro h
    obtain ⟨run, hRun, hCovers⟩ := h
    obtain ⟨group, makes, hGroup⟩ := coalesced.made run hRun
    obtain ⟨part, hPart, hHere⟩ := makes.exists_covers hCovers
    exact ⟨part, hGroup hPart, hHere⟩
  · intro h
    obtain ⟨part, hPart, hCovers⟩ := h
    obtain ⟨run, hRun, within⟩ := coalesced.exists_within hParts part hPart
    exact ⟨run, hRun, within.covers hCovers⟩

end Coalesced

/-- Two stored regions are the same or have a gap between them. -/
theorem eq_or_precedes {stored : List Region} (hApart : stored.Pairwise Precedes)
    {first second : Region} (hFirst : first ∈ stored) (hSecond : second ∈ stored) :
    first = second ∨ first.Precedes second ∨ second.Precedes first := by
  obtain ⟨i, hi, rfl⟩ := List.mem_iff_getElem.mp hFirst
  obtain ⟨j, hj, rfl⟩ := List.mem_iff_getElem.mp hSecond
  have hOrder := List.pairwise_iff_getElem.mp hApart
  rcases Nat.lt_trichotomy i j with hLess | rfl | hMore
  · exact Or.inr (Or.inl (hOrder i j hi hj hLess))
  · exact Or.inl rfl
  · exact Or.inr (Or.inr (hOrder j i hj hi hMore))

/-- Stored regions that do not have a gap between them are the same. -/
theorem eq_of_reaches {stored : List Region} (hApart : stored.Pairwise Precedes)
    {first second : Region} (hFirst : first ∈ stored) (hSecond : second ∈ stored) {position : Nat}
    (hBefore : first.start.toNat ≤ position) (hAfter : position ≤ first.finish.toNat)
    (hCovers : second.Covers position) : first = second := by
  obtain ⟨hStart, hFinish⟩ := hCovers
  rcases eq_or_precedes hApart hFirst hSecond with hSame | hGap | hGap
  · exact hSame
  · have := UInt64.lt_iff_toNat_lt.mp hGap
    omega
  · have := UInt64.lt_iff_toNat_lt.mp hGap
    omega

/-- The last region that starts at an address or before is the one that reaches the address. -/
theorem getLast?_takeWhile {stored : List Region} (hApart : stored.Pairwise Precedes)
    (hReadable : ∀ run ∈ stored, run.Readable) {run : Region} (hRun : run ∈ stored)
    {address : Address} (hStart : run.start ≤ address) (hFinish : address ≤ run.finish) :
    (stored.takeWhile (·.start ≤ address)).getLast? = some run := by
  refine getLast?_takeWhile_of_pairwise hApart hRun (decide_eq_true hStart)
    (fun other hOther hGap => ?_) fun other _ hGap => ?_
  · have hEarlier := UInt64.lt_trans (hReadable other hOther).2 hGap
    exact decide_eq_true (UInt64.le_of_lt (UInt64.lt_of_lt_of_le hEarlier hStart))
  · exact decide_eq_false (UInt64.not_le.mpr (UInt64.lt_of_le_of_lt hFinish hGap))

/-- A lookup finds out whether a range lies in one stored region. -/
theorem contains_iff {map : RegionMap} (hApart : map.regions.Pairwise Precedes)
    (hReadable : ∀ run ∈ map.regions, run.Readable) {address : Address} {length : Nat} :
    map.contains address length = true ↔ ∃ run ∈ map.regions,
      run.start.toNat ≤ address.toNat ∧ address.toNat + length ≤ run.finish.toNat := by
  unfold contains Address.rangeEnd?
  constructor
  · intro h
    split at h
    · rename_i finish run hFinish hRun
      have hEnd := Address.ofPosition?_eq_some_iff.mp hFinish
      have hMem := List.mem_of_getLast? hRun
      have hStart := List.all_eq_true.mp List.all_takeWhile run hMem
      rw [decide_eq_true_iff, UInt64.le_iff_toNat_le] at h hStart
      exact ⟨run, List.takeWhile_sublist _ |>.subset hMem, hStart, hEnd ▸ h⟩
    · cases h
  · intro h
    obtain ⟨run, hRun, hStart, hFinish⟩ := h
    have hAddress : address ≤ run.finish := UInt64.le_iff_toNat_le.mpr (by omega)
    have hBound := run.finish.toNat_lt
    have hEnd : Address.ofPosition? (address.toNat + length) =
        some (address.toNat + length).toUInt64 :=
      if_pos (Nat.lt_of_le_of_lt hFinish hBound)
    rw [hEnd, getLast?_takeWhile hApart hReadable hRun (UInt64.le_iff_toNat_le.mpr hStart) hAddress]
    simp only [decide_eq_true_iff, UInt64.le_iff_toNat_le]
    rw [Address.ofPosition?_eq_some_iff.mp hEnd] at hFinish
    exact hFinish

/-- A map is made of the readable regions among some regions: it stores the largest ranges that they
make up, with the permissions that all parts of a range grant. -/
structure Canonical (map : RegionMap) (regions : List Region) : Prop where
  readable : ∀ stored ∈ map.regions, stored.Readable
  sorted : map.regions.Pairwise fun first second => first.start < second.start
  apart : map.regions.Pairwise Precedes
  protection : ∀ stored ∈ map.regions, stored.protection = .common
    ((regions.filter fun region => region.Readable ∧ region.Within stored).map (·.protection))
  within : ∀ region ∈ regions, region.Readable → ∃ stored ∈ map.regions, region.Within stored
  covers : ∀ position, (∃ stored ∈ map.regions, stored.Covers position) ↔
    ∃ region ∈ regions, region.protection.read = true ∧ region.Covers position

theorem readable_of_covers {region : Region} {position : Nat}
    (hRead : region.protection.read = true) (hCovers : region.Covers position) :
    region.Readable :=
  ⟨hRead, UInt64.lt_iff_toNat_lt.mpr (Nat.lt_of_le_of_lt hCovers.1 hCovers.2)⟩

/-- A region that lies in a stored one is a part of it, so the stored one grants no more. -/
theorem Coalesced.includes {parts stored : List Region} (coalesced : Coalesced parts stored)
    (hParts : ∀ part ∈ parts, part.Readable) {run part : Region} (hRun : run ∈ stored)
    (hPart : part ∈ parts) (within : part.Within run) :
    part.protection.Includes run.protection := by
  obtain ⟨other, hOther, group, makes, hGroup, hMem⟩ := coalesced.used part hPart
  have hWithin := makes.within (fun region h => hParts region (hGroup h)) part hMem
  have hStart := (hParts part hPart).covers_start
  have hHere := within.covers hStart
  obtain rfl := eq_of_reaches coalesced.apart hOther hRun (hWithin.covers hStart).1
    (Nat.le_of_lt (hWithin.covers hStart).2) hHere
  rw [makes.protection]
  exact Protection.includes_common (List.mem_map_of_mem hMem)

theorem Coalesced.canonical {parts stored regions : List Region}
    (coalesced : Coalesced parts stored)
    (hParts : ∀ part, part ∈ parts ↔ part ∈ regions ∧ part.Readable) :
    Canonical ⟨stored⟩ regions := by
  have hReadable : ∀ part ∈ parts, part.Readable := fun part h => ((hParts part).mp h).2
  refine ⟨coalesced.readable hReadable, ?_, coalesced.apart, fun run hRun => ?_, ?_, ?_⟩
  · refine coalesced.apart.imp_of_mem fun hFirst _ hGap => ?_
    exact UInt64.lt_trans (coalesced.readable hReadable _ hFirst).2 hGap
  · have hMem (part : Region) : part ∈ regions.filter (fun region =>
        region.Readable ∧ region.Within run) ↔ part ∈ parts ∧ part.Within run := by
      rw [List.mem_filter, decide_eq_true_iff, hParts, and_assoc]
    obtain ⟨group, makes, hGroup⟩ := coalesced.made run hRun
    have hWithin := makes.within fun part h => hReadable part (hGroup h)
    apply Protection.Includes.antisymm
    · rw [makes.protection]
      refine Protection.common_includes (List.forall_mem_map.mpr fun part hPart => ?_)
      apply Protection.includes_common
      exact List.mem_map_of_mem ((hMem part).mpr ⟨hGroup hPart, hWithin part hPart⟩)
    · refine Protection.common_includes (List.forall_mem_map.mpr fun part hPart => ?_)
      obtain ⟨hPart, within⟩ := (hMem part).mp hPart
      exact coalesced.includes hReadable hRun hPart within
  · intro region hRegion hHere
    exact coalesced.exists_within hReadable region ((hParts region).mpr ⟨hRegion, hHere⟩)
  · intro position
    rw [coalesced.covers_iff hReadable]
    simp only [hParts]
    constructor
    · intro h
      obtain ⟨part, ⟨hPart, hHere⟩, hCovers⟩ := h
      exact ⟨part, hPart, hHere.1, hCovers⟩
    · intro h
      obtain ⟨region, hRegion, hRead, hCovers⟩ := h
      exact ⟨region, ⟨hRegion, readable_of_covers hRead hCovers⟩, hCovers⟩

/-- What is kept of regions that do not finish before they start. -/
theorem takesPart_iff {region : Region} (hForward : ¬ region.finish < region.start) :
    (!region.isEmpty && region.protection.read) = true ↔ region.Readable := by
  rw [Bool.and_eq_true, Bool.not_eq_true', isEmpty, beq_eq_false_iff_ne, and_comm]
  refine and_congr_right fun _ => ?_
  rw [UInt64.lt_iff_toNat_lt] at hForward ⊢
  rw [Ne, ← UInt64.toNat_inj]
  omega

/-- A map that leaves out nothing is joined from the readable regions, each of them. -/
theorem coalesced_of_ofRegions {regions : List Region} {map : RegionMap}
    (hMap : ofRegions regions = .ok map) : ∃ parts,
      (∀ part, part ∈ parts ↔ part ∈ regions ∧ part.Readable) ∧ Coalesced parts map.regions := by
  unfold ofRegions build at hMap
  cases hReversed : regions.find? (fun region => region.finish < region.start) with
  | some region =>
      rw [hReversed] at hMap
      cases hMap
  | none =>
      rw [hReversed] at hMap
      have hForward (region : Region) (hRegion : region ∈ regions) :
          ¬ region.finish < region.start := by
        simpa using List.find?_eq_none.mp hReversed region hRegion
      simp only at hMap
      generalize hSorted : List.mergeSort _ _ = sorted at hMap
      have hMem (part : Region) : part ∈ sorted ↔ part ∈ regions ∧ part.Readable := by
        rw [← hSorted, (List.mergeSort_perm _ _).mem_iff, List.mem_filter]
        exact and_congr_right fun hPart => takesPart_iff (hForward part hPart)
      refine ⟨sorted, hMem, ?_⟩
      cases sorted with
      | nil =>
          obtain rfl := Except.ok.inj hMap
          exact ⟨nofun, nofun, .nil⟩
      | cons first rest =>
          have hReadable : ∀ part ∈ first :: rest, part.Readable :=
            fun part h => ((hMem part).mp h).2
          obtain ⟨hFirst, hRest⟩ := List.forall_mem_cons.mp hReadable
          cases hStored : coalesce .refuse first rest with
          | error error =>
              simp only [hStored] at hMap
              cases hMap
          | ok stored =>
              simp only [hStored] at hMap
              obtain rfl := Except.ok.inj hMap
              obtain ⟨kept, -, hAll, coalesced, -⟩ := coalesced_of_coalesce (.single first)
                (List.forall_mem_singleton.mpr hFirst) hRest hStored
              rwa [hAll rfl] at coalesced

/-- Whether a range may be read depends on its bytes alone. -/
theorem Canonical.contains_iff {map : RegionMap} {regions : List Region}
    (canonical : map.Canonical regions) (address : Address) {length : Nat} (hLength : 1 ≤ length) :
    map.contains address length = true ↔
      (∀ position, address.toNat ≤ position → position < address.toNat + length →
        ∃ region ∈ regions, region.protection.read = true ∧ region.Covers position) ∧
      address.toNat + length ≤ UInt64.size := by
  rw [RegionMap.contains_iff canonical.apart canonical.readable]
  simp only [← canonical.covers]
  constructor
  · intro h
    obtain ⟨run, hRun, hStart, hFinish⟩ := h
    have hBound := run.finish.toNat_lt_size
    exact ⟨fun position hLow hHigh => ⟨run, hRun, by omega, by omega⟩, by omega⟩
  · intro h
    obtain ⟨hBytes, -⟩ := h
    obtain ⟨run, hRun, hCovers⟩ := hBytes address.toNat (Nat.le_refl _) (by omega)
    refine ⟨run, hRun, hCovers.1, ?_⟩
    -- The byte after the region would lie in another one without a gap between the two.
    by_contra hShort
    have hLow := hCovers.2
    obtain ⟨next, hNext, hAfter⟩ := hBytes run.finish.toNat (by omega) (by omega)
    obtain rfl := eq_of_reaches canonical.apart hRun hNext
      (Nat.le_trans hCovers.1 (Nat.le_of_lt hLow)) (Nat.le_refl _) hAfter
    exact Nat.lt_irrefl _ hAfter.2

/-- The map of some regions is canonical. It tells for every range whether all its bytes may be
read, and for an empty range whether its address borders on one that may. -/
theorem ofRegions_canonical {regions : List Region} {map : RegionMap}
    (hMap : ofRegions regions = .ok map) :
    map.Canonical regions ∧ ∀ address : Address,
      (∀ length, 1 ≤ length → (map.contains address length = true ↔
        (∀ position, address.toNat ≤ position → position < address.toNat + length →
          ∃ region ∈ regions, region.protection.read = true ∧ region.Covers position) ∧
        address.toNat + length ≤ UInt64.size)) ∧
      (map.contains address 0 = true ↔
        ∃ stored ∈ map.regions, stored.start ≤ address ∧ address ≤ stored.finish) := by
  obtain ⟨parts, hParts, coalesced⟩ := coalesced_of_ofRegions hMap
  have canonical : map.Canonical regions := coalesced.canonical hParts
  refine ⟨canonical, fun address => ⟨fun length => canonical.contains_iff address, ?_⟩⟩
  simp only [RegionMap.contains_iff canonical.apart canonical.readable, Nat.add_zero,
    UInt64.le_iff_toNat_le]

/-- Data, a page that is shared, code right before the data, and a guard page right after it. -/
def mappedRegions : List Region :=
  [⟨0x4000, 0x5000, ⟨true, true, false, false⟩⟩, ⟨0x9000, 0xa000, ⟨true, true, false, true⟩⟩,
    ⟨0x1000, 0x4000, ⟨true, false, true, false⟩⟩, ⟨0x5000, 0x6000, ⟨false, false, false, false⟩⟩]

/-- Code and data are one range that may only be read. -/
def mappedRanges : RegionMap :=
  ⟨[⟨0x1000, 0x5000, .readOnly⟩, ⟨0x9000, 0xa000, ⟨true, true, false, true⟩⟩]⟩

theorem ofRegions_mappedRegions : ofRegions mappedRegions = .ok mappedRanges := by
  simp [ofRegions, build, mappedRegions, mappedRanges, List.mergeSort, Region.isEmpty, coalesce,
    Protection.inter, Protection.readOnly, Except.map, pure, Except.pure, bind, Except.bind]

theorem ofRegions_canonical_mapped :
    ofRegions mappedRegions = .ok mappedRanges ∧ mappedRanges.Canonical mappedRegions ∧
      ∀ position, 0x3ff0 ≤ position → position < 0x3ff0 + 0x1010 →
        ∃ region ∈ mappedRegions, region.protection.read = true ∧ region.Covers position := by
  obtain ⟨canonical, hContains⟩ := ofRegions_canonical ofRegions_mappedRegions
  have hSpanning : mappedRanges.contains 0x3ff0 0x1010 = true := by decide
  exact ⟨ofRegions_mappedRegions, canonical,
    (((hContains 0x3ff0).1 0x1010 (by decide)).mp hSpanning).1⟩

end RegionMap

end Conformance
