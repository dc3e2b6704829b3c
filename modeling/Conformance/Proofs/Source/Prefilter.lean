import Conformance.Proofs.Itinerary
import Conformance.Proofs.Region.Listing
import Conformance.Proofs.Source.Readable
/-! What a region map keeps from the kernel. A range reaches the kernel only if it lies in one
region of the map, and so does each piece of a range that is tested piece by piece. Nothing is
assumed of the kernel: it may answer the same range differently each time. -/
namespace Conformance

namespace Probe

variable {α β : Type}

/-- A computation asks for allowed ranges only, whatever it is answered. `overruns` says whether an
address computation may pass the end of the address space on the way. -/
inductive Confined (allowed : Address → Nat → Prop) (overruns : Prop) : Probe α → Prop where
  | done (result : α) : Confined allowed overruns (.done result)
  | read {address : Address} {length : Nat} {next : Option (List UInt8) → Probe α}
      (hAllowed : allowed address length)
      (rest : ∀ answer, Confined allowed overruns (next answer)) :
      Confined allowed overruns (.read address length next)
  | overrun {next : Probe α} (hOverruns : overruns) (rest : Confined allowed overruns next) :
      Confined allowed overruns (.overrun next)

variable {allowed wider : Address → Nat → Prop} {overruns more : Prop} {p : Probe α}

theorem Confined.mono (confined : p.Confined allowed overruns)
    (hAllowed : ∀ address length, allowed address length → wider address length)
    (hOverruns : overruns → more) : p.Confined wider more := by
  induction confined with
  | done result => exact .done result
  | read hHere rest ih => exact .read (hAllowed _ _ hHere) ih
  | overrun hHere rest ih => exact .overrun (hOverruns hHere) ih

theorem confined_bind {f : α → Probe β} (confined : p.Confined allowed overruns)
    (hNext : ∀ a, (f a).Confined allowed overruns) : (p >>= f).Confined allowed overruns := by
  change (p.bind f).Confined _ _
  induction confined with
  | done result => exact hNext result
  | read hAllowed rest ih => exact .read hAllowed ih
  | overrun hOverruns rest ih => exact .overrun hOverruns ih

theorem confined_fetch {address : Address} {position length : Nat} {decode : List UInt8 → α}
    (hPosition : address.toNat = position) (hAllowed : allowed address length) :
    (fetch position length decode).Confined allowed overruns := by
  unfold fetch
  rw [Address.ofPosition?_eq_some_iff.mpr hPosition.symm]
  exact .read hAllowed fun answer => .done _

/-- A computation whose reads are answered by confined computations asks for nothing else. -/
theorem confined_through {answering : Address → Nat → Probe (Option (List UInt8))}
    (hAnswering : ∀ address length, (answering address length).Confined allowed overruns)
    (hOverruns : overruns) (p : Probe α) : (p.through answering).Confined allowed overruns := by
  induction p with
  | done result => exact .done result
  | read address length next ih => exact confined_bind (hAnswering address length) ih
  | overrun next ih => exact .overrun hOverruns ih

end Probe

namespace RegionMap

variable {map : RegionMap}

/-- A map that was built from some regions, or from a listing of mappings. -/
def Built (map : RegionMap) : Prop :=
  (∃ regions, ofRegions regions = .ok map) ∨ ∃ text, ofListing text = .ok map

/-- A range that is worth asking for: it has a byte, does not touch the end of the address space,
and lies in one readable region of the map as a whole. -/
structure Encloses (map : RegionMap) (address : Address) (length : Nat) : Prop where
  nonempty : 1 ≤ length
  end_lt : address.toNat + length < UInt64.size
  region : ∃ region ∈ map.regions, region.Readable ∧
    region.start.toNat ≤ address.toNat ∧ address.toNat + length ≤ region.finish.toNat

instance (map : RegionMap) (address : Address) (length : Nat) :
    Decidable (map.Encloses address length) :=
  decidable_of_iff (1 ≤ length ∧ address.toNat + length < UInt64.size ∧
      ∃ region ∈ map.regions, region.Readable ∧
        region.start.toNat ≤ address.toNat ∧ address.toNat + length ≤ region.finish.toNat)
    ⟨fun h => ⟨h.1, h.2.1, h.2.2⟩, fun h => ⟨h.nonempty, h.end_lt, h.region⟩⟩

/-- The regions that a listing leaves out might as well not be listed. -/
theorem Built.exists_ofRegions (built : map.Built) : ∃ regions, ofRegions regions = .ok map := by
  rcases built with hRegions | ⟨text, hListing⟩
  · exact hRegions
  · obtain ⟨regions, -, hBuild⟩ := parseLines_of_ofListing hListing
    rw [build_keepEarlier_eq_ofRegions (forward_of_build hBuild)] at hBuild
    exact ⟨_, hBuild⟩

/-- Every piece of a range that a map contains lies in a region of the map. -/
theorem Built.encloses (built : map.Built) {address : Address} {length : Nat}
    (hContains : map.contains address length = true) {first : Address} {size : Nat}
    (hSize : 1 ≤ size) (hLow : address.toNat ≤ first.toNat)
    (hHigh : first.toNat + size ≤ address.toNat + length) : map.Encloses first size := by
  obtain ⟨regions, hMap⟩ := built.exists_ofRegions
  obtain ⟨parts, hParts, coalesced⟩ := coalesced_of_ofRegions hMap
  have hReadable := coalesced.readable fun part h => ((hParts part).mp h).2
  obtain ⟨region, hRegion, hStart, hFinish⟩ := (contains_iff coalesced.apart hReadable).mp hContains
  have hBound := region.finish.toNat_lt_size
  exact ⟨hSize, by omega, region, hRegion, hReadable region hRegion, by omega, by omega⟩

theorem contains_eq_false (hEmpty : map.regions = []) (address : Address) (length : Nat) :
    map.contains address length = false := by
  unfold contains
  rw [hEmpty]
  cases Address.rangeEnd? address length <;> rfl

end RegionMap

namespace LiveMemory

open Probe

/-- The memory of a running process behind a region map. -/
def behind (map : RegionMap) : LiveMemory := ⟨some map⟩

variable {map : RegionMap}

/-- Asking in chunks asks for pieces of the range: none of them is empty, and none starts where the
address space has no address. -/
theorem confined_askInChunks {chunks position length : Nat}
    (hNeeded : chunks * chunk < length + chunk) (hEnd : position + length < UInt64.size) :
    (askInChunks chunks position length).Confined
      (fun first size => 1 ≤ size ∧ size ≤ chunk ∧ position ≤ first.toNat ∧
        first.toNat + size ≤ position + length) False := by
  have hChunk : chunk = 256 := rfl
  induction chunks generalizing position length with
  | zero => exact .done true
  | succ chunks ih =>
      rw [Nat.succ_mul] at hNeeded
      have hPosition : position.toUInt64.toNat = position :=
        UInt64.toNat_ofNat_of_lt (by omega)
      refine confined_bind (confined_fetch hPosition (by omega)) fun answer => ?_
      cases answer with
      | none => exact .done false
      | some bytes =>
          -- A chunk is asked for only while a part of the range is left, so the next one is not
          -- beyond the end.
          cases chunks with
          | zero => exact .done true
          | succ chunks =>
              rw [Nat.succ_mul] at hNeeded
              refine (@ih (position + chunk) (length - chunk) (by rw [Nat.succ_mul]; omega)
                (by omega)).mono (fun first size h => ?_) id
              omega

theorem confined_read (built : map.Built) (address : Address) (length : Nat) :
    ((behind map).read address length).Confined map.Encloses False := by
  unfold read
  split_ifs with hAdmits hEmpty
  · exact .done (some [])
  · have hInside :=
      built.encloses hAdmits (Nat.pos_of_ne_zero hEmpty) (Nat.le_refl _) (Nat.le_refl _)
    exact .read hInside fun answer => .done answer
  · exact .done none

theorem confined_isReadable (built : map.Built) (address : Address) (length : Nat) :
    ((behind map).isReadable address length).Confined
      (fun first size => map.Encloses first size ∧ size ≤ chunk ∧ address.toNat ≤ first.toNat ∧
        first.toNat + size ≤ address.toNat + length) False := by
  unfold isReadable
  split_ifs with hAdmits
  · have hNeeded : (length + (chunk - 1)) / chunk * chunk < length + chunk := by
      unfold chunk
      omega
    refine (confined_askInChunks hNeeded (lt_size_of_admits hAdmits)).mono
      (fun first size h => ?_) id
    obtain ⟨hSize, hChunk, hLow, hHigh⟩ := h
    exact ⟨built.encloses hAdmits hSize hLow hHigh, hChunk, hLow, hHigh⟩
  · exact .done false

/-- Behind a map without regions nothing is asked for, and every range is refused, the empty range
included. -/
theorem refuses_of_empty (hEmpty : map.regions = []) (address : Address) (length : Nat) :
    (behind map).read address length = pure none ∧
      (behind map).isReadable address length = pure false := by
  have hRefused : ¬ (behind map).admits address length = true := by
    change ¬ map.contains address length = true
    rw [RegionMap.contains_eq_false hEmpty]
    exact Bool.false_ne_true
  exact ⟨if_neg hRefused, if_neg hRefused⟩

end LiveMemory

namespace Layout

variable (layout : Layout) {reader : Reader}

theorem run_follow_of_refusing (hRefuses : ∀ address length, reader address length = none)
    (base : Address) (path : Path) : (layout.follow base path).run reader = none := by
  have hPointer (position : Nat) : (layout.readPointer position).run reader = none := by
    unfold readPointer
    rw [Probe.run_fetch]
    cases Address.ofPosition? position <;> simp [hRefuses]
  have hHop (hop : Hop) : (layout.readHop base hop).run reader = none := by
    unfold readHop
    rw [Probe.run_bind, hPointer]
    rfl
  unfold follow Path.hops followHops
  rw [Probe.run_bind, hHop]
  rfl

end Layout

/-- What a query reports that may read nothing: that a read was refused, unless it gives up before
its first read. -/
def Query.unread (inspector : Inspector) : Query → Anomaly
  | .ofObject object protocol => if object = 0 ∨ protocol = 0 then .nullAddress else .invalidRead
  | .ofType type protocol => if type = 0 ∨ protocol = 0 then .nullAddress else .invalidRead
  | .ofComposition object composition =>
      if object = 0 ∨ composition = 0 then .nullAddress
      else if inspector.layout.composition.isNone then .notAComposition
      else .invalidRead

theorem Trace.flag_flag (trace : Trace) (anomaly : Anomaly) :
    (trace.flag anomaly).flag anomaly = trace.flag anomaly := by
  have hOnce :
      (trace.anomalies.insert anomaly).insert anomaly = trace.anomalies.insert anomaly := by
    ext other
    simp only [Anomalies.mem_insert, or_self_left]
  unfold Trace.flag
  rw [hOnce]

namespace Inspector

variable {inspector : Inspector} {reader : Reader}

/-- The superclass of a type and its list are both refused, which is noted once. -/
theorem run_searchAncestry_of_refusing (hRefuses : ∀ address length, reader address length = none)
    (target type : Address) (trace : Trace) :
    (inspector.searchAncestry target type trace).run reader =
      (false, trace.flag .invalidRead) := by
  have hFollow := inspector.layout.run_follow_of_refusing hRefuses type
  unfold searchAncestry visitAncestry climb searchType
  simp only [Probe.run_bind, hFollow, Probe.run_pure]
  exact congrArg (Prod.mk false) (trace.flag_flag .invalidRead)

theorem run_query_of_refusing (hRefuses : ∀ address length, reader address length = none)
    (query : Query) :
    (query.probe inspector).run reader = .rejected (query.unread inspector) := by
  have hFollow := inspector.layout.run_follow_of_refusing hRefuses
  have hAncestry (protocol type : Address) :=
    @run_searchAncestry_of_refusing inspector reader hRefuses protocol type
      (.start inspector.limits)
  cases query with
  | ofObject object protocol =>
      unfold Query.probe verdict Query.unread typeOf
      dsimp only
      split_ifs
      · rfl
      · simp only [Probe.run_bind, hFollow, Probe.run_pure]
  | ofType type protocol =>
      unfold Query.probe typeVerdict Query.unread
      dsimp only
      split_ifs
      · rfl
      · rw [Probe.run_bind, hAncestry]
        rfl
  | ofComposition object composition =>
      unfold Query.probe compositionVerdict Query.unread
      dsimp only
      split_ifs with hNull hEncoding
      · rfl
      · rw [Option.isNone_iff_eq_none.mp hEncoding]
        rfl
      · obtain ⟨encoding, hEncoding⟩ := Option.ne_none_iff_exists'.mp
          (Option.isNone_iff_eq_none.not.mp hEncoding)
        have hWord (position : Nat) : (inspector.layout.readWord position).run reader = none := by
          unfold Layout.readWord
          rw [Probe.run_fetch]
          cases Address.ofPosition? position <;> simp [hRefuses]
        rw [hEncoding]
        unfold readHeader
        simp only [Probe.run_bind, hWord, Probe.run_pure]

end Inspector

namespace LiveMemory

variable {map : RegionMap}

/-- The prefilter is a complete guard. Every range that a read, a test or a query hands to the
kernel is enclosed by a region of the map, whatever the kernel answers on the way, and a range that
is tested is taken apart within its bounds; what a query does with the reads of the memory is what
it does with the reads of the kernel. Behind a map without regions the kernel is never asked, and
nothing is readable. -/
theorem confined_of_built (built : map.Built) :
    (∀ address length,
      ((behind map).read address length).Confined map.Encloses False ∧
      ((behind map).isReadable address length).Confined
        (fun first size => map.Encloses first size ∧ size ≤ chunk ∧
          address.toNat ≤ first.toNat ∧ first.toNat + size ≤ address.toNat + length) False) ∧
    (∀ (inspector : Inspector) (query : Query),
      ((query.probe inspector).through (behind map).read).Confined map.Encloses True ∧
      ∀ kernel, ((query.probe inspector).through (behind map).read).run kernel =
        ((behind map).source kernel).run (query.probe inspector)) ∧
    (map.regions = [] →
      (∀ address length, (behind map).read address length = pure none ∧
        (behind map).isReadable address length = pure false) ∧
      ∀ (inspector : Inspector) (query : Query),
        ((query.probe inspector).through (behind map).read).Confined (fun _ _ => False) True ∧
        ∀ kernel, ((behind map).source kernel).run (query.probe inspector) =
          .rejected (query.unread inspector)) := by
  refine ⟨fun address length => ⟨?_, ?_⟩, fun inspector query => ⟨?_, fun kernel => ?_⟩,
    fun hEmpty => ⟨refuses_of_empty hEmpty, fun inspector query => ⟨?_, fun kernel => ?_⟩⟩⟩
  · exact confined_read built address length
  · exact confined_isReadable built address length
  · exact Probe.confined_through (fun address length =>
      (confined_read built address length).mono (fun _ _ h => h) False.elim) trivial _
  · exact Probe.run_through kernel _ _
  · refine Probe.confined_through (fun address length => ?_) trivial _
    rw [(refuses_of_empty hEmpty address length).1]
    exact .done none
  · refine Inspector.run_query_of_refusing (fun address length => ?_) query
    change ((behind map).read address length).run kernel = none
    rw [(refuses_of_empty hEmpty address length).1]
    rfl

/-- A query of a process never asks for what follows its data, and behind the empty map it is told
of a refused read. -/
theorem confined_of_built_mapped :
    RegionMap.mappedRanges.Built ∧ RegionMap.empty.Built ∧
      (∀ (inspector : Inspector) (query : Query),
        ((query.probe inspector).through (behind RegionMap.mappedRanges).read).Confined
          RegionMap.mappedRanges.Encloses True) ∧
      RegionMap.mappedRanges.Encloses 0x3ff0 0x1010 ∧
      ¬ RegionMap.mappedRanges.Encloses 0x4ff8 0x10 ∧
      ∀ kernel, ((behind .empty).source kernel).run
        (Query.probe ⟨Runtime.compact64.layout, .default⟩ (.ofType 0x1000 0x2000)) =
          .rejected .invalidRead := by
  have hMapped : RegionMap.mappedRanges.Built := .inl ⟨_, RegionMap.ofRegions_mappedRegions⟩
  have hNothing : RegionMap.empty.Built := .inl ⟨[], by simp [RegionMap.ofRegions, RegionMap.build]⟩
  obtain ⟨-, hQueries, -⟩ := confined_of_built hMapped
  obtain ⟨-, -, hEmpty⟩ := confined_of_built hNothing
  refine ⟨hMapped, hNothing, fun inspector query => (hQueries inspector query).1, by decide,
    by decide, fun kernel => ?_⟩
  exact ((hEmpty rfl).2 _ _).2 kernel

end LiveMemory

end Conformance
