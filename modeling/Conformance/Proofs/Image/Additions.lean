import Conformance.Proofs.Extension
import Conformance.Proofs.Image.Edits
/-! Images that grow. A segment that is added has no byte in common with the segments that are
there, so each of these still answers for the ranges inside it, and no read that was granted
changes. -/
namespace Conformance

namespace Image

open Segment

/-- The image with more segments, if it admits each of them after those before it. -/
def addSegments (image : Image) : List (Address × Buffer) → Except Error Image
  | [] => .ok image
  | (base, bytes) :: rest =>
      match image.addSegment base bytes with
      | .error error => .error error
      | .ok after => after.addSegments rest

variable {image after : Image}

theorem mem_addSegment_iff {base : Address} {bytes : Buffer} {segment : Segment}
    (h : image.addSegment base bytes = .ok after) :
    segment ∈ after.segments ↔ segment = ⟨base, bytes⟩ ∨ segment ∈ image.segments := by
  rw [(perm_addSegment h).mem_iff, List.mem_cons]

/-- The last segment to start at an address or before reaches the address if any segment does. At a
seam this is the segment that starts there. -/
theorem Sound.exists_getLast?_takeWhile (sound : image.Sound) {segment : Segment}
    {address : Address} (hSegment : segment ∈ image.segments) (hStart : segment.base ≤ address)
    (hEnd : address.toNat ≤ segment.finish) :
    ∃ last, (image.segments.takeWhile (·.base ≤ address)).getLast? = some last ∧
      last.base ≤ address ∧ address.toNat ≤ last.finish := by
  by_cases hCovered : image.Covers address.toNat
  · obtain ⟨last, hLast, hCovers⟩ := hCovered
    exact ⟨last, sound.getLast?_takeWhile hLast hCovers, UInt64.le_iff_toNat_le.mpr hCovers.1,
      Nat.le_of_lt hCovers.2⟩
  · -- No segment starts at the end of this one.
    refine ⟨segment, ?_, hStart, hEnd⟩
    have hSelf : ¬ segment.Covers address.toNat := fun h => hCovered ⟨segment, hSegment, h⟩
    refine getLast?_takeWhile_of_pairwise sound.precedes hSegment (decide_eq_true hStart)
      (fun other _ hOrder => ?_) fun other hOther hOrder => ?_
    · refine decide_eq_true (UInt64.le_trans ?_ hStart)
      exact UInt64.le_iff_toNat_le.mpr (Nat.le_trans (base_le_finish other) hOrder)
    · refine decide_eq_false fun hBefore => hCovered ⟨other, hOther, ?_⟩
      have hBase := UInt64.le_iff_toNat_le.mp hBefore
      have hHere : address.toNat = other.base.toNat :=
        Nat.le_antisymm (Nat.le_trans hEnd hOrder) hBase
      exact hHere ▸ covers_base (sound.nonempty other hOther)

/-- A range inside a segment is read from there. -/
theorem Sound.read_of_inside (sound : image.Sound) {segment : Segment} {address : Address}
    {length : Nat} (hSegment : segment ∈ image.segments) (hStart : segment.base ≤ address)
    (hEnd : address.toNat + length ≤ segment.finish) :
    image.read address length =
      segment.bytes.slice? (address.toNat - segment.base.toNat) length := by
  have hSlice {holder : Segment} (hBase : holder.base ≤ address)
      (hFinish : address.toNat ≤ holder.finish) :
      holder.bytes.slice? (address.toNat - holder.base.toNat) 0 = some [] := by
    refine Buffer.slice?_zero ?_
    rw [UInt64.le_iff_toNat_le] at hBase
    unfold finish at hFinish
    omega
  cases length with
  | zero =>
      obtain ⟨last, hLast, hBase, hFinish⟩ :=
        sound.exists_getLast?_takeWhile hSegment hStart hEnd
      have hRange : Address.rangeEnd? address 0 = some address :=
        Address.ofPosition?_eq_some_iff.mpr rfl
      unfold read holder?
      simp only [hRange, hLast, Option.bind_eq_bind, Option.bind_some, if_pos hFinish]
      rw [hSlice hBase hFinish, hSlice hStart hEnd]
  | succ length =>
      have hHolder : image.holder? address (length + 1) = some segment :=
        (sound.holder?_eq_some_iff (Nat.le_add_left 1 length)).mpr ⟨hSegment, hStart, hEnd⟩
      unfold read
      rw [hHolder]
      rfl

/-- A new segment changes no read that was granted. -/
theorem Sound.read_addSegment (sound : image.Sound) {base : Address} {bytes : Buffer}
    (h : image.addSegment base bytes = .ok after) : Reader.Extends after.read image.read := by
  intro address length contents hRead
  obtain ⟨segment, hHolder, -⟩ := Option.bind_eq_some_iff.mp hRead
  obtain ⟨hSegment, hStart, hEnd⟩ := holds_of_holder? hHolder
  rw [sound.read_of_inside hSegment hStart hEnd] at hRead
  rwa [(sound.addSegment h).read_of_inside ((mem_addSegment_iff h).mpr (.inr hSegment)) hStart hEnd]

/-- Nor does a run of new segments. -/
theorem Sound.read_addSegments (sound : image.Sound) {additions : List (Address × Buffer)}
    (h : image.addSegments additions = .ok after) : Reader.Extends after.read image.read := by
  induction additions generalizing image with
  | nil =>
      obtain rfl := Except.ok.inj h
      exact .refl _
  | cons addition rest ih =>
      obtain ⟨base, bytes⟩ := addition
      unfold addSegments at h
      split at h
      · cases h
      · rename_i next hNext
        exact (sound.read_addSegment hNext).trans (ih (sound.addSegment hNext) h)

end Image

end Conformance
