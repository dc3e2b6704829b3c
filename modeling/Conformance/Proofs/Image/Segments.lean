import Conformance.Memory.Image
import Conformance.Proofs.Neighbours
import Mathlib.Tactic.ByContra
import Mathlib.Tactic.SplitIfs
/-! The segments of an image. In a sound image they ascend with no byte in common, so the neighbours
of an address say everything about it: the one segment that can hold a range is the last to start
before it, and a new segment that is apart from its two neighbours is apart from all others. -/
namespace Conformance

namespace Segment

/-- The segment has a byte at a position. -/
def Covers (segment : Segment) (position : Nat) : Prop :=
  segment.base.toNat ≤ position ∧ position < segment.finish

/-- The segment ends before another one starts, or right there. -/
def Precedes (first second : Segment) : Prop := first.finish ≤ second.base.toNat

theorem base_le_finish (segment : Segment) : segment.base.toNat ≤ segment.finish :=
  Nat.le_add_right _ _

theorem covers_base {segment : Segment} (hBytes : segment.bytes ≠ #[]) :
    segment.Covers segment.base.toNat := by
  have hSize : 0 < segment.bytes.size := Array.size_pos_iff.mpr hBytes
  unfold Covers finish
  omega

end Segment

namespace Image

open Segment

/-- Segments hold something, end inside the address space, ascend, and have no byte in common. -/
structure Sound (image : Image) : Prop where
  nonempty : ∀ segment ∈ image.segments, segment.bytes ≠ #[]
  finish_lt : ∀ segment ∈ image.segments, segment.finish < UInt64.size
  ascending : image.segments.Pairwise fun first second => first.base < second.base
  disjoint : image.segments.Pairwise fun first second =>
    ∀ position, ¬ (first.Covers position ∧ second.Covers position)

/-- Some segment has a byte at a position. -/
def Covers (image : Image) (position : Nat) : Prop :=
  ∃ segment ∈ image.segments, segment.Covers position

/-- Some byte of a range belongs to a segment already. -/
def Meets (image : Image) (base : Address) (length : Nat) : Prop :=
  ∃ position, base.toNat ≤ position ∧ position < base.toNat + length ∧ image.Covers position

/-- Segments of which each precedes the later ones make a sound image. -/
theorem sound_of_precedes {segments : List Segment}
    (hNonempty : ∀ segment ∈ segments, segment.bytes ≠ #[])
    (hFinish : ∀ segment ∈ segments, segment.finish < UInt64.size)
    (hOrder : segments.Pairwise Precedes) : Sound ⟨segments⟩ := by
  refine ⟨hNonempty, hFinish, hOrder.imp_of_mem fun hFirst _ h => ?_, hOrder.imp fun h => ?_⟩
  · have hRoom := covers_base (hNonempty _ hFirst)
    exact UInt64.lt_iff_toNat_lt.mpr (Nat.lt_of_lt_of_le hRoom.2 h)
  · intro position hBoth
    obtain ⟨⟨-, hBefore⟩, ⟨hAfter, -⟩⟩ := hBoth
    exact Nat.lt_irrefl _ (Nat.lt_of_lt_of_le hBefore (Nat.le_trans h hAfter))

theorem sound_empty : empty.Sound := by
  refine sound_of_precedes ?_ ?_ .nil
  · simp
  · simp

variable {image : Image}

theorem Sound.precedes (sound : image.Sound) : image.segments.Pairwise Precedes := by
  refine (sound.ascending.and sound.disjoint).imp_of_mem fun _ hSecond h => ?_
  obtain ⟨hAscending, hDisjoint⟩ := h
  have hStart := UInt64.lt_iff_toNat_lt.mp hAscending
  -- Otherwise the first byte of the second segment would be in both.
  by_contra hOverlap
  exact hDisjoint _ ⟨⟨Nat.le_of_lt hStart, Nat.lt_of_not_le hOverlap⟩,
    covers_base (sound.nonempty _ hSecond)⟩

/-- What is found to hold a range holds it. -/
theorem holds_of_holder? {address : Address} {length : Nat} {segment : Segment}
    (h : image.holder? address length = some segment) :
    segment ∈ image.segments ∧ segment.base ≤ address ∧
      address.toNat + length ≤ segment.finish := by
  unfold holder? at h
  simp only [Option.bind_eq_bind, Option.bind_eq_some_iff] at h
  obtain ⟨finish, hFinish, found, hFound, hInside⟩ := h
  split_ifs at hInside with hEnd
  obtain rfl := Option.some.inj hInside
  have hMem := List.mem_of_getLast? hFound
  have hStart := List.all_eq_true.mp (List.all_takeWhile (l := image.segments)) found hMem
  rw [← Address.ofPosition?_eq_some_iff.mp hFinish] at hEnd
  exact ⟨(List.takeWhile_sublist _).mem hMem, of_decide_eq_true hStart, hEnd⟩

/-- The segment that covers an address is the last one to start there or before. -/
theorem Sound.getLast?_takeWhile (sound : image.Sound) {segment : Segment}
    (hSegment : segment ∈ image.segments) {address : Address}
    (hCovers : segment.Covers address.toNat) :
    (image.segments.takeWhile (·.base ≤ address)).getLast? = some segment := by
  have hHere := UInt64.le_iff_toNat_le.mpr hCovers.1
  refine getLast?_takeWhile_of_pairwise sound.precedes hSegment (decide_eq_true hHere)
    (fun other _ hOrder => ?_) fun other _ hOrder => ?_
  · refine decide_eq_true (UInt64.le_trans ?_ hHere)
    exact UInt64.le_iff_toNat_le.mpr (Nat.le_trans (base_le_finish other) hOrder)
  · refine decide_eq_false fun hStart => ?_
    have hBeyond := Nat.lt_of_lt_of_le hCovers.2 hOrder
    exact Nat.not_le_of_lt hBeyond (UInt64.le_iff_toNat_le.mp hStart)

/-- A range that is not empty is held by the segment that has all its bytes. -/
theorem Sound.holder?_eq_some_iff (sound : image.Sound) {address : Address} {length : Nat}
    (hLength : 1 ≤ length) {segment : Segment} :
    image.holder? address length = some segment ↔ segment ∈ image.segments ∧
      segment.base ≤ address ∧ address.toNat + length ≤ segment.finish := by
  refine ⟨holds_of_holder?, fun h => ?_⟩
  obtain ⟨hSegment, hStart, hEnd⟩ := h
  have hFinish := sound.finish_lt segment hSegment
  have hRange : Address.rangeEnd? address length = some (address.toNat + length).toUInt64 :=
    if_pos (Nat.lt_of_le_of_lt hEnd hFinish)
  have hLast := sound.getLast?_takeWhile hSegment
    ⟨UInt64.le_iff_toNat_le.mp hStart, (by omega : address.toNat < segment.finish)⟩
  unfold holder?
  rw [hRange, hLast]
  simp only [Option.bind_eq_bind, Option.bind_some]
  rw [← Address.ofPosition?_eq_some_iff.mp hRange, if_pos hEnd]

theorem Sound.isReadable_one_iff (sound : image.Sound) {address : Address} :
    image.isReadable address 1 = true ↔ image.Covers address.toNat := by
  rw [isReadable, Option.isSome_iff_exists]
  refine exists_congr fun segment => ?_
  rw [sound.holder?_eq_some_iff (Nat.le_refl 1), UInt64.le_iff_toNat_le]
  rfl

section Insertion

variable {base finish : Address}

theorem below_append_above (base : Address) :
    image.below base ++ image.above base = image.segments :=
  List.takeWhile_append_dropWhile

/-- An obstacle has a byte in the way. -/
theorem Sound.meets_of_obstacle? (sound : image.Sound) {length : Nat} {other : Segment}
    (hFinish : finish.toNat = base.toNat + length) (hLength : 1 ≤ length)
    (h : image.obstacle? base finish = some other) : image.Meets base length := by
  unfold obstacle? at h
  rcases Option.or_eq_some_iff.mp h with hNext | ⟨-, hPrevious⟩
  · obtain ⟨hHead, hStart⟩ := Option.filter_eq_some_iff.mp hNext
    have hOther : other ∈ image.segments :=
      (List.dropWhile_sublist _).mem (List.mem_of_head? hHead)
    have hAfter := List.head?_dropWhile_not (·.base < base) image.segments
    rw [show (image.segments.dropWhile (·.base < base)).head? = some other from hHead] at hAfter
    have hStart := UInt64.lt_iff_toNat_lt.mp (of_decide_eq_true hStart)
    have hAfter := UInt64.le_iff_toNat_le.mp (UInt64.not_lt.mp (of_decide_eq_false hAfter))
    exact ⟨other.base.toNat, hAfter, hFinish ▸ hStart, other, hOther,
      covers_base (sound.nonempty other hOther)⟩
  · obtain ⟨hLast, hEnd⟩ := Option.filter_eq_some_iff.mp hPrevious
    have hMem := List.mem_of_getLast? hLast
    have hStart := List.all_eq_true.mp (List.all_takeWhile (l := image.segments)) other hMem
    have hStart := UInt64.lt_iff_toNat_lt.mp (of_decide_eq_true hStart)
    exact ⟨base.toNat, Nat.le_refl _, by omega, other, (List.takeWhile_sublist _).mem hMem,
      Nat.le_of_lt hStart, of_decide_eq_true hEnd⟩

/-- Without an obstacle, all segments below end before a range and all others start after it. -/
theorem Sound.apart_of_obstacle? (sound : image.Sound) (h : image.obstacle? base finish = none) :
    (∀ segment ∈ image.below base, segment.finish ≤ base.toNat) ∧
      ∀ segment ∈ image.above base, finish.toNat ≤ segment.base.toNat := by
  have hOrder := sound.precedes
  rw [← below_append_above base] at hOrder
  obtain ⟨hBelow, hAbove, -⟩ := List.pairwise_append.mp hOrder
  unfold obstacle? at h
  obtain ⟨hNext, hPrevious⟩ := Option.or_eq_none_iff.mp h
  constructor
  · refine forall_of_getLast? hBelow (fun last hLast => ?_) fun first second hFirst hSecond => ?_
    · simpa using Option.filter_eq_none_iff.mp hPrevious last hLast
    · exact Nat.le_trans hFirst (Nat.le_trans (base_le_finish second) hSecond)
  · refine forall_of_head? hAbove (fun next hHead => ?_) fun first second hSecond hFirst => ?_
    · simpa [UInt64.le_iff_toNat_le] using Option.filter_eq_none_iff.mp hNext next hHead
    · exact Nat.le_trans hFirst (Nat.le_trans (base_le_finish first) hSecond)

theorem Sound.not_meets_of_obstacle? (sound : image.Sound) {length : Nat}
    (hFinish : finish.toNat = base.toNat + length) (h : image.obstacle? base finish = none) :
    ¬ image.Meets base length := by
  obtain ⟨hBelow, hAbove⟩ := sound.apart_of_obstacle? h
  intro hMeets
  obtain ⟨position, hLow, hHigh, segment, hSegment, hCovers⟩ := hMeets
  rw [← below_append_above base] at hSegment
  obtain ⟨hStart, hEnd⟩ := hCovers
  rcases List.mem_append.mp hSegment with hFirst | hLater
  · have := hBelow segment hFirst
    omega
  · have := hAbove segment hLater
    omega

/-- A segment that nothing stands in the way of can be placed between its neighbours. -/
theorem Sound.insert (sound : image.Sound) {bytes : Buffer} (hBytes : bytes ≠ #[])
    (hFinish : finish.toNat = base.toNat + bytes.size) (h : image.obstacle? base finish = none) :
    Sound ⟨image.below base ++ ⟨base, bytes⟩ :: image.above base⟩ := by
  obtain ⟨hBelow, hAbove⟩ := sound.apart_of_obstacle? h
  have hOrder := sound.precedes
  have hNonempty := sound.nonempty
  have hInside := sound.finish_lt
  rw [← below_append_above base] at hOrder hNonempty hInside
  obtain ⟨hFirst, hLater, hAcross⟩ := List.pairwise_append.mp hOrder
  obtain ⟨hNonemptyBelow, hNonemptyAbove⟩ := List.forall_mem_append.mp hNonempty
  obtain ⟨hInsideBelow, hInsideAbove⟩ := List.forall_mem_append.mp hInside
  have hEnd : (⟨base, bytes⟩ : Segment).finish < UInt64.size := by
    unfold Segment.finish
    rw [← hFinish]
    exact finish.toNat_lt_size
  refine sound_of_precedes ?_ ?_ (List.pairwise_append.mpr ⟨hFirst, ?_, ?_⟩)
  · exact List.forall_mem_append.mpr
      ⟨hNonemptyBelow, List.forall_mem_cons.mpr ⟨hBytes, hNonemptyAbove⟩⟩
  · exact List.forall_mem_append.mpr
      ⟨hInsideBelow, List.forall_mem_cons.mpr ⟨hEnd, hInsideAbove⟩⟩
  · refine List.pairwise_cons.mpr ⟨fun segment hSegment => ?_, hLater⟩
    exact Nat.le_trans (Nat.le_of_eq hFinish.symm) (hAbove segment hSegment)
  · intro segment hSegment
    exact List.forall_mem_cons.mpr ⟨hBelow segment hSegment, hAcross segment hSegment⟩

end Insertion

/-- Segments may be changed as long as each keeps its place. -/
theorem Sound.map (sound : image.Sound) {change : Segment → Segment}
    (hBase : ∀ segment, (change segment).base = segment.base)
    (hSize : ∀ segment, (change segment).bytes.size = segment.bytes.size) :
    Sound ⟨image.segments.map change⟩ := by
  have hFinish (segment : Segment) : (change segment).finish = segment.finish := by
    rw [finish, finish, hBase, hSize]
  refine sound_of_precedes (List.forall_mem_map.mpr fun segment hSegment => ?_)
    (List.forall_mem_map.mpr fun segment hSegment => ?_) (List.pairwise_map.mpr ?_)
  · have hRoom := Array.size_pos_iff.mpr (sound.nonempty segment hSegment)
    exact Array.size_pos_iff.mp (hSize segment ▸ hRoom)
  · exact hFinish segment ▸ sound.finish_lt segment hSegment
  · refine sound.precedes.imp fun {first second} h => ?_
    rwa [Precedes, hFinish, hBase]

/-- A write keeps every segment where it is. -/
theorem Sound.write (sound : image.Sound) {address : Address} {bytes : List UInt8} {after : Image}
    (h : image.write address bytes = .ok after) : after.Sound := by
  unfold Image.write at h
  split at h
  · cases h
  · obtain rfl := Except.ok.inj h
    refine sound.map (fun segment => ?_) fun segment => ?_
    · split_ifs <;> rfl
    · split_ifs
      · exact Buffer.size_overwrite _ _ _
      · rfl

/-- What an image answers to a new segment, in the order in which it looks for reasons to refuse it,
and what it is with a segment that it takes: the same segments, and the new one among them. -/
structure Admits (image : Image) (base : Address) (bytes : Buffer) : Prop where
  empty_iff : image.addSegment base bytes = .error .empty ↔ bytes = #[]
  outOfBounds_iff : image.addSegment base bytes = .error .outOfBounds ↔
    bytes ≠ #[] ∧ UInt64.size ≤ base.toNat + bytes.size
  malformed_iff : (∃ cause, image.addSegment base bytes = .error (.malformed cause)) ↔
    bytes ≠ #[] ∧ base.toNat + bytes.size < UInt64.size ∧ image.Meets base bytes.size
  ok_iff : (∃ after, image.addSegment base bytes = .ok after) ↔
    bytes ≠ #[] ∧ base.toNat + bytes.size < UInt64.size ∧ ¬ image.Meets base bytes.size
  placed : ∀ after, image.addSegment base bytes = .ok after →
    after.segments.Perm (⟨base, bytes⟩ :: image.segments)

/-- What an image admits is placed between its segments. -/
theorem perm_addSegment {base : Address} {bytes : Buffer} {after : Image}
    (h : image.addSegment base bytes = .ok after) :
    after.segments.Perm (⟨base, bytes⟩ :: image.segments) := by
  unfold addSegment at h
  split_ifs at h
  split at h
  · cases h
  · split at h
    · cases h
    · obtain rfl := Except.ok.inj h
      exact List.perm_middle.trans (.of_eq (congrArg _ (below_append_above base)))

theorem addSegment_outOfBounds {base : Address} {bytes : Buffer} (hBytes : bytes ≠ #[])
    (hEnd : UInt64.size ≤ base.toNat + bytes.size) :
    image.addSegment base bytes = .error .outOfBounds := by
  have hRange : Address.rangeEnd? base bytes.size = none :=
    Address.ofPosition?_eq_none_iff.mpr hEnd
  unfold addSegment
  rw [if_neg (by simpa using hBytes), hRange]

theorem addSegment_inside {base finish : Address} {bytes : Buffer} (hBytes : bytes ≠ #[])
    (hFinish : finish.toNat = base.toNat + bytes.size) :
    image.addSegment base bytes =
      match image.obstacle? base finish with
      | some other => .error (.malformed (.segmentOverlap base finish other.base))
      | none => .ok ⟨image.below base ++ ⟨base, bytes⟩ :: image.above base⟩ := by
  have hRange : Address.rangeEnd? base bytes.size = some finish :=
    Address.ofPosition?_eq_some_iff.mpr hFinish.symm
  unfold addSegment
  rw [if_neg (by simpa using hBytes)]
  cases hObstacle : image.obstacle? base finish <;> simp only [hRange, hObstacle]

theorem Sound.admits (sound : image.Sound) (base : Address) (bytes : Buffer) :
    image.Admits base bytes := by
  have hPlaced : ∀ after, image.addSegment base bytes = .ok after →
      after.segments.Perm (⟨base, bytes⟩ :: image.segments) := fun _ => perm_addSegment
  by_cases hBytes : bytes = #[]
  · subst hBytes
    have hAnswer : image.addSegment base #[] = .error .empty := rfl
    refine ⟨?_, ?_, ?_, ?_, hPlaced⟩ <;> simp [hAnswer]
  by_cases hEnd : UInt64.size ≤ base.toNat + bytes.size
  · have hAnswer := @addSegment_outOfBounds image _ _ hBytes hEnd
    refine ⟨?_, ?_, ?_, ?_, hPlaced⟩ <;> simp [hAnswer, hBytes, hEnd, Nat.not_lt.mpr hEnd]
  have hLength : 1 ≤ bytes.size := Array.size_pos_iff.mpr hBytes
  obtain ⟨finish, hFinish⟩ : ∃ finish : Address, finish.toNat = base.toNat + bytes.size :=
    ⟨_, UInt64.toNat_ofNat_of_lt (Nat.lt_of_not_le hEnd)⟩
  have hAnswer := @addSegment_inside image _ _ _ hBytes hFinish
  cases hObstacle : image.obstacle? base finish with
  | some other =>
      have hMeets := sound.meets_of_obstacle? hFinish hLength hObstacle
      rw [hObstacle] at hAnswer
      refine ⟨?_, ?_, ?_, ?_, hPlaced⟩ <;>
        simp [hAnswer, hBytes, Nat.lt_of_not_le hEnd, hMeets]
  | none =>
      have hApart := sound.not_meets_of_obstacle? hFinish hObstacle
      rw [hObstacle] at hAnswer
      refine ⟨?_, ?_, ?_, ?_, hPlaced⟩ <;>
        simp [hAnswer, hBytes, Nat.lt_of_not_le hEnd, hApart]

/-- A new segment leaves an image sound. -/
theorem Sound.addSegment (sound : image.Sound) {base : Address} {bytes : Buffer} {after : Image}
    (h : image.addSegment base bytes = .ok after) : after.Sound := by
  obtain ⟨hBytes, hEnd, -⟩ := (sound.admits base bytes).ok_iff.mp ⟨after, h⟩
  obtain ⟨finish, hFinish⟩ : ∃ finish : Address, finish.toNat = base.toNat + bytes.size :=
    ⟨_, UInt64.toNat_ofNat_of_lt hEnd⟩
  rw [addSegment_inside hBytes hFinish] at h
  cases hObstacle : image.obstacle? base finish with
  | some other =>
      rw [hObstacle] at h
      cases h
  | none =>
      rw [hObstacle] at h
      obtain rfl := Except.ok.inj h
      exact sound.insert hBytes hFinish hObstacle

end Image

end Conformance
