import Conformance.Proofs.Image.Additions
/-! What an image remembers of the changes made to it. The segments stay where they were placed, and
each of their bytes is the one that was written there last, or the one they were placed with. A read
sees one segment, so any part of what it answers can be read by itself. -/
namespace Conformance

namespace Segment

/-- The byte of a segment at a position. -/
def byte? (segment : Segment) (position : Nat) : Option UInt8 :=
  if segment.base.toNat ≤ position then segment.bytes[position - segment.base.toNat]? else none

/-- Where a segment lies, whatever its bytes are. -/
def extent (segment : Segment) : Address × Nat := (segment.base, segment.bytes.size)

variable {segment : Segment} {position : Nat}

theorem byte?_ne_none_iff : segment.byte? position ≠ none ↔ segment.Covers position := by
  unfold byte? Covers finish
  split_ifs with hBase
  · rw [ne_eq, Array.getElem?_eq_none_iff]
    omega
  · simp [hBase]

theorem byte?_eq_none (h : ¬ segment.Covers position) : segment.byte? position = none :=
  not_ne_iff.mp (h ∘ byte?_ne_none_iff.mp)

theorem covers_congr {other : Segment} (h : segment.extent = other.extent) :
    segment.Covers position ↔ other.Covers position := by
  obtain ⟨hBase, hSize⟩ := Prod.mk.inj h
  rw [Covers, Covers, finish, finish, hBase, hSize]

theorem finish_congr {other : Segment} (h : segment.extent = other.extent) :
    segment.finish = other.finish := by
  obtain ⟨hBase, hSize⟩ := Prod.mk.inj h
  rw [finish, finish, hBase, hSize]

/-- A slice of a segment, by position. -/
theorem slice?_eq_some_iff {address : Address} {length : Nat} {contents : List UInt8}
    (hStart : segment.base ≤ address) (hEnd : address.toNat + length ≤ segment.finish) :
    segment.bytes.slice? (address.toNat - segment.base.toNat) length = some contents ↔
      contents.length = length ∧
        ∀ index < length, contents[index]? = segment.byte? (address.toNat + index) := by
  have hBase := UInt64.le_iff_toNat_le.mp hStart
  have hRoom : address.toNat - segment.base.toNat + length ≤ segment.bytes.size := by
    unfold finish at hEnd
    omega
  have hByte (index : Nat) : segment.byte? (address.toNat + index) =
      segment.bytes[address.toNat - segment.base.toNat + index]? := by
    rw [byte?, if_pos (by omega), ← Nat.sub_add_comm hBase]
  rw [Buffer.slice?_eq_some_iff, and_iff_right hRoom]
  simp only [hByte, eq_comm]

end Segment

namespace Image

open Segment

/-- The changes of a run that an image admits, one after the other. -/
def admitted (image : Image) : List Edit → List Edit
  | [] => []
  | change :: rest =>
      match image.edited change with
      | .ok after => change :: after.admitted rest
      | .error _ => image.admitted rest

/-- The segments that changes place, with the bytes that they are placed with. -/
def placed (history : List Edit) : List Segment :=
  history.filterMap fun
    | .addSegment base bytes => some ⟨base, bytes⟩
    | .write _ _ => none

/-- The byte that the last write to a position leaves there. -/
def lastWritten? (history : List Edit) (position : Nat) : Option UInt8 :=
  history.reverse.findSome? fun
    | .addSegment _ _ => none
    | .write address bytes => (⟨address, bytes.toArray⟩ : Segment).byte? position

variable {image after : Image} {history : List Edit} {address : Address} {length : Nat}
  {contents bytes : List UInt8}

/-- What a read answers, by position. -/
theorem Sound.read_eq_some_iff (sound : image.Sound) :
    image.read address length = some contents ↔ ∃ segment ∈ image.segments,
      segment.base ≤ address ∧ address.toNat + length ≤ segment.finish ∧
        contents.length = length ∧
        ∀ index < length, contents[index]? = segment.byte? (address.toNat + index) := by
  constructor
  · intro hRead
    obtain ⟨segment, hHolder, -⟩ := Option.bind_eq_some_iff.mp hRead
    obtain ⟨hSegment, hStart, hEnd⟩ := holds_of_holder? hHolder
    rw [sound.read_of_inside hSegment hStart hEnd, slice?_eq_some_iff hStart hEnd] at hRead
    exact ⟨segment, hSegment, hStart, hEnd, hRead⟩
  · rintro ⟨segment, hSegment, hStart, hEnd, hContents⟩
    rw [sound.read_of_inside hSegment hStart hEnd, slice?_eq_some_iff hStart hEnd]
    exact hContents

/-- A part of what a read answers can be read by itself, at the end of a segment as well. -/
theorem Sound.read_part (sound : image.Sound) (hRead : image.read address length = some contents)
    {first last : Nat} (hOrder : first ≤ last) (hLast : last ≤ length) :
    ∃ start : Address, start.toNat = address.toNat + first ∧
      image.read start (last - first) = some ((contents.take last).drop first) := by
  obtain ⟨segment, hSegment, hStart, hEnd, hLength, hBytes⟩ := sound.read_eq_some_iff.mp hRead
  have hBase := UInt64.le_iff_toNat_le.mp hStart
  have hFinish := sound.finish_lt segment hSegment
  have hWord : (address.toNat + first).toUInt64.toNat = address.toNat + first :=
    UInt64.toNat_ofNat_of_lt (by omega)
  refine ⟨(address.toNat + first).toUInt64, hWord, sound.read_eq_some_iff.mpr
    ⟨segment, hSegment, ?_, ?_, ?_, fun index hIndex => ?_⟩⟩
  · rw [UInt64.le_iff_toNat_le, hWord]
    omega
  · omega
  · rw [List.length_drop, List.length_take]
    omega
  · rw [List.getElem?_drop, List.getElem?_take_of_lt (by omega), hBytes _ (by omega), hWord,
      Nat.add_assoc]

/-- A position belongs to one segment at most. -/
theorem Sound.eq_of_covers (sound : image.Sound) {first second : Segment}
    (hFirst : first ∈ image.segments) (hSecond : second ∈ image.segments) {position : Nat}
    (hHere : first.Covers position) (hThere : second.Covers position) : first = second := by
  have hBound := Nat.lt_trans hHere.2 (sound.finish_lt first hFirst)
  obtain ⟨address, rfl⟩ : ∃ address : Address, address.toNat = position :=
    ⟨position.toUInt64, UInt64.toNat_ofNat_of_lt hBound⟩
  have hLast := (sound.getLast?_takeWhile hFirst hHere).symm.trans
    (sound.getLast?_takeWhile hSecond hThere)
  exact Option.some.inj hLast

/-- What lies in a range of a segment belongs to the segment. -/
theorem covers_of_inside {holder : Segment} {position : Nat} (hStart : holder.base ≤ address)
    (hEnd : address.toNat + bytes.length ≤ holder.finish)
    (hCovers : (⟨address, bytes.toArray⟩ : Segment).Covers position) : holder.Covers position := by
  have hLow := UInt64.le_iff_toNat_le.mp hStart
  obtain ⟨hFrom, hTo⟩ := hCovers
  simp only [finish, List.size_toArray] at hFrom hTo
  exact ⟨Nat.le_trans hLow hFrom, Nat.lt_of_lt_of_le hTo hEnd⟩

/-- Bytes that are written over a part of a segment are seen there, and nowhere else. -/
theorem byte?_overwrite {holder : Segment} {position : Nat} (hStart : holder.base ≤ address)
    (hCovers : holder.Covers position) :
    (⟨holder.base, holder.bytes.overwrite (address.toNat - holder.base.toNat) bytes⟩ :
        Segment).byte? position =
      ((⟨address, bytes.toArray⟩ : Segment).byte? position).or (holder.byte? position) := by
  have hBase := UInt64.le_iff_toNat_le.mp hStart
  obtain ⟨hLow, hHigh⟩ := hCovers
  unfold finish at hHigh
  simp only [byte?, if_pos hLow, Buffer.getElem?_overwrite]
  by_cases hWritten : address.toNat ≤ position ∧ position < address.toNat + bytes.length
  · obtain ⟨byte, hByte⟩ : ∃ byte, bytes[position - address.toNat]? = some byte :=
      ⟨_, List.getElem?_eq_getElem (by omega)⟩
    rw [if_pos (by omega), if_pos hWritten.1, List.getElem?_toArray,
      show position - holder.base.toNat - (address.toNat - holder.base.toNat) =
        position - address.toNat by omega, hByte, Option.some_or]
  · rw [if_neg (by omega)]
    split_ifs with hAfter
    · have hByte : bytes.toArray[position - address.toNat]? = none :=
        Array.getElem?_eq_none (by rw [List.size_toArray]; omega)
      rw [hByte, Option.none_or]
    · rw [Option.none_or]

/-- A write changes the bytes of segments, and those in its range only. -/
theorem Sound.exists_change_of_write (sound : image.Sound)
    (h : image.write address bytes = .ok after) :
    ∃ change : Segment → Segment, after.segments = image.segments.map change ∧
      ∀ segment ∈ image.segments, (change segment).extent = segment.extent ∧
        ∀ position, segment.Covers position → (change segment).byte? position =
          ((⟨address, bytes.toArray⟩ : Segment).byte? position).or (segment.byte? position) := by
  unfold Image.write at h
  split at h
  · cases h
  · next holder hHolder =>
    obtain ⟨hMem, hStart, hEnd⟩ := holds_of_holder? hHolder
    obtain rfl := Except.ok.inj h
    refine ⟨_, rfl, fun segment hSegment => ?_⟩
    split_ifs with hBase
    · -- Only the segment that holds the range has its base.
      have hHere := covers_base (sound.nonempty segment hSegment)
      have hThere := covers_base (sound.nonempty holder hMem)
      obtain rfl := sound.eq_of_covers hSegment hMem hHere (hBase ▸ hThere)
      refine ⟨?_, fun position hCovers => byte?_overwrite hStart hCovers⟩
      simp only [extent, Buffer.size_overwrite]
    · refine ⟨rfl, fun position hCovers => ?_⟩
      have hApart : ¬ (⟨address, bytes.toArray⟩ : Segment).Covers position := fun hWritten => by
        have hInside := covers_of_inside hStart hEnd hWritten
        exact hBase (congrArg Segment.base (sound.eq_of_covers hSegment hMem hCovers hInside))
      rw [byte?_eq_none hApart, Option.none_or]

theorem covers_of_write (h : image.write address bytes = .ok after) {position : Nat}
    (hCovers : (⟨address, bytes.toArray⟩ : Segment).Covers position) : image.Covers position := by
  unfold Image.write at h
  split at h
  · cases h
  · next holder hHolder =>
    obtain ⟨hMem, hStart, hEnd⟩ := holds_of_holder? hHolder
    exact ⟨holder, hMem, covers_of_inside hStart hEnd hCovers⟩

theorem placed_append_addSegment (history : List Edit) (base : Address) (bytes : Buffer) :
    placed (history ++ [.addSegment base bytes]) = placed history ++ [⟨base, bytes⟩] := by
  simp [placed]

theorem placed_append_write (history : List Edit) (address : Address) (bytes : List UInt8) :
    placed (history ++ [.write address bytes]) = placed history := by
  simp [placed]

theorem lastWritten?_append_addSegment (history : List Edit) (base : Address) (bytes : Buffer)
    (position : Nat) :
    lastWritten? (history ++ [.addSegment base bytes]) position =
      lastWritten? history position := by
  simp [lastWritten?]

theorem lastWritten?_append_write (history : List Edit) (address : Address) (bytes : List UInt8)
    (position : Nat) :
    lastWritten? (history ++ [.write address bytes]) position =
      ((⟨address, bytes.toArray⟩ : Segment).byte? position).or (lastWritten? history position) := by
  simp only [lastWritten?, List.reverse_append, List.reverse_singleton, List.singleton_append,
    List.findSome?_cons]
  cases (⟨address, bytes.toArray⟩ : Segment).byte? position <;> rfl

/-- A segment stems from one that was placed: it lies where that was placed, and its bytes are those
written last, or else the first ones. -/
structure Stems (history : List Edit) (origin segment : Segment) : Prop where
  extent : segment.extent = origin.extent
  bytes : ∀ position, segment.Covers position → segment.byte? position =
    (lastWritten? history position).or (origin.byte? position)

/-- An image is what the changes that it admitted have made of it. -/
structure Remembers (image : Image) (history : List Edit) : Prop where
  sound : image.Sound
  origin : ∀ segment ∈ image.segments, ∃ origin ∈ placed history, Stems history origin segment
  remains : ∀ origin ∈ placed history, ∃ segment ∈ image.segments, Stems history origin segment
  inside : ∀ position, lastWritten? history position ≠ none → image.Covers position

theorem remembers_empty : Remembers empty [] :=
  ⟨sound_empty, fun _ h => absurd h List.not_mem_nil, fun _ h => absurd h List.not_mem_nil,
    fun _ h => absurd rfl h⟩

/-- What is placed has its first bytes: nothing was written there before. -/
theorem Remembers.addSegment (remembers : image.Remembers history) {base : Address} {bytes : Buffer}
    (h : image.addSegment base bytes = .ok after) :
    after.Remembers (history ++ [.addSegment base bytes]) := by
  obtain ⟨-, -, hRoom⟩ := (remembers.sound.admits base bytes).ok_iff.mp ⟨after, h⟩
  have hStems {origin segment : Segment} (stems : Stems history origin segment) :
      Stems (history ++ [.addSegment base bytes]) origin segment :=
    ⟨stems.extent, by simpa only [lastWritten?_append_addSegment] using stems.bytes⟩
  have hNew : Stems (history ++ [.addSegment base bytes]) ⟨base, bytes⟩ ⟨base, bytes⟩ := by
    refine ⟨rfl, fun position hCovers => ?_⟩
    have hNone : lastWritten? history position = none := not_ne_iff.mp fun hWritten =>
      hRoom ⟨position, hCovers.1, hCovers.2, remembers.inside position hWritten⟩
    rw [lastWritten?_append_addSegment, hNone, Option.none_or]
  constructor
  case sound => exact remembers.sound.addSegment h
  case origin =>
    intro segment hSegment
    rw [placed_append_addSegment]
    rcases (mem_addSegment_iff h).mp hSegment with rfl | hOld
    · exact ⟨_, List.mem_append_right _ List.mem_cons_self, hNew⟩
    · obtain ⟨origin, hOrigin, stems⟩ := remembers.origin segment hOld
      exact ⟨origin, List.mem_append_left _ hOrigin, hStems stems⟩
  case remains =>
    intro origin hOrigin
    rw [placed_append_addSegment] at hOrigin
    rcases List.mem_append.mp hOrigin with hOld | hLast
    · obtain ⟨segment, hSegment, stems⟩ := remembers.remains origin hOld
      exact ⟨segment, (mem_addSegment_iff h).mpr (.inr hSegment), hStems stems⟩
    · obtain rfl := List.mem_singleton.mp hLast
      exact ⟨_, (mem_addSegment_iff h).mpr (.inl rfl), hNew⟩
  case inside =>
    intro position hWritten
    rw [lastWritten?_append_addSegment] at hWritten
    obtain ⟨segment, hSegment, hCovers⟩ := remembers.inside position hWritten
    exact ⟨segment, (mem_addSegment_iff h).mpr (.inr hSegment), hCovers⟩

/-- What is written lies inside a segment, and is what that segment has there from then on. -/
theorem Remembers.write (remembers : image.Remembers history)
    (h : image.write address bytes = .ok after) :
    after.Remembers (history ++ [.write address bytes]) := by
  obtain ⟨change, hSegments, hChange⟩ := remembers.sound.exists_change_of_write h
  have hCovers {segment : Segment} (hSegment : segment ∈ image.segments) {position : Nat} :
      (change segment).Covers position ↔ segment.Covers position :=
    covers_congr (hChange segment hSegment).1
  have hStems {origin segment : Segment} (hSegment : segment ∈ image.segments)
      (stems : Stems history origin segment) :
      Stems (history ++ [.write address bytes]) origin (change segment) := by
    obtain ⟨hExtent, hBytes⟩ := hChange segment hSegment
    refine ⟨hExtent.trans stems.extent, fun position hHere => ?_⟩
    have hHere := (hCovers hSegment).mp hHere
    rw [hBytes position hHere, stems.bytes position hHere, lastWritten?_append_write,
      Option.or_assoc]
  constructor
  case sound => exact remembers.sound.write h
  case origin =>
    intro segment hSegment
    rw [hSegments] at hSegment
    obtain ⟨before, hBefore, rfl⟩ := List.mem_map.mp hSegment
    obtain ⟨origin, hOrigin, stems⟩ := remembers.origin before hBefore
    exact ⟨origin, placed_append_write history address bytes ▸ hOrigin, hStems hBefore stems⟩
  case remains =>
    intro origin hOrigin
    rw [placed_append_write] at hOrigin
    obtain ⟨segment, hSegment, stems⟩ := remembers.remains origin hOrigin
    exact ⟨change segment, hSegments ▸ List.mem_map_of_mem hSegment, hStems hSegment stems⟩
  case inside =>
    intro position hWritten
    rw [lastWritten?_append_write, ne_eq, Option.or_eq_none_iff, not_and_or] at hWritten
    have hBefore : image.Covers position := by
      rcases hWritten with hNew | hOld
      · exact covers_of_write h (byte?_ne_none_iff.mp hNew)
      · exact remembers.inside position hOld
    obtain ⟨segment, hSegment, hHere⟩ := hBefore
    exact ⟨change segment, hSegments ▸ List.mem_map_of_mem hSegment, (hCovers hSegment).mpr hHere⟩

/-- A run of changes adds those that are admitted to what an image remembers. -/
theorem Remembers.run (remembers : image.Remembers history) (changes : List Edit) :
    (changes.foldl (fun image change => (image.edit change).2) image).Remembers
      (history ++ image.admitted changes) := by
  induction changes generalizing image history with
  | nil => simpa [admitted] using remembers
  | cons change rest ih =>
      rw [List.foldl_cons, admitted, edit]
      cases hAnswer : image.edited change with
      | error error => exact ih remembers
      | ok after =>
          have hNext : after.Remembers (history ++ [change]) := by
            cases change with
            | addSegment base bytes => exact remembers.addSegment hAnswer
            | write address bytes => exact remembers.write hAnswer
          have hRun := ih hNext
          rwa [List.append_assoc] at hRun

theorem Sound.exists_read_iff (sound : image.Sound) :
    (∃ contents, image.read address length = some contents) ↔
      ∃ segment ∈ image.segments, segment.base ≤ address ∧
        address.toNat + length ≤ segment.finish := by
  constructor
  · rintro ⟨contents, hRead⟩
    obtain ⟨segment, hSegment, hStart, hEnd, -⟩ := sound.read_eq_some_iff.mp hRead
    exact ⟨segment, hSegment, hStart, hEnd⟩
  · rintro ⟨segment, hSegment, hStart, hEnd⟩
    have hBase := UInt64.le_iff_toNat_le.mp hStart
    rw [sound.read_of_inside hSegment hStart hEnd, ← Option.isSome_iff_exists,
      Buffer.slice?_isSome, decide_eq_true_iff]
    unfold finish at hEnd
    omega

/-- A range can be written if it can be read. -/
theorem Sound.exists_write_iff (sound : image.Sound) :
    (∃ after, image.write address bytes = .ok after) ↔
      ∃ contents, image.read address bytes.length = some contents := by
  unfold Image.write
  cases hHolder : image.holder? address bytes.length with
  | none => simp [read, hHolder]
  | some holder =>
      obtain ⟨hMem, hStart, hEnd⟩ := holds_of_holder? hHolder
      exact iff_of_true ⟨_, rfl⟩ (sound.exists_read_iff.mpr ⟨holder, hMem, hStart, hEnd⟩)

/-- What is read from a start on, with the bytes of a patch in their places. -/
def overlaid (patch : Segment) (start : Address) (contents : List UInt8) : List UInt8 :=
  contents.mapIdx fun index byte => (patch.byte? (start.toNat + index)).getD byte

/-- After a write, reads answer as before, but with the bytes that were written. -/
theorem Sound.read_of_write (sound : image.Sound) {written : Address}
    (h : image.write written bytes = .ok after) (start : Address) (length : Nat) :
    after.read start length =
      (image.read start length).map (overlaid ⟨written, bytes.toArray⟩ start) := by
  obtain ⟨change, hSegments, hChange⟩ := sound.exists_change_of_write h
  have hAfter := sound.write h
  cases hRead : image.read start length with
  | none =>
      refine Option.eq_none_iff_forall_ne_some.mpr fun contents hContents => ?_
      obtain ⟨segment, hSegment, hStart, hEnd, -⟩ := hAfter.read_eq_some_iff.mp hContents
      rw [hSegments] at hSegment
      obtain ⟨before, hBefore, rfl⟩ := List.mem_map.mp hSegment
      have hExtent := (hChange before hBefore).1
      rw [finish_congr hExtent] at hEnd
      rw [(Prod.mk.inj hExtent).1] at hStart
      obtain ⟨old, hOld⟩ := sound.exists_read_iff.mpr ⟨before, hBefore, hStart, hEnd⟩
      rw [hRead] at hOld
      cases hOld
  | some old =>
      obtain ⟨segment, hSegment, hStart, hEnd, hLength, hOld⟩ := sound.read_eq_some_iff.mp hRead
      obtain ⟨hExtent, hBytes⟩ := hChange segment hSegment
      rw [Option.map_some, hAfter.read_eq_some_iff]
      refine ⟨change segment, hSegments ▸ List.mem_map_of_mem hSegment, ?_, ?_, ?_,
        fun index hIndex => ?_⟩
      · rwa [(Prod.mk.inj hExtent).1]
      · rwa [finish_congr hExtent]
      · rw [overlaid, List.length_mapIdx, hLength]
      · have hBase := UInt64.le_iff_toNat_le.mp hStart
        have hHere : segment.Covers (start.toNat + index) := ⟨by omega, by omega⟩
        rw [overlaid, List.getElem?_mapIdx, hBytes _ hHere, ← hOld index hIndex,
          List.getElem?_eq_getElem (hLength ▸ hIndex)]
        cases (⟨written, bytes.toArray⟩ : Segment).byte? (start.toNat + index) <;> rfl

/-- An image answers with what a history of changes has placed and written. -/
structure Recalls (image : Image) (history : List Edit) : Prop where
  read_iff : ∀ (address : Address) (length : Nat) (contents : List UInt8),
    image.read address length = some contents ↔ ∃ origin ∈ placed history,
      origin.base ≤ address ∧ address.toNat + length ≤ origin.finish ∧
        contents.length = length ∧ ∀ index < length, contents[index]? =
          (lastWritten? history (address.toNat + index)).or
            (origin.byte? (address.toNat + index))
  write_iff : ∀ (address : Address) (bytes : List UInt8),
    (∃ after, image.write address bytes = .ok after) ↔
      ∃ contents, image.read address bytes.length = some contents
  write_frame : ∀ (address : Address) (bytes : List UInt8) (after : Image),
    image.write address bytes = .ok after →
      after.segments.map extent = image.segments.map extent ∧
        ∀ (start : Address) (length : Nat), after.read start length =
          (image.read start length).map (overlaid ⟨address, bytes.toArray⟩ start)
  part : ∀ (address : Address) (length : Nat) (contents : List UInt8),
    image.read address length = some contents → ∀ first last, first ≤ last → last ≤ length →
      ∃ start : Address, start.toNat = address.toNat + first ∧
        image.read start (last - first) = some ((contents.take last).drop first)

theorem Remembers.read_iff (remembers : image.Remembers history) :
    image.read address length = some contents ↔ ∃ origin ∈ placed history,
      origin.base ≤ address ∧ address.toNat + length ≤ origin.finish ∧
        contents.length = length ∧ ∀ index < length, contents[index]? =
          (lastWritten? history (address.toNat + index)).or
            (origin.byte? (address.toNat + index)) := by
  rw [remembers.sound.read_eq_some_iff]
  have hSame {origin segment : Segment} (stems : Stems history origin segment) :
      (segment.base ≤ address ∧ address.toNat + length ≤ segment.finish ∧
        contents.length = length ∧
        ∀ index < length, contents[index]? = segment.byte? (address.toNat + index)) ↔
      origin.base ≤ address ∧ address.toNat + length ≤ origin.finish ∧
        contents.length = length ∧ ∀ index < length, contents[index]? =
          (lastWritten? history (address.toNat + index)).or
            (origin.byte? (address.toNat + index)) := by
    rw [← (Prod.mk.inj stems.extent).1, ← finish_congr stems.extent]
    refine and_congr_right fun hStart => and_congr_right fun hEnd => and_congr_right fun _ => ?_
    refine forall₂_congr fun index hIndex => ?_
    have hBase := UInt64.le_iff_toNat_le.mp hStart
    rw [stems.bytes _ ⟨by omega, by omega⟩]
  constructor
  · rintro ⟨segment, hSegment, hContents⟩
    obtain ⟨origin, hOrigin, stems⟩ := remembers.origin segment hSegment
    exact ⟨origin, hOrigin, (hSame stems).mp hContents⟩
  · rintro ⟨origin, hOrigin, hContents⟩
    obtain ⟨segment, hSegment, stems⟩ := remembers.remains origin hOrigin
    exact ⟨segment, hSegment, (hSame stems).mpr hContents⟩

/-- Whatever is added and written, in whatever order and with whatever success, an image answers
with the segments that were placed and the bytes that were written last. A write goes where a read
goes and is seen in its own range only, and what a read answers can be read in parts. -/
theorem ofEdits_recalls (changes : List Edit) :
    (ofEdits changes).Recalls (empty.admitted changes) := by
  have remembers : (ofEdits changes).Remembers (empty.admitted changes) :=
    remembers_empty.run changes
  have sound := remembers.sound
  refine ⟨fun _ _ _ => remembers.read_iff, fun _ _ => sound.exists_write_iff,
    fun address bytes after hWrite => ⟨?_, sound.read_of_write hWrite⟩,
    fun _ _ _ hRead _ _ => sound.read_part hRead⟩
  obtain ⟨change, hSegments, hChange⟩ := sound.exists_change_of_write hWrite
  rw [hSegments, List.map_map]
  exact List.map_congr_left fun segment hSegment => (hChange segment hSegment).1

/-- Two segments that touch. An addition and a write that go over the seam are refused and leave
nothing behind; the empty range at the seam is a part of the range before it. -/
theorem ofEdits_recalls_seam :
    let changes : List Edit := [.addSegment 0x1000 #[1, 2, 3], .addSegment 0x1003 #[4],
      .addSegment 0x1002 #[9, 9], .write 0x1001 [7], .write 0x1002 [8, 8]]
    empty.admitted changes =
        [.addSegment 0x1000 #[1, 2, 3], .addSegment 0x1003 #[4], .write 0x1001 [7]] ∧
      (ofEdits changes).read 0x1000 3 = some [1, 7, 3] ∧
      (ofEdits changes).read 0x1003 0 = some [] := by
  intro changes
  have hHistory : empty.admitted changes =
      [.addSegment 0x1000 #[1, 2, 3], .addSegment 0x1003 #[4], .write 0x1001 [7]] := by
    decide +kernel
  have recalls := ofEdits_recalls changes
  rw [hHistory] at recalls
  have hRead := (recalls.read_iff 0x1000 3 [1, 7, 3]).mpr
    ⟨⟨0x1000, #[1, 2, 3]⟩, by decide +kernel, by decide, by decide, rfl, by decide +kernel⟩
  obtain ⟨start, hStart, hPart⟩ := recalls.part 0x1000 3 _ hRead 3 3 (by decide) (by decide)
  obtain rfl : start = 0x1003 := UInt64.toNat_inj.mp hStart
  exact ⟨hHistory, hRead, hPart⟩

end Image

end Conformance
