import Conformance.Proofs.Builder.Steps
/-! Words that are written over each other. What is left of words that are written one after the
other is at each position the last one that was written there; all of them are there as they were
written exactly if they have the same bytes where they overlap. -/
namespace Conformance

/-- Bytes that are stored at a position. -/
structure Stored where
  position : Nat
  bytes : List UInt8
deriving DecidableEq, Repr

namespace Stored

/-- The position after the bytes. -/
def finish (stored : Stored) : Nat := stored.position + stored.bytes.length

/-- What is known of a memory in which the bytes are stored. -/
def byte? (stored : Stored) : Contents := fun position =>
  if stored.position ≤ position then stored.bytes[position - stored.position]? else none

/-- The same bytes, at a distance from a base. -/
def shift (base : Nat) (stored : Stored) : Stored := ⟨base + stored.position, stored.bytes⟩

/-- Where two words overlap, they have the same bytes. -/
def Agrees (first second : Stored) : Prop :=
  ∀ position left right, first.byte? position = some left → second.byte? position = some right →
    left = right

/-- What is left of words that are written one after the other: at each position, the last one that
was written there. -/
def overlay : List Stored → Contents
  | [], _ => none
  | first :: later, position => (overlay later position).or (first.byte? position)

variable {stored first second : Stored} {words : List Stored} {contents : Contents}
  {position : Nat} {byte : UInt8}

theorem inside_of_byte? (h : stored.byte? position = some byte) :
    stored.position ≤ position ∧ position < stored.finish := by
  unfold byte? at h
  split_ifs at h with hStart
  obtain ⟨hInside, -⟩ := List.getElem?_eq_some_iff.mp h
  unfold finish
  omega

theorem holds_iff_within :
    contents.Holds stored.position stored.bytes ↔ stored.byte?.Within contents := by
  constructor
  · intro holds position byte h
    obtain ⟨hStart, hFinish⟩ := inside_of_byte? h
    unfold byte? at h
    unfold finish at hFinish
    rw [if_pos hStart] at h
    rw [← h, ← holds _ (by omega), Nat.add_sub_of_le hStart]
  · intro within index hIndex
    rw [List.getElem?_eq_getElem hIndex]
    apply within
    unfold byte?
    rw [if_pos (Nat.le_add_right _ _), Nat.add_sub_cancel_left, List.getElem?_eq_getElem hIndex]

theorem byte?_eq_none_iff : stored.byte? position = none ↔
    position < stored.position ∨ stored.finish ≤ position := by
  unfold byte? finish
  split_ifs with hStart
  · rw [List.getElem?_eq_none_iff]
    omega
  · simp only [true_iff]
    omega

@[simp]
theorem finish_shift (base : Nat) : (stored.shift base).finish = base + stored.finish :=
  Nat.add_assoc _ _ _

theorem byte?_shift (base : Nat) :
    (stored.shift base).byte? (base + position) = stored.byte? position := by
  unfold byte? shift
  dsimp only
  rw [Nat.add_sub_add_left]
  simp only [Nat.add_le_add_iff_left]

/-- Words that do not overlap agree. -/
theorem agrees_of_apart (hApart : first.finish ≤ second.position ∨ second.finish ≤ first.position) :
    first.Agrees second := by
  intro position left right hLeft hRight
  have hFirst := inside_of_byte? hLeft
  have hSecond := inside_of_byte? hRight
  omega

/-- Where words lie does not matter, only their distance does. -/
theorem agrees_shift_iff (base : Nat) :
    (first.shift base).Agrees (second.shift base) ↔ first.Agrees second := by
  constructor
  · intro agrees position left right hLeft hRight
    exact agrees (base + position) left right ((byte?_shift base).trans hLeft)
      ((byte?_shift base).trans hRight)
  · intro agrees position left right hLeft hRight
    have hBase : base ≤ position := Nat.le_trans (Nat.le_add_right _ _) (inside_of_byte? hLeft).1
    obtain ⟨distance, rfl⟩ := Nat.exists_eq_add_of_le hBase
    exact agrees distance left right ((byte?_shift base).symm.trans hLeft)
      ((byte?_shift base).symm.trans hRight)

theorem overlay_concat : overlay (words ++ [stored]) position =
    (stored.byte? position).or (overlay words position) := by
  induction words with
  | nil => simp [overlay]
  | cons other later ih => rw [List.cons_append, overlay, ih, overlay, Option.or_assoc]

theorem exists_of_overlay (h : overlay words position = some byte) :
    ∃ word ∈ words, word.byte? position = some byte := by
  induction words with
  | nil => cases h
  | cons other later ih =>
      rw [overlay, Option.or_eq_some_iff] at h
      obtain hLater | ⟨-, hOther⟩ := h
      · obtain ⟨word, hWord, hByte⟩ := ih hLater
        exact ⟨word, List.mem_cons_of_mem _ hWord, hByte⟩
      · exact ⟨other, List.mem_cons_self, hOther⟩

/-- Words that agree are all there when they have been written. -/
theorem within_overlay (agree : words.Pairwise Agrees) :
    ∀ word ∈ words, word.byte?.Within (overlay words) := by
  induction words with
  | nil => exact fun _ h => nomatch h
  | cons other later ih =>
      obtain ⟨hOther, hLater⟩ := List.pairwise_cons.mp agree
      refine List.forall_mem_cons.mpr ⟨fun position byte hByte => ?_,
        fun word hWord position byte hByte => ?_⟩
      · rw [overlay]
        cases hOver : overlay later position with
        | none => exact hByte
        | some last =>
            obtain ⟨word, hWord, hHere⟩ := exists_of_overlay hOver
            rw [hOther word hWord position byte last hByte hHere]
            rfl
      · rw [overlay, ih hLater word hWord position byte hByte]
        rfl

/-- A word that is written takes the place of what it overlaps. -/
theorem within_concat (stored : Stored) {before after : Builder}
    (written : Builder.Grows (Build.Outside stored.position stored.bytes.length) before after)
    (holds : after.byte?.Holds stored.position stored.bytes)
    (within : (overlay words).Within before.byte?) :
    (overlay (words ++ [stored])).Within after.byte? := by
  intro position byte h
  rw [overlay_concat, Option.or_eq_some_iff] at h
  obtain hHere | ⟨hOutside, hBefore⟩ := h
  · exact holds_iff_within.mp holds position byte hHere
  · exact written.bytes position byte (byte?_eq_none_iff.mp hOutside) (within position byte hBefore)

/-- In a memory in which words were written, all of them are there exactly if they agree. -/
theorem forall_within_iff (written : (overlay words).Within contents) :
    (∀ word ∈ words, word.byte?.Within contents) ↔ words.Pairwise Agrees := by
  constructor
  · intro within
    refine List.pairwise_of_forall_mem_list fun first hFirst second hSecond => ?_
    intro position left right hLeft hRight
    have hHere := within first hFirst position left hLeft
    rw [within second hSecond position right hRight] at hHere
    exact (Option.some.inj hHere).symm
  · intro agree word hWord position byte hByte
    exact written position byte (within_overlay agree word hWord position byte hByte)

end Stored

namespace Build

variable {builder : Builder}

theorem ensures_fieldBytes (width : Nat) (value : UInt64) (field : Address) :
    Ensures (writeField field width value) builder
      (fun _ after => Builder.Grows (Outside field.toNat
          (builder.layout.order.encode width value.toNat).length) builder after ∧
        after.byte?.Holds field.toNat (builder.layout.order.encode width value.toNat))
      fun after => after = builder := by
  rw [ByteOrder.length_encode]
  exact (ensures_writeField field width value).mono (fun _ _ h => ⟨h.1, h.2.2.2⟩) fun _ h => h

theorem ensures_pointerBytes (value field : Address) :
    Ensures (writePointer field value) builder
      (fun _ after => Builder.Grows (Outside field.toNat
          (builder.layout.order.encode builder.layout.pointerWidth.bytes value.toNat).length)
          builder after ∧
        after.byte?.Holds field.toNat
          (builder.layout.order.encode builder.layout.pointerWidth.bytes value.toNat))
      fun after => after = builder := by
  rw [ByteOrder.length_encode]
  exact (ensures_writePointer field value).mono (fun _ _ h => ⟨h.1, h.2.2⟩) fun _ h => h

/-- A word is written at an offset, over the words that were written before. -/
theorem ensures_overlaid {α : Type} {write : Address → Build Unit} {bytes : List UInt8}
    {base : Address} {offset : UInt64} {words : List Stored} {next : Build α}
    {post : α → Builder → Prop} {fail : Builder → Prop}
    (hWrite : ∀ field, Ensures (write field) builder
      (fun _ after => Builder.Grows (Outside field.toNat bytes.length) builder after ∧
        after.byte?.Holds field.toNat bytes) fun after => after = builder)
    (within : (Stored.overlay (words.map (Stored.shift base.toNat))).Within builder.byte?)
    (hNext : ∀ after,
      Builder.Grows (Outside (Address.plus base offset) bytes.length) builder after →
      (Stored.overlay ((words ++ [Stored.mk offset.toNat bytes]).map
        (Stored.shift base.toNat))).Within after.byte? →
      Ensures next after post fail)
    (hFail : fail builder) :
    Ensures (do write (← place base offset); next) builder post fail := by
  rw [ensures_bind]
  refine ensures_place (fun field hField => ?_) hFail
  rw [ensures_bind]
  refine (hWrite field).mono (fun _ after h => ?_) fun after h => h ▸ hFail
  obtain ⟨written, holds⟩ := h
  rw [hField] at written holds
  refine hNext after written ?_
  rw [List.map_append]
  exact Stored.within_concat (Stored.shift base.toNat ⟨offset.toNat, bytes⟩) written holds within

end Build

end Conformance
