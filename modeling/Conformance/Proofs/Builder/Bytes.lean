import Conformance.Proofs.Builder.Contents
import Conformance.Proofs.Source.Agreement
/-! The bytes of a builder, by position: what reads answer with, and what is kept of them while
more is laid out. -/
namespace Conformance

namespace Builder

/-- The position after the last byte laid out. -/
def finish (builder : Builder) : Nat := builder.base.toNat + builder.bytes.size

/-- What was laid out, by position. -/
def byte? (builder : Builder) : Contents := fun position =>
  if builder.base.toNat ≤ position then builder.bytes[position - builder.base.toNat]? else none

/-- Blocks can be appended: the first byte and the end are aligned and inside the address space. -/
structure Sound (builder : Builder) : Prop where
  base_ne : builder.base ≠ 0
  base_aligned : builder.base.toNat % 16 = 0
  size_aligned : builder.bytes.size % 16 = 0
  finish_le : builder.finish ≤ 2 ^ 64

/-- Blocks can be appended, wherever the first byte lies: the number of bytes is aligned, and they
end inside the address space. -/
structure Fits (builder : Builder) : Prop where
  size_aligned : builder.bytes.size % 16 = 0
  size_lt : builder.bytes.size < 2 ^ 64
  finish_le : builder.finish ≤ 2 ^ 64

variable {builder : Builder}

theorem Sound.fits (sound : builder.Sound) : builder.Fits := by
  have hBase : builder.base.toNat ≠ 0 := fun h => sound.base_ne (UInt64.toNat_inj.mp h)
  have hFinish := sound.finish_le
  unfold finish at hFinish
  exact ⟨sound.size_aligned, by omega, sound.finish_le⟩

theorem byte?_eq_some {position : Nat} {byte : UInt8} (h : builder.byte? position = some byte) :
    builder.base.toNat ≤ position ∧ position < builder.finish := by
  unfold byte? at h
  split_ifs at h with hBase
  obtain ⟨hInside, -⟩ := Array.getElem?_eq_some_iff.mp h
  unfold finish
  omega

theorem bounds_of_holds {position : Nat} {bytes : List UInt8}
    (holds : builder.byte?.Holds position bytes) (hBytes : bytes ≠ []) :
    builder.base.toNat ≤ position ∧ position + bytes.length ≤ builder.finish := by
  have hLength := List.length_pos_iff.mpr hBytes
  have hFirst := holds 0 hLength
  have hLast := holds (bytes.length - 1) (by omega)
  rw [List.getElem?_eq_getElem (by omega)] at hFirst hLast
  have := byte?_eq_some hFirst
  have := byte?_eq_some hLast
  omega

theorem byte?_of_le {offset : Nat} :
    builder.byte? (builder.base.toNat + offset) = builder.bytes[offset]? := by
  unfold byte?
  rw [if_pos (Nat.le_add_right _ _), Nat.add_sub_cancel_left]

/-- A range is read if it was laid out as a whole and does not touch the end of the address
space. -/
theorem read_eq_some_iff {address : Address} {length : Nat} {bytes : List UInt8} :
    builder.read address length = some bytes ↔
      address.toNat + length < UInt64.size ∧ builder.base.toNat ≤ address.toNat ∧
        address.toNat + length ≤ builder.finish ∧ bytes.length = length ∧
        builder.byte?.Holds address.toNat bytes := by
  unfold read Address.rangeEnd? Address.ofPosition? offsetOf?
  have hShift (hBase : builder.base.toNat ≤ address.toNat) (index : Nat) :
      builder.byte? (address.toNat + index) =
        builder.bytes[address.toNat - builder.base.toNat + index]? := by
    rw [← byte?_of_le]
    congr 1
    omega
  split_ifs with hEnd hInside
  · obtain ⟨hBase, hSize⟩ := hInside
    have hBase : builder.base.toNat ≤ address.toNat := UInt64.le_iff_toNat_le.mp hBase
    have hFinish : address.toNat + length ≤ builder.finish := by
      unfold finish
      omega
    have hSlice := @Buffer.slice?_eq_some_iff builder.bytes
      (address.toNat - builder.base.toNat) length bytes
    simp only [Option.bind_eq_bind, Option.bind_some, hSlice, Contents.Holds, hShift hBase]
    constructor
    · intro h
      obtain ⟨-, hLength, hBytes⟩ := h
      exact ⟨hEnd, hBase, hFinish, hLength, hLength ▸ hBytes⟩
    · intro h
      obtain ⟨-, -, -, hLength, hBytes⟩ := h
      exact ⟨hSize, hLength, hLength ▸ hBytes⟩
  · simp only [Option.bind_eq_bind, Option.bind_some, Option.bind_none, reduceCtorEq, false_iff]
    intro h
    obtain ⟨-, hBase, hFinish, -, -⟩ := h
    apply hInside
    unfold finish at hFinish
    exact ⟨UInt64.le_iff_toNat_le.mpr hBase, by omega⟩
  all_goals simp [hEnd]

/-- What is fetched of a builder was laid out there, and its end is an address. -/
theorem run_fetch_eq_some_iff {α : Type} {position length : Nat} {decode : List UInt8 → α}
    {value : α} (hLength : 0 < length) :
    (Probe.fetch position length decode).run builder.read = some value ↔
      position + length < UInt64.size ∧
        ∃ bytes, bytes.length = length ∧ builder.byte?.Holds position bytes ∧
          decode bytes = value := by
  rw [Probe.run_fetch]
  constructor
  · intro h
    obtain ⟨address, hAddress, h⟩ := Option.bind_eq_some_iff.mp h
    obtain ⟨bytes, hRead, hDecode⟩ := Option.map_eq_some_iff.mp h
    obtain ⟨hEnd, -, -, hBytes, holds⟩ := read_eq_some_iff.mp hRead
    rw [Address.ofPosition?_eq_some_iff.mp hAddress]
    exact ⟨hEnd, bytes, hBytes, holds, hDecode⟩
  · intro h
    obtain ⟨hEnd, bytes, hBytes, holds, hDecode⟩ := h
    have hAddress : position.toUInt64.toNat = position := UInt64.toNat_ofNat_of_lt (by omega)
    obtain ⟨hLow, hHigh⟩ := bounds_of_holds holds (List.length_pos_iff.mp (hBytes ▸ hLength))
    have hRead : builder.read position.toUInt64 length = some bytes := by
      rw [read_eq_some_iff, hAddress]
      exact ⟨hEnd, hLow, hBytes ▸ hHigh, hBytes, holds⟩
    rw [Address.ofPosition?_eq_some_iff.mpr hAddress.symm, Option.bind_some, hRead, ← hDecode]
    rfl

/-- Reading in place answers with what was laid out, unless the end is the end of the address
space. -/
theorem shows (hFinish : builder.finish < UInt64.size) :
    Reader.Shows builder.read builder.byte? := by
  intro position bytes hBytes holds
  obtain ⟨hLow, hHigh⟩ := bounds_of_holds holds hBytes
  have hSize : position < UInt64.size := by omega
  have hPosition : position.toUInt64.toNat = position := UInt64.toNat_ofNat_of_lt hSize
  refine ⟨position.toUInt64, by rw [Address.ofPosition?, if_pos hSize], ?_⟩
  rw [read_eq_some_iff, hPosition]
  exact ⟨by omega, hLow, hHigh, rfl, holds⟩

/-- The image that a builder is frozen into shows the same bytes. -/
theorem toImage_shows (hFinish : builder.finish < UInt64.size) (hBytes : builder.bytes ≠ #[]) :
    ∃ image, builder.toImage = .ok image ∧ Reader.Shows image.read builder.byte? := by
  refine ⟨_, Dump.ofSegment_eq_ok hBytes hFinish, fun position bytes hNonempty holds => ?_⟩
  obtain ⟨address, hAddress, hRead⟩ := shows hFinish position bytes hNonempty holds
  have image := @Dump.agrees_toImage ⟨builder.base, builder.bytes⟩ hFinish
  exact ⟨address, hAddress,
    ((image.read _ _).trans ((agrees_dump hFinish).read _ _).symm).trans hRead⟩

/-- What an operation leaves of a builder: nothing is taken away, and the bytes at the positions
that are kept stay what they are. -/
structure Grows (kept : Nat → Prop) (before after : Builder) : Prop where
  layout : after.layout = before.layout
  base : after.base = before.base
  nestedLists : after.nestedLists = before.nestedLists
  sound : before.Sound → after.Sound
  finish_le : before.finish ≤ after.finish
  bytes : ∀ position byte, kept position → before.byte? position = some byte →
    after.byte? position = some byte

/-- All bytes are kept. -/
abbrev Extends : Builder → Builder → Prop := Grows fun _ => True

variable {kept : Nat → Prop} {first second third : Builder}

theorem Grows.refl (builder : Builder) : Grows kept builder builder :=
  ⟨rfl, rfl, rfl, id, Nat.le_refl _, fun _ _ _ h => h⟩

theorem Grows.trans (left : Grows kept first second) (right : Grows kept second third) :
    Grows kept first third where
  layout := right.layout.trans left.layout
  base := right.base.trans left.base
  nestedLists := right.nestedLists.trans left.nestedLists
  sound := right.sound ∘ left.sound
  finish_le := Nat.le_trans left.finish_le right.finish_le
  bytes position byte hKept h := right.bytes position byte hKept (left.bytes position byte hKept h)

/-- It is enough to keep fewer positions, and those only that were laid out. -/
theorem Grows.weaken {fewer : Nat → Prop} (grows : Grows kept first second)
    (hFewer : ∀ position, first.base.toNat ≤ position → position < first.finish →
      fewer position → kept position) : Grows fewer first second where
  layout := grows.layout
  base := grows.base
  nestedLists := grows.nestedLists
  sound := grows.sound
  finish_le := grows.finish_le
  bytes position byte hPosition h := by
    obtain ⟨hLow, hHigh⟩ := byte?_eq_some h
    exact grows.bytes position byte (hFewer position hLow hHigh hPosition) h

/-- What changes later only has to be kept as far as bytes were laid out before. -/
theorem Grows.beyond {other : Nat → Prop} (left : Grows kept first second)
    (right : Grows other second third)
    (hOther : ∀ position, position < first.finish → kept position → other position) :
    Grows kept first third := by
  have chain : Grows (fun position => position < first.finish ∧ kept position) first third := by
    refine (left.weaken fun _ _ _ h => h.2).trans (right.weaken fun position _ _ h => ?_)
    exact hOther position h.1 h.2
  exact chain.weaken fun _ _ hHigh h => ⟨hHigh, h⟩

theorem Grows.of_extends (grows : Extends first second) : Grows kept first second :=
  grows.weaken fun _ _ _ _ => trivial

theorem Grows.within (grows : Extends first second) : first.byte?.Within second.byte? :=
  fun position byte h => grows.bytes position byte trivial h

/-- Fields at positions that are kept stay what they are. -/
theorem Grows.holds {position : Nat} {bytes : List UInt8} (grows : Grows kept first second)
    (holds : first.byte?.Holds position bytes)
    (hKept : ∀ other, position ≤ other → other < position + bytes.length → kept other) :
    second.byte?.Holds position bytes := by
  intro index hIndex
  have hHere := holds index hIndex
  rw [List.getElem?_eq_getElem hIndex] at hHere ⊢
  exact grows.bytes _ _ (hKept _ (Nat.le_add_right _ _) (by omega)) hHere

theorem Grows.stores {layout : Layout} {position : Nat} {value : Address}
    (grows : Grows kept first second) (stores : layout.Stores first.byte? position value)
    (hKept : ∀ other, position ≤ other → other < position + layout.pointerWidth.bytes →
      kept other) : layout.Stores second.byte? position value := by
  refine grows.holds stores fun other hLow hHigh => hKept other hLow ?_
  rwa [ByteOrder.length_encode] at hHigh

/-- The next block is aligned and not at the null address. -/
theorem Sound.finish_block (sound : builder.Sound) {address : Address}
    (hAddress : address.toNat = builder.finish) : address ≠ 0 ∧ address.toNat % 16 = 0 := by
  have hAligned := sound.base_aligned
  have hSize := sound.size_aligned
  have hPositive : builder.base.toNat ≠ 0 := fun h => sound.base_ne (UInt64.toNat_inj.mp h)
  unfold finish at hAddress
  refine ⟨fun h => ?_, by omega⟩
  rw [h, UInt64.toNat_zero] at hAddress
  omega

end Builder

end Conformance
