import Conformance.Builder.Structures
import Conformance.Proofs.Builder.Bytes
/-! Steps of laying out structures. Each operation is described by what holds when it succeeds and
by what is left when it fails; in both cases bytes are kept outside the fields that it writes. -/
namespace Conformance

namespace Build

variable {α β : Type} {builder : Builder}

/-- An operation ends with a result for which `post` holds, or fails and leaves a builder for which
`fail` holds. -/
def Ensures (action : Build α) (builder : Builder) (post : α → Builder → Prop)
    (fail : Builder → Prop) : Prop :=
  match action.run builder with
  | .ok result after => post result after
  | .error _ after => fail after

variable {post : α → Builder → Prop} {fail : Builder → Prop}

theorem Ensures.mono {action : Build α} {stronger : α → Builder → Prop} {less : Builder → Prop}
    (ensures : Ensures action builder stronger less)
    (hPost : ∀ result after, stronger result after → post result after)
    (hFail : ∀ after, less after → fail after) : Ensures action builder post fail := by
  unfold Ensures at ensures ⊢
  split at ensures
  · exact hPost _ _ ensures
  · exact hFail _ ensures

theorem Ensures.and {action : Build α} {other : α → Builder → Prop} {otherFail : Builder → Prop}
    (left : Ensures action builder post fail) (right : Ensures action builder other otherFail) :
    Ensures action builder (fun result after => post result after ∧ other result after)
      fun after => fail after ∧ otherFail after := by
  unfold Ensures at left right ⊢
  split at left
  · rename_i hRun
    rw [hRun] at right
    exact ⟨left, right⟩
  · rename_i hRun
    rw [hRun] at right
    exact ⟨left, right⟩

theorem ensures_pure {result : α} : Ensures (pure result) builder post fail ↔ post result builder :=
  Iff.rfl

theorem ensures_throw {error : Error} :
    Ensures (throw error : Build α) builder post fail ↔ fail builder :=
  Iff.rfl

theorem ensures_get {post : Builder → Builder → Prop} :
    Ensures get builder post fail ↔ post builder builder :=
  Iff.rfl

theorem ensures_modify {change : Builder → Builder} {post : Unit → Builder → Prop} :
    Ensures (modify change) builder post fail ↔ post () (change builder) :=
  Iff.rfl

theorem ensures_bind {action : Build α} {next : α → Build β} {post : β → Builder → Prop} :
    Ensures (action >>= next) builder post fail ↔
      Ensures action builder (fun result after => Ensures (next result) after post fail) fail := by
  unfold Ensures
  simp only [EStateM.run, bind, EStateM.bind]
  cases action builder <;> rfl

theorem ensures_place {base : Address} {offset : UInt64} {post : Address → Builder → Prop}
    (hPost : ∀ address, address.toNat = Address.plus base offset → post address builder)
    (hFail : fail builder) : Ensures (place base offset) builder post fail := by
  unfold place
  cases hAddress : Address.ofPosition? (Address.plus base offset) with
  | none => exact ensures_throw.mpr hFail
  | some address =>
      exact ensures_pure.mpr (hPost address (Address.ofPosition?_eq_some_iff.mp hAddress).symm)

/-- Positions outside a field. -/
def Outside (position width : Nat) : Nat → Prop := fun other =>
  other < position ∨ position + width ≤ other

theorem byte?_overwrite {offset : Nat} {bytes : List UInt8}
    (hSize : offset + bytes.length ≤ builder.bytes.size) (position : Nat) :
    Builder.byte? { builder with bytes := builder.bytes.overwrite offset bytes } position =
      if builder.base.toNat + offset ≤ position ∧
          position < builder.base.toNat + offset + bytes.length then
        bytes[position - (builder.base.toNat + offset)]?
      else builder.byte? position := by
  unfold Builder.byte?
  dsimp only
  rw [Buffer.getElem?_overwrite]
  by_cases hBase : builder.base.toNat ≤ position
  · rw [if_pos hBase, if_pos hBase]
    have hShift : position - builder.base.toNat - offset =
        position - (builder.base.toNat + offset) := by omega
    rw [hShift]
    congr 1
    apply propext
    omega
  · rw [if_neg hBase, if_neg hBase, if_neg (by omega)]

/-- A write changes the bytes that it writes, which have to be laid out already. -/
theorem ensures_write (address : Address) (bytes : List UInt8) :
    Ensures (write address bytes) builder
      (fun _ after => Builder.Grows (Outside address.toNat bytes.length) builder after ∧
        after.finish = builder.finish ∧ after.byte?.Holds address.toNat bytes)
      (fun after => after = builder) := by
  unfold write
  rw [ensures_bind, ensures_get]
  cases hOffset : builder.offsetOf? address bytes.length with
  | none => exact ensures_throw.mpr rfl
  | some offset =>
      dsimp only
      rw [ensures_modify]
      unfold Builder.offsetOf? at hOffset
      split_ifs at hOffset with hInside
      obtain ⟨hBase, hSize⟩ := hInside
      obtain hOffset := Option.some.inj hOffset
      have hAddress : builder.base.toNat + offset = address.toNat := by
        have := UInt64.le_iff_toNat_le.mp hBase
        omega
      have hByte := byte?_overwrite (hOffset ▸ hSize : offset + bytes.length ≤ builder.bytes.size)
      rw [hAddress] at hByte
      have hFinish : Builder.finish { builder with bytes := builder.bytes.overwrite offset bytes } =
          builder.finish := by
        simp [Builder.finish]
      refine ⟨⟨rfl, rfl, rfl, fun sound => ?_, Nat.le_of_eq hFinish.symm, ?_⟩, hFinish, ?_⟩
      · refine ⟨sound.base_ne, sound.base_aligned, ?_,
          Nat.le_trans (Nat.le_of_eq hFinish) sound.finish_le⟩
        rw [Buffer.size_overwrite]
        exact sound.size_aligned
      · intro position byte hOutside h
        rw [hByte, if_neg (fun hInside => by unfold Outside at hOutside; omega)]
        exact h
      · intro index hIndex
        rw [hByte, if_pos (by omega), Nat.add_sub_cancel_left]

theorem ensures_writeField (address : Address) (width : Nat) (value : UInt64) :
    Ensures (writeField address width value) builder
      (fun _ after => Builder.Grows (Outside address.toNat width) builder after ∧
        after.finish = builder.finish ∧ value.toNat < 256 ^ width ∧
        after.byte?.Holds address.toNat (builder.layout.order.encode width value.toNat))
      (fun after => after = builder) := by
  unfold writeField
  rw [ensures_bind, ensures_get]
  cases hBytes : builder.layout.order.wordBytes width value with
  | error => exact ensures_throw.mpr rfl
  | ok bytes =>
      obtain ⟨-, hValue, rfl⟩ := ByteOrder.wordBytes_eq_ok_iff.mp hBytes
      refine (ensures_write address _).mono (fun _ after h => ?_) fun _ h => h
      rw [ByteOrder.length_encode] at h
      exact ⟨h.1, h.2.1, hValue, h.2.2⟩

/-- A pointer is stored in a field that is laid out already. -/
theorem ensures_writePointer (address value : Address) :
    Ensures (writePointer address value) builder
      (fun _ after =>
        Builder.Grows (Outside address.toNat builder.layout.pointerWidth.bytes) builder after ∧
          after.finish = builder.finish ∧ builder.layout.Stores after.byte? address.toNat value)
      (fun after => after = builder) := by
  unfold writePointer
  rw [ensures_bind, ensures_get]
  refine (ensures_writeField address _ value).mono (fun _ after h => ?_) fun _ h => h
  exact ⟨h.1, h.2.1, h.2.2.2⟩

theorem toNat_word_le (builder : Builder) : builder.word.toNat ≤ 64 := by
  have hWidth : builder.word.toNat = builder.layout.pointerWidth.bytes := Width.word_toNat _
  rw [hWidth]
  cases builder.layout.pointerWidth <;> decide

theorem toNat_alignUp (size : UInt64) :
    (Builder.alignUp size).toNat = (size.toNat + (16 - size.toNat % 16) % 16) % 2 ^ 64 := by
  have hMod : (size % 16).toNat = size.toNat % 16 := rfl
  have hSub : (16 - size % 16 : UInt64).toNat = 16 - size.toNat % 16 := by
    have hLow : size % 16 ≤ 16 := by
      rw [UInt64.le_iff_toNat_le, hMod]
      exact Nat.le_of_lt (Nat.mod_lt _ (by decide))
    rw [UInt64.toNat_sub_of_le _ _ hLow, hMod]
    rfl
  change (size + (16 - size % 16) % 16 : UInt64).toNat = _
  rw [UInt64.toNat_add, UInt64.toNat_mod, hSub]
  rfl

theorem byte?_append (count : Nat) (position : Nat) :
    Builder.byte? { builder with bytes := builder.bytes ++ Array.replicate count 0 } position =
      if builder.finish ≤ position ∧ position < builder.finish + count then some 0
      else builder.byte? position := by
  unfold Builder.byte? Builder.finish
  dsimp only
  by_cases hBase : builder.base.toNat ≤ position
  · rw [if_pos hBase, if_pos hBase, Array.getElem?_append]
    by_cases hOld : position - builder.base.toNat < builder.bytes.size
    · rw [if_pos hOld, if_neg (by omega)]
    · rw [if_neg hOld, Array.getElem?_replicate]
      split_ifs
      · rfl
      · omega
      · omega
      · rw [Array.getElem?_eq_none (by omega)]
  · rw [if_neg hBase, if_neg hBase, if_neg (by omega)]

theorem grows_append {count : Nat} (hAligned : count % 16 = 0)
    (hFinish : builder.finish + count ≤ 2 ^ 64) :
    Builder.Extends builder
      { builder with bytes := builder.bytes ++ Array.replicate count 0 } := by
  refine ⟨rfl, rfl, rfl, fun sound => ?_, ?_, fun position byte _ h => ?_⟩
  · refine ⟨sound.base_ne, sound.base_aligned, ?_, ?_⟩
    · have hSize := sound.size_aligned
      simp only [Array.size_append, Array.size_replicate]
      omega
    · simpa [Builder.finish, Nat.add_assoc] using hFinish
  · simp [Builder.finish]
  · have hHigh := (Builder.byte?_eq_some h).2
    rw [byte?_append, if_neg (by omega)]
    exact h

theorem fits_append {count : Nat} (fits : builder.Fits) (hAligned : count % 16 = 0)
    (hSize : builder.bytes.size + count < 2 ^ 64) (hFinish : builder.finish + count ≤ 2 ^ 64) :
    Builder.Fits { builder with bytes := builder.bytes ++ Array.replicate count 0 } := by
  have hOld := fits.size_aligned
  refine ⟨?_, ?_, ?_⟩
  · rw [Array.size_append, Array.size_replicate]
    omega
  · rwa [Array.size_append, Array.size_replicate]
  · simpa [Builder.finish, Nat.add_assoc] using hFinish

/-- The end of a new block: a multiple of the alignment after the bytes laid out before, and as
large a block as asked for, unless its size goes round the end of the address space. -/
theorem toNat_alignUp_max (size : UInt64) :
    (Builder.alignUp (max size Builder.minBlock)).toNat % 16 = 0 ∧
      (size.toNat ≤ 2 ^ 63 →
        max size.toNat 64 ≤ (Builder.alignUp (max size Builder.minBlock)).toNat) := by
  have hMax : (max size Builder.minBlock).toNat = max size.toNat 64 := by
    have hBlock : Builder.minBlock.toNat = 64 := rfl
    change (if size ≤ Builder.minBlock then Builder.minBlock else size).toNat = _
    split_ifs with hSmall <;> rw [UInt64.le_iff_toNat_le] at hSmall <;> omega
  rw [toNat_alignUp, hMax]
  have := size.toNat_lt
  omega

/-- Blocks start where the bytes laid out before end. -/
theorem toNat_alignUp_size (fits : builder.Fits) :
    (Builder.alignUp builder.bytes.size.toUInt64).toNat = builder.bytes.size := by
  have hSame : builder.bytes.size.toUInt64.toNat = builder.bytes.size :=
    UInt64.toNat_ofNat_of_lt fits.size_lt
  rw [toNat_alignUp, hSame, fits.size_aligned]
  exact Nat.mod_eq_of_lt fits.size_lt

/-- A range whose last byte has an address ends in the address space. -/
theorem finish_le_of_last {base finish last : UInt64}
    (hLast : last.toNat = Address.plus base (finish - 1)) :
    base.toNat + finish.toNat ≤ 2 ^ 64 := by
  have hOne : (1 : UInt64).toNat = 1 := rfl
  have hBound := last.toNat_lt
  unfold Address.plus at hLast
  by_cases hEmpty : finish = 0
  · rw [hEmpty, show (0 - 1 : UInt64).toNat = 2 ^ 64 - 1 from rfl] at hLast
    rw [hEmpty, UInt64.toNat_zero]
    omega
  · have hFinish : finish.toNat ≠ 0 := fun h => hEmpty (UInt64.toNat_inj.mp h)
    have hNonempty : (1 : UInt64) ≤ finish := by
      rw [UInt64.le_iff_toNat_le, hOne]
      omega
    rw [UInt64.toNat_sub_of_le _ _ hNonempty, hOne] at hLast
    omega

/-- Appending a block keeps everything that was laid out. The block starts where the bytes ended and
is zero; it is as large as it has to be unless its size goes round the end of the address space. -/
theorem ensures_allocate_of_fits (size : UInt64) (fits : builder.Fits) :
    Ensures (allocate size) builder
      (fun address after => Builder.Extends builder after ∧ after.Fits ∧
        address.toNat = builder.finish ∧
        (∀ position, builder.finish ≤ position → position < after.finish →
          after.byte? position = some 0) ∧
        (size.toNat ≤ 2 ^ 63 → builder.finish + max size.toNat 64 ≤ after.finish))
      (fun after => after = builder) := by
  obtain ⟨hAligned, hLarge⟩ := toNat_alignUp_max size
  have hStart := toNat_alignUp_size fits
  unfold allocate
  rw [ensures_bind, ensures_get]
  generalize Builder.alignUp (max size Builder.minBlock) = block at hAligned hLarge ⊢
  generalize Builder.alignUp builder.bytes.size.toUInt64 = start at hStart ⊢
  rw [ensures_bind]
  refine ensures_place (fun finish hFinish => ?_) rfl
  rw [ensures_bind]
  refine ensures_place (fun address hAddress => ?_) rfl
  rw [ensures_bind]
  refine ensures_place (fun last hLast => ?_) rfl
  have hEnd := finish_le_of_last hLast
  unfold Address.plus at hFinish hAddress
  split_ifs with hWidth
  · exact rfl
  · rw [ensures_bind, ensures_modify, ensures_pure]
    have hCount : finish.toNat - builder.bytes.size = block.toNat := by omega
    have hAfter : builder.finish + block.toNat ≤ 2 ^ 64 := by
      unfold Builder.finish
      omega
    rw [hCount]
    have hSize : builder.bytes.size + block.toNat < 2 ^ 64 := by
      have hBound := finish.toNat_lt
      omega
    refine ⟨grows_append hAligned hAfter, fits_append fits hAligned hSize hAfter, ?_,
      fun position hLow hHigh => ?_, fun hSmall => ?_⟩
    · exact hAddress.trans (hStart ▸ rfl)
    · have hHigh : position < builder.finish + block.toNat := by
        simpa [Builder.finish, Nat.add_assoc] using hHigh
      rw [byte?_append, if_pos ⟨hLow, hHigh⟩]
    · have hRoom := hLarge hSmall
      simp only [Builder.finish, Array.size_append, Array.size_replicate]
      omega

theorem ensures_allocate (size : UInt64) (hSound : builder.Sound) :
    Ensures (allocate size) builder
      (fun address after => Builder.Extends builder after ∧ address.toNat = builder.finish ∧
        (∀ position, builder.finish ≤ position → position < after.finish →
          after.byte? position = some 0) ∧
        (size.toNat ≤ 2 ^ 63 → builder.finish + max size.toNat 64 ≤ after.finish))
      (fun after => after = builder) := by
  refine (ensures_allocate_of_fits size hSound.fits).mono (fun address after h => ?_) fun _ h => h
  obtain ⟨grows, -, rest⟩ := h
  exact ⟨grows, rest⟩

end Build

end Conformance
