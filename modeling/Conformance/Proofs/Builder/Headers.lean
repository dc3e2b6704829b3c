import Conformance.Proofs.Builder.Reachable
import Conformance.Proofs.Builder.Structures
/-! Headers of objects that a builder hands out. A header keeps the bits of the type's address that
the masks of the runtime keep, and a builder does not ask which these are: it compares addresses
with the width of a pointer only, and aligns the distance of a block from its first byte. -/
namespace Conformance

namespace Address

/-- A mask that keeps the bits from `low` up to `high`. -/
def Selects (low high : Nat) (mask : UInt64) : Prop :=
  ∀ index < 64, mask.toNat.testBit index = decide (low ≤ index ∧ index < high)

theorem lt_of_testBit {address : Address} {index : Nat}
    (hBit : address.toNat.testBit index = true) : index < 64 :=
  (@range_of_testBit 0 64 address (Nat.mod_one _) address.toNat_lt index hBit).2

/-- The addresses that a mask leaves alone. -/
theorem Selects.and_eq_self_iff {low high : Nat} {mask : UInt64} (selects : Selects low high mask)
    (address : Address) :
    address &&& mask = address ↔ address.toNat % 2 ^ low = 0 ∧ address.toNat < 2 ^ high := by
  have hBits : address &&& mask = address ↔
      ∀ index, address.toNat.testBit index = true → low ≤ index ∧ index < high := by
    rw [← UInt64.toNat_inj, UInt64.toNat_and]
    constructor
    · intro h index hBit
      have hHere := congrArg (Nat.testBit · index) h
      simpa [Nat.testBit_and, hBit, selects index (lt_of_testBit hBit)] using hHere
    · intro h
      apply Nat.eq_of_testBit_eq
      intro index
      rw [Nat.testBit_and]
      cases hBit : address.toNat.testBit index with
      | false => rfl
      | true => simp [selects index (lt_of_testBit hBit), h index hBit]
  rw [hBits]
  refine ⟨fun h => ⟨?_, ?_⟩, fun h index hBit => range_of_testBit h.1 h.2 hBit⟩
  · apply Nat.eq_of_testBit_eq
    intro index
    rw [Nat.testBit_mod_two_pow, Nat.zero_testBit, Bool.and_eq_false_imp]
    intro hLow
    by_contra hBit
    exact absurd (h index (by simpa using hBit)).1 (by simpa using hLow)
  · refine Nat.lt_pow_two_of_testBit _ fun index hIndex => ?_
    by_contra hBit
    exact absurd (h index (by simpa using hBit)).2 (by omega)

end Address

namespace Runtime

/-- The bits of an object's header that belong to the address of its type. -/
def headerMask (runtime : Runtime) : UInt64 :=
  runtime.layout.pointerMask &&& runtime.layout.objectType.first.mask

/-- The number of low bits of a header that hold flags. -/
def flagBits : Runtime → Nat
  | .objc2Arm64 | .objc2X86_64 => 3
  | .compact64 | .compact32 => 0

theorem headerMask_selects (runtime : Runtime) :
    Address.Selects runtime.flagBits runtime.addressBits runtime.headerMask := by
  unfold Address.Selects
  cases runtime <;> decide

/-- The type of an object is found by one look at its header, which is its first word. -/
theorem objectType_eq (runtime : Runtime) :
    runtime.layout.objectType = .single ⟨0, runtime.layout.objectType.first.mask, 0⟩ := by
  cases runtime <;> rfl

/-- Blocks are aligned to more than the flags take, so only the base decides on the low bits. -/
theorem aligned_iff (runtime : Runtime) {base size : Nat} (hSize : size % 16 = 0) :
    (base + size) % 2 ^ runtime.flagBits = 0 ↔ base % 2 ^ runtime.flagBits = 0 := by
  cases runtime <;> simp only [flagBits] <;> omega

end Runtime

namespace Layout

variable {layout : Layout}

theorem run_follow_single {reader : Reader} {path : Path} {base word : Address}
    {offset mask : UInt64} (hPath : path = .single ⟨offset, mask, 0⟩)
    (hRead : (layout.readPointer (Address.plus base offset)).run reader = some word) :
    (layout.follow base path).run reader = some (word &&& mask) := by
  have hHop : (layout.readHop base ⟨offset, mask, 0⟩).run reader = some (word &&& mask) := by
    unfold readHop
    rw [Probe.run_bind, hRead]
    dsimp only
    rw [if_pos UInt64.and_zero]
    rfl
  subst hPath
  unfold follow Path.hops Path.single followHops
  rw [Probe.run_bind, hHop]
  dsimp only
  split_ifs with hNull
  · rw [hNull]
    rfl
  · rfl

/-- A stored word is read back by a builder, up to the bits that no pointer has. -/
theorem run_readPointer_of_stores {builder : Builder} {position : Nat} {value : Address}
    (stores : layout.Stores builder.byte? position value)
    (hEnd : position + layout.pointerWidth.bytes < UInt64.size)
    (hValue : value.toNat < 256 ^ layout.pointerWidth.bytes) :
    (layout.readPointer position).run builder.read = some (value &&& layout.pointerMask) := by
  refine (Builder.run_fetch_eq_some_iff layout.pointerWidth.bytes_pos).mpr
    ⟨hEnd, _, ByteOrder.length_encode _ _ _, stores, ?_⟩
  rw [decodeWord_encode hValue]

end Layout

namespace Builder

variable {before middle after : Builder} {address : Address}

/-- What an operation leaves that hands out a new block. -/
structure HandsOut (before : Builder) (address : Address) (after : Builder) : Prop
    extends before.Continues after where
  position : address.toNat = before.finish
  room : before.finish + 64 ≤ after.finish

theorem HandsOut.later (block : before.HandsOut address middle)
    (continues : middle.Continues after) : before.HandsOut address after :=
  ⟨block.toContinues.trans continues, block.position,
    Nat.le_trans block.room continues.finish_le⟩

/-- What an operation leaves that hands out an object of a type. -/
structure HandsObject (before : Builder) (type object : Address) (after : Builder) : Prop
    extends before.HandsOut object after where
  type_lt : type.toNat < 256 ^ before.layout.pointerWidth.bytes
  header : before.layout.Stores after.byte? object.toNat type

end Builder

namespace Build

variable {builder : Builder} {bits : Nat}

theorem ensures_allocate_handsOut {size : UInt64} (fits : builder.Fits) (hSize : size.toNat ≤ 64) :
    Ensures (allocate size) builder builder.HandsOut builder.Continues := by
  refine (ensures_allocate_of_fits size fits).mono (fun address after h => ?_) fun _ h =>
    h ▸ fits.continues
  obtain ⟨extended, hAfter, hAddress, -, hRoom⟩ := h
  have hRoom := hRoom (Nat.le_trans hSize (by decide))
  exact ⟨⟨extended.layout, extended.base, extended.finish_le, hAfter⟩, hAddress, by omega⟩

theorem ensures_type_handsOut (superclass : Option Address) (declared : List Address)
    (fits : builder.Fits) (hRegular : builder.layout.Regular bits) :
    Ensures (type superclass declared) builder builder.HandsOut builder.Continues := by
  have hFirst := (hRegular.conformances _ List.mem_cons_self).offset
  have hSuperclass := hRegular.superclass.2.offset
  unfold Build.type
  rw [ensures_bind, ensures_get]
  dsimp only
  rw [ensures_bind]
  refine (ensures_allocate_handsOut fits (toNat_max_add_le hSuperclass hFirst)).mono
    (fun type first block => ?_) fun _ h => h
  have hDone {after : Builder} (continues : first.Continues after) :
      Ensures (pure type) after builder.HandsOut first.Continues :=
    block.later continues
  refine Ensures.mono ?_ (fun _ _ h => h) fun _ h => block.toContinues.trans h
  refine (works_list declared).advances.ensures_bind block.fits.continues fun list second h => ?_
  refine (works_store _ _ _).advances.ensures_bind h fun _ third h => ?_
  cases superclass with
  | none => exact hDone h
  | some superclass => exact (works_setSuperclass _ _).advances.ensures_bind h fun _ _ h => hDone h

theorem ensures_object_handsObject (type : Address) {mask : UInt64} (fits : builder.Fits)
    (hRegular : builder.layout.Regular bits)
    (hPath : builder.layout.objectType = .single ⟨0, mask, 0⟩) :
    Ensures (object type) builder (builder.HandsObject type) builder.Continues := by
  have hFirst := (hRegular.objectType _ List.mem_cons_self).offset
  unfold object
  rw [ensures_bind, ensures_get, ensures_bind]
  refine (ensures_allocate_handsOut fits (toNat_field_le hFirst)).mono
    (fun object first block => ?_) fun _ h => h
  rw [hPath]
  unfold store storeAlong Path.single
  rw [ensures_bind, ensures_bind]
  refine ensures_place (fun field hField => ?_) block.toContinues
  obtain rfl : field = object := UInt64.toNat_inj.mp hField
  unfold writePointer
  rw [ensures_bind, ensures_get]
  have written := (ensures_writeField field first.layout.pointerWidth.bytes type).and
    ((works_writeField _ _ (Nat.zero_le _)).advances first block.fits)
  rw [block.layout] at written ⊢
  refine written.mono (fun _ after h => ?_) fun _ h => block.toContinues.trans h.2
  obtain ⟨⟨-, -, hType, header⟩, continues⟩ := h
  exact ⟨block.later continues, hType, header⟩

end Build

namespace Builder

/-- The header of a new object shows of its type what the masks keep. -/
theorem HandsObject.run_follow {runtime : Runtime} {before after : Builder} {type object : Address}
    (handed : before.HandsObject type object after) (hLayout : before.layout = runtime.layout) :
    (after.layout.follow object after.layout.objectType).run after.read =
      some (type &&& runtime.headerMask) := by
  have hAfter := handed.layout.trans hLayout
  obtain ⟨block, hType, header⟩ := handed
  have hEnd : object.toNat + runtime.layout.pointerWidth.bytes < UInt64.size := by
    have hWidth : runtime.layout.pointerWidth.bytes ≤ 8 := by
      cases runtime <;> decide
    have hFits := block.fits.finish_le
    have hRoom := block.room
    rw [← block.position] at hRoom
    have hSize : UInt64.size = 2 ^ 64 := rfl
    omega
  rw [hLayout] at hType header
  have hRead := Layout.run_readPointer_of_stores header hEnd hType
  rw [hAfter, Layout.run_follow_single runtime.objectType_eq hRead, UInt64.and_assoc]
  rfl

/-- A type and an object of it can be used: they are not null, and the object leads to its type. -/
def Usable (builder : Builder) (type object : Address) : Prop :=
  type ≠ 0 ∧ object ≠ 0 ∧
    (builder.layout.follow object builder.layout.objectType).run builder.read = some type

instance (builder : Builder) (type object : Address) : Decidable (builder.Usable type object) :=
  inferInstanceAs (Decidable (_ ∧ _ ∧ _))

/-- A type is handed out where the bytes end, and an object of it shows of that address what the
masks of the runtime keep. The pair can be used if the masks keep all of it, and if it is not the
first block at the null address; nothing else is asked of the calls, and nothing else is checked by
them. -/
theorem Reaches.usable_iff {runtime : Runtime} {base : Address} {before later : Builder}
    {superclass : Option Address} {declared : List Address} {type object : Address}
    (run : (start runtime.layout base).Reaches before)
    (hType : before.result? (Build.type superclass declared) = some type)
    (rest : (before.after (Build.type superclass declared)).Reaches later)
    (hObject : later.result? (Build.object type) = some object) :
    type.toNat = base.toNat + before.bytes.size ∧ object ≠ 0 ∧
      ((later.after (Build.object type)).layout.follow object
          (later.after (Build.object type)).layout.objectType).run
        (later.after (Build.object type)).read = some (type &&& runtime.headerMask) ∧
      ((later.after (Build.object type)).Usable type object ↔
        (base ≠ 0 ∨ before.bytes ≠ #[]) ∧ base.toNat % 2 ^ runtime.flagBits = 0 ∧
          type.toNat < 2 ^ runtime.addressBits) := by
  have first := run.continues (fits_start _ _)
  have hLayout : before.layout = runtime.layout := first.layout
  have hBase : before.base = base := first.base
  have typed := (Build.ensures_type_handsOut superclass declared first.fits
    (hLayout ▸ runtime.regular)).of_run hType
  have second := rest.continues typed.fits
  have hLater : later.layout = runtime.layout := (second.layout.trans typed.layout).trans hLayout
  have handed := (Build.ensures_object_handsObject type second.fits (hLater ▸ runtime.regular)
    (hLater ▸ runtime.objectType_eq)).of_run hObject
  have hPosition : type.toNat = base.toNat + before.bytes.size := hBase ▸ typed.position
  have hNonnull : object ≠ 0 := by
    intro hNull
    have hObject := handed.position
    have hGrown := second.finish_le
    have hRoom := typed.room
    rw [hNull, UInt64.toNat_zero] at hObject
    omega
  have hFollow := handed.run_follow hLater
  have hTypeNull : type ≠ 0 ↔ base ≠ 0 ∨ before.bytes ≠ #[] := by
    rw [← not_and_or, not_iff_not, ← UInt64.toNat_inj, ← UInt64.toNat_inj, UInt64.toNat_zero,
      ← Array.size_eq_zero_iff]
    omega
  refine ⟨hPosition, hNonnull, hFollow, ?_⟩
  unfold Usable
  rw [hFollow, Option.some.injEq, runtime.headerMask_selects.and_eq_self_iff, hTypeNull, hPosition,
    runtime.aligned_iff first.fits.size_aligned]
  exact and_congr_right fun _ => and_iff_right hNonnull

/-- A type, a protocol and an object that fill the address space of 32 bits to its end. -/
theorem usable_iff_filled :
    let first := start Runtime.compact32.layout 0xFFFFFF40
    let second := (first.after (Build.type none [])).after (Build.protocol [])
    first.result? (Build.type none []) = some 0xFFFFFF40 ∧
      second.result? (Build.object 0xFFFFFF40) = some 0xFFFFFFC0 ∧
      (second.after (Build.object 0xFFFFFF40)).Usable 0xFFFFFF40 0xFFFFFFC0 := by
  intro first second
  have hType : first.result? (Build.type none []) = some 0xFFFFFF40 := by decide +kernel
  have hObject : second.result? (Build.object 0xFFFFFF40) = some 0xFFFFFFC0 := by decide +kernel
  refine ⟨hType, hObject, ?_⟩
  exact (Reaches.usable_iff .refl hType (.protocol .refl []) hObject).2.2.2.mpr (by decide +kernel)

/-- A type that starts where the 47 bits of an address end is handed out, and so is an object of it,
whose header leads to null. -/
theorem not_usable_crossing :
    let first := (start Runtime.objc2X86_64.layout 0x7FFFFFFFFFC0).after (Build.protocol [])
    let second := first.after (Build.type none [])
    (start Runtime.objc2X86_64.layout 0x7FFFFFFFFFC0).Reaches first ∧
      first.result? (Build.type none []) = some 0x800000000000 ∧
      second.result? (Build.object 0x800000000000) = some 0x8000000000C0 ∧
      ¬ (second.after (Build.object 0x800000000000)).Usable 0x800000000000 0x8000000000C0 :=
  ⟨.protocol .refl [], by decide +kernel⟩

end Builder

end Conformance
