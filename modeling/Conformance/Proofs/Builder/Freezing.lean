import Conformance.Proofs.Builder.Frame
import Conformance.Proofs.Source.Readable
/-! What becomes of a builder that is frozen. A call that succeeds has laid something out, so that
there is something to freeze. A block may end where the address space ends, since only its last byte
needs an address; an image and a read need an address for the end. -/
namespace Conformance

namespace Builder

variable {builder before after : Builder}

theorem nonempty_iff : builder.bytes ≠ #[] ↔ builder.base.toNat < builder.finish := by
  rw [Ne, ← Array.size_eq_zero_iff]
  unfold finish
  omega

theorem nonempty_of_holds {position : Nat} {bytes : List UInt8}
    (holds : builder.byte?.Holds position bytes) (hBytes : bytes ≠ []) : builder.bytes ≠ #[] := by
  have hInside := bounds_of_holds holds hBytes
  have hLength := List.length_pos_iff.mpr hBytes
  exact nonempty_iff.mpr (by omega)

theorem Continues.nonempty (continues : before.Continues after) (hBytes : before.bytes ≠ #[]) :
    after.bytes ≠ #[] := by
  rw [nonempty_iff] at hBytes ⊢
  rw [continues.base]
  exact Nat.lt_of_lt_of_le hBytes continues.finish_le

end Builder

namespace Build

variable {α β : Type} {builder : Builder}

/-- An operation that succeeds leaves a builder with bytes. -/
def Occupies (action : Build α) : Prop :=
  ∀ builder : Builder, builder.Fits →
    Ensures action builder (fun _ after => after.bytes ≠ #[]) fun _ => True

/-- What comes before an operation that occupies does not matter. -/
theorem Advances.occupies {action : Build α} {next : α → Build β} (advances : Advances action)
    (hNext : ∀ result, Occupies (next result)) : Occupies (action >>= next) := by
  intro builder fits
  rw [Build.ensures_bind]
  exact (advances builder fits).mono (fun result after h => hNext result after h.fits)
    fun _ _ => trivial

/-- What comes after an operation that occupies takes no bytes away. -/
theorem Occupies.bind {action : Build α} {next : α → Build β} (occupies : Occupies action)
    (advances : Advances action) (hNext : ∀ result, Advances (next result)) :
    Occupies (action >>= next) := by
  intro builder fits
  rw [Build.ensures_bind]
  refine ((occupies builder fits).and (advances builder fits)).mono (fun result middle h => ?_)
    fun _ _ => trivial
  exact (hNext result middle h.2.fits).mono (fun _ _ continues => continues.nonempty h.1)
    fun _ _ => trivial

theorem occupies_throw (error : Error) : Occupies (throw error : Build α) :=
  fun _ _ => trivial

theorem occupies_writePointer (address value : Address) :
    Occupies (writePointer address value) :=
  fun _ _ => (ensures_writePointer address value).mono
    (fun _ _ h => Builder.nonempty_of_holds h.2.2 (Layout.encode_ne_nil _ _ _)) fun _ _ => trivial

theorem occupies_allocate {size : UInt64} (hSize : size.toNat ≤ 2 ^ 63) :
    Occupies (allocate size) := by
  intro builder fits
  refine (ensures_allocate_of_fits size fits).mono (fun _ after h => ?_) fun _ _ => trivial
  obtain ⟨grows, -, -, -, hRoom⟩ := h
  have hLarge := hRoom hSize
  have hStart : builder.base.toNat ≤ builder.finish := Nat.le_add_right _ _
  exact Builder.nonempty_iff.mpr (grows.base ▸ by omega)

theorem advances_allocate (size : UInt64) : Advances (allocate size) :=
  (works_allocate size).advances

theorem advances_place (base : Address) (offset : UInt64) : Advances (place base offset) :=
  (works_place offset (Nat.zero_le _)).advances

/-- The last step of storing a value is a write. -/
theorem occupies_storeAlong (base value : Address) (hop : Hop) (rest : List Hop) :
    Occupies (storeAlong base value hop rest) := by
  induction rest generalizing base hop with
  | nil => exact (advances_place _ _).occupies fun _ => occupies_writePointer _ _
  | cons next rest ih =>
      refine (advances_place _ _).occupies fun field =>
        works_get.advances.occupies fun builder => ?_
      split
      · exact occupies_throw _
      · split_ifs
        · exact ih _ _
        · exact (advances_allocate _).occupies fun block =>
            (works_writePointer block (Nat.zero_le _)).advances.occupies fun _ => ih _ _

theorem occupies_type (superclass : Option Address) (declared : List Address) :
    Occupies (type superclass declared) := by
  refine works_get.advances.occupies fun builder => ?_
  dsimp only
  refine (advances_allocate _).occupies fun type =>
    (works_list declared).advances.occupies fun list =>
      (occupies_storeAlong _ _ _ _).bind (works_store _ _ _).advances fun _ => ?_
  split
  · exact (works_setSuperclass _ _).advances.bind fun _ => advances_pure _
  · exact advances_pure _

theorem occupies_object (type : Address) : Occupies (object type) :=
  works_get.advances.occupies fun _ => (advances_allocate _).occupies fun _ =>
    (occupies_storeAlong _ _ _ _).bind (works_store _ _ _).advances fun _ => advances_pure _

theorem occupies_protocol (incorporated : List Address) : Occupies (protocol incorporated) := by
  refine works_get.advances.occupies fun builder => ?_
  have hWord := Nat.le_trans (toNat_word_le builder) (by decide : 64 ≤ 2 ^ 63)
  have hList := (works_list incorporated).advances
  split
  · exact (advances_allocate _).occupies fun _ => hList.occupies fun _ =>
      (advances_place _ _).occupies fun _ =>
        (occupies_writePointer _ _).bind (works_writePointer _ (Nat.zero_le _)).advances
          fun _ => advances_pure _
  · refine (occupies_allocate hWord).bind (advances_allocate _) fun _ => hList.bind fun list => ?_
    exact fun _ fits => ⟨rfl, rfl, Nat.le_refl _, fits.size_aligned, fits.size_lt, fits.finish_le⟩
  · exact (occupies_allocate hWord).bind (advances_allocate _) fun _ => hList.bind
      fun _ => advances_pure _

theorem occupies_composition (protocols : List Address) (superclass : Option Address) :
    Occupies (composition protocols superclass) := by
  refine works_get.advances.occupies fun builder => ?_
  split
  · exact occupies_throw _
  · rename_i encoding _
    have hField (address : Address) (value : UInt64) : Advances (writeField address 4 value) :=
      (works_writeField _ _ (Nat.zero_le _)).advances
    have hRest (trailing : List Address) (flags : UInt32) : Occupies (do
        let composition ←
          allocate (encoding.trailingOffset + trailing.length.toUInt64 * builder.word)
        writePointer (← place composition encoding.kindOffset) Kind.existential.word
        writeField (← place composition encoding.flagsOffset) 4 flags.toUInt64
        writeField (← place composition encoding.countOffset) 4 protocols.length.toUInt64
        writePointers (← place composition encoding.trailingOffset) trailing
        pure composition) :=
      (advances_allocate _).occupies fun _ => (advances_place _ _).occupies fun _ =>
        (occupies_writePointer _ _).bind (works_writePointer _ (Nat.zero_le _)).advances fun _ =>
          (advances_place _ _).bind fun _ => (hField _ _).bind fun _ =>
            (advances_place _ _).bind fun _ => (hField _ _).bind fun _ =>
              (advances_place _ _).bind fun _ =>
                (works_writePointers _ (Nat.zero_le _)).advances.bind fun _ => advances_pure _
    have hMany : Advances (throw .outOfBounds : Build PUnit) :=
      (works_throw _ : Works 0 _ anything).advances
    dsimp only
    split_ifs
    · exact hMany.occupies fun _ => hRest _ _
    · exact hMany.occupies fun _ => hRest _ _
    · exact hRest _ _
    · exact hRest _ _

theorem LaysOut.occupies {call : Build Address} (lays : LaysOut call) : Occupies call := by
  cases lays with
  | protocol => exact occupies_protocol _
  | type => exact occupies_type _ _
  | object => exact occupies_object _
  | composition => exact occupies_composition _ _

end Build

namespace Builder

variable {builder : Builder}

/-- A builder that holds bytes is frozen into one segment, unless they end where the address space
ends. -/
theorem toImage_eq (fits : builder.Fits) (hBytes : builder.bytes ≠ #[]) :
    builder.toImage = if builder.finish = UInt64.size then .error .outOfBounds
      else .ok ⟨[⟨builder.base, builder.bytes⟩]⟩ := by
  have hFinish := fits.finish_le
  have hSize : UInt64.size = 2 ^ 64 := rfl
  split_ifs with hEnd
  · have hEmpty : ¬ builder.bytes.isEmpty = true := by simpa using hBytes
    have hRange : Address.rangeEnd? builder.base builder.bytes.size = none :=
      Address.ofPosition?_eq_none_iff.mpr (Nat.le_of_eq hEnd.symm)
    unfold toImage Image.ofSegment Image.addSegment
    rw [if_neg hEmpty, hRange]
  · have hInside : builder.finish < UInt64.size := by omega
    exact Dump.ofSegment_eq_ok hBytes hInside

/-- A range is read if it was laid out and its end is an address. -/
theorem exists_read_iff {address : Address} {length : Nat} :
    (∃ bytes, builder.read address length = some bytes) ↔
      address.toNat + length < UInt64.size ∧ builder.base.toNat ≤ address.toNat ∧
        address.toNat + length ≤ builder.finish := by
  constructor
  · intro h
    obtain ⟨bytes, hRead⟩ := h
    obtain ⟨hEnd, hLow, hHigh, -⟩ := read_eq_some_iff.mp hRead
    exact ⟨hEnd, hLow, hHigh⟩
  · intro h
    obtain ⟨hEnd, hLow, hHigh⟩ := h
    have hOffset : builder.base ≤ address ∧
        address.toNat - builder.base.toNat + length ≤ builder.bytes.size := by
      unfold finish at hHigh
      exact ⟨UInt64.le_iff_toNat_le.mpr hLow, by omega⟩
    refine (builder.consistent address length).mp ?_
    change builder.isReadable address length = true
    unfold isReadable Address.rangeEnd? Address.ofPosition? offsetOf?
    rw [if_pos hEnd, if_pos hOffset]
    rfl

variable {layout : Layout} {base : Address} {before last : Builder}

/-- What was laid out by a call that succeeded can be frozen, whatever calls come later, unless the
last block ends where the address space ends. The blocks that were handed out are read in full under
the same condition. -/
theorem Reaches.freezes {call : Build Address} {address : Address}
    (run : (start layout base).Reaches before) (lays : Build.LaysOut call)
    (hResult : before.result? call = some address) (later : (before.after call).Reaches last) :
    last.toImage = (if last.finish = UInt64.size then .error .outOfBounds
      else .ok ⟨[⟨base, last.bytes⟩]⟩) ∧
    (∃ effects, (start layout base).Performs effects last) ∧
    ∀ effects, (start layout base).Performs effects last →
      (∀ block ∈ Effect.blocks effects,
        (∃ bytes, last.read block.address block.length = some bytes) ↔
          block.finish ≠ UInt64.size) ∧
      ((∃ image, last.toImage = .ok image) ↔ ∀ block ∈ Effect.blocks effects,
        ∃ bytes, last.read block.address block.length = some bytes) := by
  have fits := fits_start layout base
  have reached := lays.reaches run
  have laid := (lays.occupies before (run.continues fits).fits).of_run hResult
  have hBytes := (later.continues (reached.continues fits).fits).nonempty laid
  have total := reached.trans later
  have continues := total.continues fits
  have hBase : last.base = base := continues.base
  have hImage := toImage_eq continues.fits hBytes
  rw [hBase] at hImage
  refine ⟨hImage, total.performs fits, fun effects performs => ?_⟩
  have tile := performs.tile fits
  have hBounds := tile.bounds.2
  have hSpace : last.finish ≤ UInt64.size := continues.fits.finish_le
  have hRead : ∀ block ∈ Effect.blocks effects,
      (∃ bytes, last.read block.address block.length = some bytes) ↔
        block.finish ≠ UInt64.size := by
    intro block hBlock
    obtain ⟨hLow, hHigh⟩ := hBounds block hBlock
    have hStart : last.base.toNat ≤ block.address.toNat := hBase ▸ hLow
    rw [exists_read_iff]
    unfold Block.finish at hHigh ⊢
    omega
  refine ⟨hRead, fun h block hBlock => (hRead block hBlock).mpr fun hEnd => ?_, fun h => ?_⟩
  · obtain ⟨image, hFrozen⟩ := h
    have hLast : last.finish = UInt64.size :=
      Nat.le_antisymm hSpace (hEnd ▸ (hBounds block hBlock).2)
    rw [hImage, if_pos hLast] at hFrozen
    cases hFrozen
  · refine ⟨_, hImage.trans (if_neg fun hEnd => ?_)⟩
    obtain ⟨block, hBlock, hLast⟩ := tile.exists_finish (hBase ▸ nonempty_iff.mp hBytes)
    exact (hRead block hBlock).mp (h block hBlock) (hLast.trans hEnd)

/-- A protocol that fills the address space of 32 bits to its end is frozen. -/
theorem freezes_filled :
    let first := start Runtime.compact32.layout 0xFFFFFFC0
    let last := first.after (Build.protocol [])
    first.result? (Build.protocol []) = some 0xFFFFFFC0 ∧ last.finish = 2 ^ 32 ∧
      last.toImage = .ok ⟨[⟨0xFFFFFFC0, Array.replicate 64 0⟩]⟩ := by
  intro first last
  have hResult : first.result? (Build.protocol []) = some 0xFFFFFFC0 := by decide +kernel
  have hFinish : last.finish = 2 ^ 32 := by decide +kernel
  have hBytes : last.bytes = Array.replicate 64 0 := by decide +kernel
  have hImage := (Reaches.freezes .refl (.protocol []) hResult .refl).1
  rw [if_neg (by decide +kernel)] at hImage
  exact ⟨hResult, hFinish, hImage.trans (hBytes ▸ rfl)⟩

/-- A protocol that fills the address space of 64 bits to its end is laid out, and can be neither
frozen nor read in full. -/
theorem not_freezes_at_end :
    let first := start Runtime.compact64.layout 0xFFFFFFFFFFFFFFC0
    let last := first.after (Build.protocol [])
    first.result? (Build.protocol []) = some 0xFFFFFFFFFFFFFFC0 ∧
      last.toImage = .error .outOfBounds ∧ last.read 0xFFFFFFFFFFFFFFC0 64 = none := by
  intro first last
  have hResult : first.result? (Build.protocol []) = some 0xFFFFFFFFFFFFFFC0 := by decide +kernel
  have hRead : last.read 0xFFFFFFFFFFFFFFC0 64 = none := by decide +kernel
  have run : first.Reaches last := .protocol .refl []
  have hImage := toImage_eq (run.continues (fits_start _ _)).fits (by decide +kernel)
  exact ⟨hResult, hImage.trans (if_pos (by decide +kernel)), hRead⟩

end Builder

end Conformance
