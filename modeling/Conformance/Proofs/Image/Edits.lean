import Conformance.Proofs.Image.Segments
import Mathlib.Data.Finset.Card
import Mathlib.Data.List.Nodup
import Mathlib.Data.Set.Card
/-! Runs of changes to an image. Whatever is added and written, in whatever order and with whatever
success, the image stays sound; so its size counts the addresses that are readable, and it takes a
new segment exactly if no byte of that is there already. -/
namespace Conformance

namespace Image

/-- A change of an image. -/
inductive Edit where
  | addSegment (base : Address) (bytes : Buffer)
  | write (address : Address) (bytes : List UInt8)
deriving DecidableEq, Repr

/-- What an image becomes by a change, if it admits it. -/
def edited (image : Image) : Edit → Except Error Image
  | .addSegment base bytes => image.addSegment base bytes
  | .write address bytes => image.write address bytes

/-- The answer to a change, and the image after it. -/
def edit (image : Image) (change : Edit) : Except Error Unit × Image :=
  match image.edited change with
  | .ok after => (.ok (), after)
  | .error error => (.error error, image)

/-- The image after a run of changes to the empty one. -/
def ofEdits (changes : List Edit) : Image :=
  changes.foldl (fun image change => (image.edit change).2) empty

variable {image : Image}

theorem Sound.edit (sound : image.Sound) (change : Edit) : (image.edit change).2.Sound := by
  unfold Image.edit
  cases h : image.edited change with
  | error error => exact sound
  | ok after =>
      cases change with
      | addSegment base bytes => exact sound.addSegment h
      | write address bytes => exact sound.write h

theorem sound_ofEdits (changes : List Edit) : (ofEdits changes).Sound := by
  suffices hRun : ∀ image : Image, image.Sound →
      (changes.foldl (fun image change => (image.edit change).2) image).Sound from
    hRun empty sound_empty
  induction changes with
  | nil => exact fun _ sound => sound
  | cons change rest ih => exact fun image sound => ih _ (sound.edit change)

/-- The positions of the bytes of an image, segment by segment. -/
def positions (image : Image) : List Nat :=
  image.segments.flatMap fun segment => List.range' segment.base.toNat segment.bytes.size

theorem length_positions (image : Image) : image.positions.length = image.size := by
  simp only [positions, List.length_flatMap, List.length_range', size, List.sum_eq_foldr]

theorem mem_positions_iff {position : Nat} :
    position ∈ image.positions ↔ image.Covers position := by
  simp only [positions, List.mem_flatMap, List.mem_range'_1]
  rfl

/-- No position is listed twice. -/
theorem Sound.nodup_positions (sound : image.Sound) : image.positions.Nodup := by
  refine List.nodup_flatMap.mpr ⟨fun segment _ => List.nodup_range', ?_⟩
  refine sound.disjoint.imp fun {first second} h => ?_
  intro position hFirst hSecond
  exact h position ⟨List.mem_range'_1.mp hFirst, List.mem_range'_1.mp hSecond⟩

theorem Sound.lt_of_covers (sound : image.Sound) {position : Nat}
    (hCovers : image.Covers position) :
    position + 1 < UInt64.size := by
  obtain ⟨segment, hSegment, -, hEnd⟩ := hCovers
  exact Nat.lt_of_le_of_lt hEnd (sound.finish_lt segment hSegment)

/-- All bytes of an image have different addresses, and none lies at the last one. -/
theorem Sound.size_lt (sound : image.Sound) : image.size < UInt64.size := by
  have hSubset : image.positions.toFinset ⊆ Finset.range (UInt64.size - 1) := by
    intro position hPosition
    have := sound.lt_of_covers (mem_positions_iff.mp (List.mem_toFinset.mp hPosition))
    exact Finset.mem_range.mpr (by omega)
  have hCard := Finset.card_le_card hSubset
  rw [List.toFinset_card_of_nodup sound.nodup_positions, length_positions, Finset.card_range]
    at hCard
  exact Nat.lt_of_le_of_lt hCard (by decide)

/-- The size of an image is the number of addresses at which it can be read. -/
theorem Sound.encard_readable (sound : image.Sound) :
    {address : Address | image.isReadable address 1 = true}.encard = image.size := by
  have hImage : UInt64.toNat '' {address : Address | image.isReadable address 1 = true} =
      image.positions.toFinset := by
    ext position
    simp only [Set.mem_image, Set.mem_ofPred_eq, sound.isReadable_one_iff, List.coe_toFinset,
      mem_positions_iff]
    constructor
    · rintro ⟨address, hCovers, rfl⟩
      exact hCovers
    · intro hCovers
      have hBound := Nat.lt_of_succ_lt (sound.lt_of_covers hCovers)
      have hAddress : position.toUInt64.toNat = position := UInt64.toNat_ofNat_of_lt hBound
      exact ⟨position.toUInt64, hAddress.symm ▸ hCovers, hAddress⟩
  have hInjective : Function.Injective UInt64.toNat := fun _ _ => UInt64.toNat_inj.mp
  rw [← hInjective.encard_image, hImage, Set.encard_coe_eq_coe_finsetCard,
    List.toFinset_card_of_nodup sound.nodup_positions, length_positions]

/-- An image that any run of changes has made is sound. Its size is the number of its readable
addresses, it takes a new segment exactly if there is room for it, and then has it among the others,
and a change that it refuses leaves it as it was. -/
theorem ofEdits_admits (changes : List Edit) :
    let image := ofEdits changes
    image.Sound ∧ image.size < UInt64.size ∧
      {address : Address | image.isReadable address 1 = true}.encard = image.size ∧
      (∀ base bytes, image.Admits base bytes) ∧
      ∀ change error, (image.edit change).1 = .error error → (image.edit change).2 = image := by
  intro image
  have sound := sound_ofEdits changes
  refine ⟨sound, sound.size_lt, sound.encard_readable, sound.admits, fun change error h => ?_⟩
  unfold edit at h ⊢
  cases hAnswer : image.edited change with
  | error reason => rfl
  | ok after =>
      rw [hAnswer] at h
      cases h

end Image

end Conformance
