import Conformance.Builder.Basic
import Conformance.Metadata.Runtime
import Conformance.Proofs.Image.Segments
import Conformance.Walk.Query
/-! One run of bytes as three kinds of memory. A dump compares offsets only, an image looks for the
segment that holds a range, and a builder checks the range before it looks for the offset; where the
bytes end inside the address space, none of them answers what another one does not. -/
namespace Conformance

/-- Two memories give the same answers, to reads and to queries. -/
structure Source.Agrees (first second : Source) : Prop where
  read : ∀ address length, first.read address length = second.read address length
  isReadable : ∀ address length, first.isReadable address length = second.isReadable address length
  verdict : ∀ (inspector : Inspector) object protocol,
    first.run (inspector.verdict object protocol) = second.run (inspector.verdict object protocol)
  typeVerdict : ∀ (inspector : Inspector) type protocol,
    first.run (inspector.typeVerdict type protocol) =
      second.run (inspector.typeVerdict type protocol)
  compositionVerdict : ∀ (inspector : Inspector) object composition,
    first.run (inspector.compositionVerdict object composition) =
      second.run (inspector.compositionVerdict object composition)

/-- Queries see nothing of a memory but what reads answer. -/
theorem Source.agrees_of_read {first second : Source}
    (hRead : ∀ address length, first.read address length = second.read address length)
    (hReadable : ∀ address length,
      first.isReadable address length = second.isReadable address length) :
    first.Agrees second := by
  have hSame : first.read = second.read := funext fun address => funext (hRead address)
  have hRun {α : Type} (probe : Probe α) : first.run probe = second.run probe := by
    rw [run, run, hSame]
  exact ⟨hRead, hReadable, fun _ _ _ => hRun _, fun _ _ _ => hRun _, fun _ _ _ => hRun _⟩

namespace Dump

variable {dump : Dump} {address : Address} {length : Nat}

/-- A range lies in a dump. -/
def Holds (dump : Dump) (address : Address) (length : Nat) : Prop :=
  dump.base ≤ address ∧ address.toNat - dump.base.toNat + length ≤ dump.bytes.size

instance : Decidable (dump.Holds address length) :=
  inferInstanceAs (Decidable (_ ∧ _))

theorem isReadable_eq : dump.isReadable address length = decide (dump.Holds address length) := by
  rw [isReadable, ← Bool.decide_and]
  rfl

theorem read_of_holds (h : dump.Holds address length) :
    dump.read address length =
      dump.bytes.slice? (address.toNat - dump.base.toNat) length := if_pos h.1

theorem read_of_not_holds (h : ¬ dump.Holds address length) : dump.read address length = none := by
  unfold read
  split_ifs with hStart
  · exact if_neg fun hInside => h ⟨hStart, hInside⟩
  · rfl

theorem Holds.rangeEnd? (h : dump.Holds address length)
    (hFinish : dump.base.toNat + dump.bytes.size < UInt64.size) :
    Address.rangeEnd? address length = some (address.toNat + length).toUInt64 := by
  obtain ⟨hStart, hEnd⟩ := h
  rw [UInt64.le_iff_toNat_le] at hStart
  exact if_pos (by omega)

/-- The image of one segment that has the bytes of a dump. -/
def toImage (dump : Dump) : Image := ⟨[⟨dump.base, dump.bytes⟩]⟩

theorem holder?_toImage (hFinish : dump.base.toNat + dump.bytes.size < UInt64.size) :
    dump.toImage.holder? address length =
      if dump.Holds address length then some ⟨dump.base, dump.bytes⟩ else none := by
  split_ifs with h
  · have hRange := h.rangeEnd? hFinish
    obtain ⟨hStart, hEnd⟩ := h
    have hInside : (address.toNat + length).toUInt64.toNat ≤
        (⟨dump.base, dump.bytes⟩ : Segment).finish := by
      rw [← Address.ofPosition?_eq_some_iff.mp hRange]
      rw [UInt64.le_iff_toNat_le] at hStart
      simp only [Segment.finish]
      omega
    unfold Image.holder? toImage
    rw [hRange]
    simp only [Option.bind_eq_bind, Option.bind_some, List.takeWhile_cons, decide_eq_true hStart,
      if_true, List.takeWhile_nil, List.getLast?_singleton, if_pos hInside]
  · by_contra hSome
    obtain ⟨segment, hHolder⟩ := Option.ne_none_iff_exists'.mp hSome
    obtain ⟨hSegment, hStart, hEnd⟩ := Image.holds_of_holder? hHolder
    obtain rfl := List.mem_singleton.mp hSegment
    refine h ⟨hStart, ?_⟩
    rw [UInt64.le_iff_toNat_le] at hStart
    simp only [Segment.finish] at hStart hEnd
    omega

theorem agrees_toImage (hFinish : dump.base.toNat + dump.bytes.size < UInt64.size) :
    dump.toImage.source.Agrees dump.source := by
  refine Source.agrees_of_read (fun address length => ?_) fun address length => ?_
  · change dump.toImage.read address length = dump.read address length
    unfold Image.read
    rw [holder?_toImage hFinish]
    split_ifs with h
    · exact (read_of_holds h).symm
    · exact (read_of_not_holds h).symm
  · change dump.toImage.isReadable address length = dump.isReadable address length
    unfold Image.isReadable
    rw [holder?_toImage hFinish, isReadable_eq]
    split_ifs with h <;> simp [h]

/-- A file is placed where an image takes its content as its only segment. -/
theorem ofSegment_eq (base : Address) (bytes : Buffer) :
    Image.ofSegment base bytes = (ofFile (some bytes) base).map toImage := by
  unfold ofFile
  dsimp only
  split_ifs with hEmpty hEnd
  · exact if_pos hEmpty
  · unfold Image.ofSegment Image.addSegment
    rw [if_neg hEmpty, Option.isNone_iff_eq_none.mp hEnd]
    rfl
  · obtain ⟨finish, hFinish⟩ :=
      Option.ne_none_iff_exists'.mp (mt Option.isNone_iff_eq_none.mpr hEnd)
    unfold Image.ofSegment Image.addSegment
    rw [if_neg hEmpty, hFinish]
    rfl

theorem ofFile_eq_ok {base : Address} {bytes : Buffer} (hBytes : bytes ≠ #[])
    (hFinish : base.toNat + bytes.size < UInt64.size) :
    ofFile (some bytes) base = .ok ⟨base, bytes⟩ := by
  have hEmpty : ¬ bytes.isEmpty = true := by simpa using hBytes
  have hRange : Address.rangeEnd? base bytes.size = some _ := if_pos hFinish
  unfold ofFile
  dsimp only
  rw [if_neg hEmpty, hRange]
  rfl

theorem ofSegment_eq_ok {base : Address} {bytes : Buffer} (hBytes : bytes ≠ #[])
    (hFinish : base.toNat + bytes.size < UInt64.size) :
    Image.ofSegment base bytes = .ok (toImage ⟨base, bytes⟩) := by
  rw [ofSegment_eq, ofFile_eq_ok hBytes hFinish]
  rfl

end Dump

/-- What was laid out at the base of a dump, if it is the same bytes, is read as the dump is. -/
theorem Builder.agrees_dump {builder : Builder}
    (hFinish : builder.base.toNat + builder.bytes.size < UInt64.size) :
    builder.source.Agrees (Dump.source ⟨builder.base, builder.bytes⟩) := by
  have hOffset (address : Address) (length : Nat) : builder.offsetOf? address length =
      if Dump.Holds ⟨builder.base, builder.bytes⟩ address length then
        some (address.toNat - builder.base.toNat) else none := rfl
  refine Source.agrees_of_read (fun address length => ?_) fun address length => ?_
  · change builder.read address length = Dump.read ⟨builder.base, builder.bytes⟩ address length
    unfold read
    rw [hOffset]
    split_ifs with h
    · rw [h.rangeEnd? hFinish, Dump.read_of_holds h]
      rfl
    · rw [Dump.read_of_not_holds h]
      simp
  · change builder.isReadable address length =
      Dump.isReadable ⟨builder.base, builder.bytes⟩ address length
    unfold isReadable
    rw [hOffset, Dump.isReadable_eq]
    split_ifs with h
    · simp [h, h.rangeEnd? hFinish]
    · simp [h]

/-- A dump file and an image of one segment refuse the same content for the same reason. What they
take they answer for alike, and so does a builder that has laid out the same bytes at the same
base. -/
theorem Dump.agrees_with_image_and_builder (base : Address) (bytes : Buffer) :
    ((∀ error, ofFile (some bytes) base = .error error ↔
        Image.ofSegment base bytes = .error error) ∧
      (ofFile (some bytes) base = .error .empty ↔ bytes = #[]) ∧
      (ofFile (some bytes) base = .error .outOfBounds ↔
        bytes ≠ #[] ∧ UInt64.size ≤ base.toNat + bytes.size)) ∧
    (bytes ≠ #[] → base.toNat + bytes.size < UInt64.size →
      ∃ dump image, ofFile (some bytes) base = .ok dump ∧ Image.ofSegment base bytes = .ok image ∧
        image.source.Agrees dump.source ∧
        ∀ builder : Builder, builder.base = base → builder.bytes = bytes →
          builder.source.Agrees dump.source) := by
  have admits := Image.sound_empty.admits base bytes
  have hErrors (error : Error) : ofFile (some bytes) base = .error error ↔
      Image.ofSegment base bytes = .error error := by
    rw [ofSegment_eq]
    cases ofFile (some bytes) base <;> simp [Except.map]
  refine ⟨⟨hErrors, (hErrors _).trans admits.empty_iff, (hErrors _).trans admits.outOfBounds_iff⟩,
    fun hBytes hFinish => ?_⟩
  have hFile := ofFile_eq_ok hBytes hFinish
  refine ⟨⟨base, bytes⟩, toImage ⟨base, bytes⟩, hFile, ?_, agrees_toImage hFinish, ?_⟩
  · exact ofSegment_eq_ok hBytes hFinish
  · rintro builder rfl rfl
    exact Builder.agrees_dump hFinish

/-- Four bytes that end where the last address is, right before the end of the address space. -/
theorem Dump.agrees_with_image_and_builder_last :
    let base : Address := 0xFFFFFFFFFFFFFFFB
    let bytes : Buffer := #[1, 2, 3, 4]
    bytes ≠ #[] ∧ base.toNat + bytes.size < UInt64.size ∧
      ∃ dump image, ofFile (some bytes) base = .ok dump ∧ Image.ofSegment base bytes = .ok image ∧
        image.source.Agrees dump.source ∧
        Source.Agrees (Builder.source ⟨Runtime.compact64.layout, base, bytes, []⟩)
          dump.source := by
  intro base bytes
  have hBytes : bytes ≠ #[] := by decide
  have hFinish : base.toNat + bytes.size < UInt64.size := by decide
  obtain ⟨dump, image, hFile, hSegment, hImage, hBuilder⟩ :=
    (agrees_with_image_and_builder base bytes).2 hBytes hFinish
  exact ⟨hBytes, hFinish, dump, image, hFile, hSegment, hImage, hBuilder _ rfl rfl⟩

end Conformance
