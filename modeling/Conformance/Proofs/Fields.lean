import Conformance.Proofs.ByteOrder
import Conformance.Proofs.Extension
import Conformance.Proofs.Source.Agreement
import Conformance.Proofs.Source.Readable
/-! Fields of a buffer. A number that is written into a field is read from wherever the buffer is
placed, the bytes around the field stay what they were, and a write that fails changes nothing.
Writing what was read changes nothing either. -/
namespace Conformance

namespace Scalar

variable {scalar : Scalar}

/-- The values of a type: in two's complement, half of them are negative. -/
def Represents (scalar : Scalar) (value : Int) : Prop :=
  if scalar.isSigned then -(scalar.range / 2 : Int) ≤ value ∧ value < scalar.range / 2
  else 0 ≤ value ∧ value < scalar.range

instance (scalar : Scalar) (value : Int) : Decidable (scalar.Represents value) :=
  inferInstanceAs (Decidable (ite _ (_ ∧ _) (_ ∧ _)))

/-- The value whose bytes are those of another one in reverse. -/
def reversed (scalar : Scalar) (value : Int) : Int :=
  scalar.ofRaw (reverseBytes scalar.width (scalar.toRaw value))

theorem range_even (scalar : Scalar) : 0 < scalar.range ∧ scalar.range % 2 = 0 := by
  cases scalar <;> decide

theorem toRaw_lt (scalar : Scalar) (value : Int) : scalar.toRaw value < scalar.range := by
  have hRange := scalar.range_even.1
  have hNonneg := Int.emod_nonneg value (by omega : (scalar.range : Int) ≠ 0)
  have hBound := Int.emod_lt_of_pos value (by omega : 0 < (scalar.range : Int))
  unfold toRaw
  omega

theorem ofRaw_toRaw {value : Int} (represents : scalar.Represents value) :
    scalar.ofRaw (scalar.toRaw value) = value := by
  obtain ⟨hRange, hEven⟩ := scalar.range_even
  have hRaw : (scalar.toRaw value : Int) = value % scalar.range :=
    Int.toNat_of_nonneg (Int.emod_nonneg value (by omega))
  unfold Represents at represents
  unfold ofRaw
  rw [hRaw]
  split_ifs at represents ⊢
  · rw [Int.emod_bmod]
    exact Int.bmod_eq_of_le (by omega) (by omega)
  · exact Int.emod_eq_of_lt represents.1 represents.2

theorem toRaw_ofRaw {raw : Nat} (hRaw : raw < scalar.range) :
    scalar.toRaw (scalar.ofRaw raw) = raw := by
  unfold toRaw ofRaw
  split_ifs
  · rw [Int.bmod_emod, Int.emod_eq_of_lt (by omega) (by omega), Int.toNat_natCast]
  · rw [Int.emod_eq_of_lt (by omega) (by omega), Int.toNat_natCast]

theorem represents_ofRaw {raw : Nat} (hRaw : raw < scalar.range) :
    scalar.Represents (scalar.ofRaw raw) := by
  obtain ⟨hRange, hEven⟩ := scalar.range_even
  unfold Represents ofRaw
  split_ifs
  · have hLow := @Int.le_bmod raw scalar.range hRange
    have hHigh := @Int.bmod_lt raw scalar.range hRange
    omega
  · omega

end Scalar

namespace Buffer

variable {buffer after : Buffer} {offset : Nat} {bytes : List UInt8}

theorem store_eq_ok_iff : buffer.store offset bytes = .ok after ↔
    offset + bytes.length ≤ buffer.size ∧ after = buffer.overwrite offset bytes := by
  unfold store
  split_ifs with hInside <;> simp [hInside, eq_comm]

theorem store_eq_error_iff {error : Error} : buffer.store offset bytes = .error error ↔
    buffer.size < offset + bytes.length ∧ error = .outOfBounds := by
  unfold store
  split_ifs with hInside <;> simp [hInside, eq_comm]
  omega

/-- The bytes of a field are those that were stored there. -/
theorem slice?_overwrite (hInside : offset + bytes.length ≤ buffer.size) :
    (buffer.overwrite offset bytes).slice? offset bytes.length = some bytes := by
  refine slice?_eq_some_iff.mpr ⟨by rwa [size_overwrite], rfl, fun index hIndex => ?_⟩
  rw [getElem?_overwrite, if_pos (by omega), Nat.add_sub_cancel_left]

/-- Storing the bytes that are there already changes nothing. -/
theorem overwrite_slice? {length : Nat} (hSlice : buffer.slice? offset length = some bytes) :
    buffer.overwrite offset bytes = buffer := by
  obtain ⟨-, hLength, hBytes⟩ := slice?_eq_some_iff.mp hSlice
  apply Array.ext_getElem?
  intro index
  rw [getElem?_overwrite]
  split_ifs with hField
  · have hSame := hBytes (index - offset) (by omega)
    rw [Nat.add_sub_of_le hField.1] at hSame
    exact hSame.symm
  · rfl

end Buffer

/-- The type of a field: a number type of fixed width, or an unsigned number in as many bytes as are
asked for. -/
inductive FieldType where
  | scalar (scalar : Scalar)
  | word (width : Nat)
deriving DecidableEq, Repr

namespace FieldType

/-- What a field is written with and read as. -/
abbrev Value : FieldType → Type
  | scalar _ => Int
  | word _ => UInt64

/-- The number of bytes of a field. -/
def width : FieldType → Nat
  | scalar type => type.width
  | word width => width

/-- Fields of the type exist. -/
def Known : FieldType → Prop
  | scalar _ => True
  | word width => width = 4 ∨ width = 8

instance : (field : FieldType) → Decidable field.Known
  | scalar _ => inferInstanceAs (Decidable True)
  | word _ => inferInstanceAs (Decidable (_ ∨ _))

/-- The values of the type. -/
def Represents : (field : FieldType) → field.Value → Prop
  | scalar type, value => type.Represents value
  | word _, _ => True

/-- No field of the type holds the value, wherever it is. -/
def Excludes : (field : FieldType) → field.Value → Prop
  | scalar _, _ => False
  | word width, value => (width ≠ 4 ∧ width ≠ 8) ∨ (width = 4 ∧ 2 ^ 32 ≤ value.toNat)

/-- The value whose bytes are those of another one in reverse. -/
def reversed : (field : FieldType) → field.Value → field.Value
  | scalar type, value => type.reversed value
  | word width, value => (reverseBytes width value.toNat).toUInt64

/-- The buffer with a value in the field at an offset. -/
def store (field : FieldType) (buffer : Buffer) (order : ByteOrder) (offset : Nat)
    (value : field.Value) : Except Error Buffer :=
  match field, value with
  | scalar type, value => buffer.storeScalar type order offset value
  | word width, value => buffer.storeWord width order offset value

/-- Writes a value into the field at an offset, in place. -/
def write (field : FieldType) (order : ByteOrder) (offset : Nat) (value : field.Value) :
    EStateM Error Buffer Unit := do
  match field.store (← get) order offset value with
  | .ok after => set after
  | .error error => throw error

/-- Reads the field at a position. -/
def read (field : FieldType) (order : ByteOrder) (position : Nat) : Probe (Option field.Value) :=
  match field with
  | scalar type => readScalar type order position
  | word width => readWord width order position

/-- The bytes of a value. -/
def encode (field : FieldType) (order : ByteOrder) (value : field.Value) :
    Except Error (List UInt8) :=
  match field, value with
  | scalar type, value => .ok (type.encode order value)
  | word width, value => order.wordBytes width value

/-- The value of some bytes. -/
def decode (field : FieldType) (order : ByteOrder) (bytes : List UInt8) : field.Value :=
  match field with
  | scalar type => type.decode order bytes
  | word _ => (order.decode bytes).toUInt64

/-- What is wrong with a write that fails. -/
def complaint (field : FieldType) : Error :=
  if field.Known then .outOfBounds else .malformed (.fieldWidth field.width)

variable {field : FieldType} {order : ByteOrder} {value : field.Value} {buffer after : Buffer}
  {offset : Nat} {bytes : List UInt8} {error : Error}

theorem store_eq : field.store buffer order offset value =
    field.encode order value >>= buffer.store offset := by
  cases field <;> rfl

theorem known_of_encode (hEncode : field.encode order value = .ok bytes) : field.Known := by
  cases field with
  | scalar type => trivial
  | word width => exact (ByteOrder.wordBytes_eq_ok_iff.mp hEncode).1

theorem length_of_encode (hEncode : field.encode order value = .ok bytes) :
    bytes.length = field.width := by
  cases field with
  | scalar type =>
      obtain rfl := Except.ok.inj hEncode
      exact ByteOrder.length_encode _ _ _
  | word width =>
      obtain ⟨-, -, rfl⟩ := ByteOrder.wordBytes_eq_ok_iff.mp hEncode
      exact ByteOrder.length_encode _ _ _

theorem encode_eq_error_iff :
    field.encode order value = .error error ↔ field.Excludes value ∧ error = field.complaint := by
  cases field with
  | scalar type => exact iff_of_false (fun h => nomatch h) fun h => h.1
  | word width =>
      refine ByteOrder.wordBytes_eq_error_iff.trans ?_
      change _ ↔ ((width ≠ 4 ∧ width ≠ 8) ∨ (width = 4 ∧ 2 ^ 32 ≤ UInt64.toNat value)) ∧
        error = if width = 4 ∨ width = 8 then _ else .malformed (.fieldWidth width)
      split_ifs with hKnown
      · have hFew : ¬ (width ≠ 4 ∧ width ≠ 8) := by omega
        simp only [hFew, false_or, and_assoc]
        tauto
      · obtain ⟨hFour, hEight⟩ := not_or.mp hKnown
        simp [hFour, hEight]

/-- What was encoded is decoded again, and in the other order it has its bytes in reverse. -/
theorem decode_of_encode (represents : field.Represents value)
    (hEncode : field.encode order value = .ok bytes) :
    field.decode order bytes = value ∧ field.decode order.other bytes = field.reversed value := by
  cases field with
  | scalar type =>
      obtain rfl := Except.ok.inj hEncode
      have hRaw : type.toRaw value % 256 ^ type.width = type.toRaw value :=
        Nat.mod_eq_of_lt (type.toRaw_lt value)
      constructor
      · change type.ofRaw (order.decode (order.encode _ _)) = _
        rw [ByteOrder.decode_encode, hRaw, Scalar.ofRaw_toRaw represents]
      · change type.ofRaw (order.other.decode (order.encode _ _)) = _
        rw [ByteOrder.decode_other_encode]
        rfl
  | word width =>
      obtain ⟨-, hValue, rfl⟩ := ByteOrder.wordBytes_eq_ok_iff.mp hEncode
      constructor
      · change (order.decode (order.encode _ _)).toUInt64 = _
        rw [ByteOrder.decode_encode, Nat.mod_eq_of_lt hValue]
        exact UInt64.ofNat_toNat
      · change (order.other.decode (order.encode _ _)).toUInt64 = _
        rw [ByteOrder.decode_other_encode]
        rfl

/-- The bytes of a field are those of a value of its type. -/
theorem encode_decode (known : field.Known) (hLength : bytes.length = field.width) :
    field.Represents (field.decode order bytes) ∧
      field.encode order (field.decode order bytes) = .ok bytes := by
  have hRaw : order.decode bytes < 256 ^ field.width := hLength ▸ order.decode_lt bytes
  have hBytes : order.encode field.width (order.decode bytes) = bytes :=
    hLength ▸ order.encode_decode bytes
  cases field with
  | scalar type =>
      refine ⟨Scalar.represents_ofRaw hRaw, congrArg Except.ok ?_⟩
      change order.encode type.width (type.toRaw (type.ofRaw (order.decode bytes))) = bytes
      rw [Scalar.toRaw_ofRaw hRaw]
      exact hBytes
  | word width =>
      have hSize : (256 : Nat) ^ width ≤ 2 ^ 64 := by
        obtain rfl | rfl := known <;> decide
      have hWord : (order.decode bytes).toUInt64.toNat = order.decode bytes :=
        UInt64.toNat_ofNat_of_lt (Nat.lt_of_lt_of_le hRaw hSize)
      refine ⟨trivial, ByteOrder.wordBytes_eq_ok_iff.mpr ⟨known, ?_, ?_⟩⟩
      · exact hWord.symm ▸ hRaw
      · exact (hWord.symm ▸ hBytes).symm

theorem store_eq_ok (hStore : field.store buffer order offset value = .ok after) :
    ∃ bytes, field.encode order value = .ok bytes ∧ offset + bytes.length ≤ buffer.size ∧
      after = buffer.overwrite offset bytes := by
  rw [store_eq] at hStore
  cases hEncode : field.encode order value with
  | error error => cases hEncode ▸ hStore
  | ok bytes =>
      rw [hEncode] at hStore
      exact ⟨bytes, rfl, Buffer.store_eq_ok_iff.mp hStore⟩

theorem store_eq_error_iff : field.store buffer order offset value = .error error ↔
    (field.Excludes value ∨ buffer.size < offset + field.width) ∧ error = field.complaint := by
  rw [store_eq]
  cases hEncode : field.encode order value with
  | error reason =>
      obtain ⟨hExcludes, rfl⟩ := encode_eq_error_iff.mp hEncode
      refine Iff.trans ?_ (and_iff_right (.inl hExcludes)).symm
      exact ⟨fun h => (Except.error.inj h).symm, fun h => congrArg Except.error h.symm⟩
  | ok bytes =>
      have hFits : ¬ field.Excludes value := by
        intro hExcludes
        cases (encode_eq_error_iff.mpr ⟨hExcludes, rfl⟩).symm.trans hEncode
      have hComplaint : field.complaint = .outOfBounds := if_pos (known_of_encode hEncode)
      rw [or_iff_right hFits, hComplaint, ← length_of_encode hEncode]
      exact Buffer.store_eq_error_iff

/-- A write in place keeps the buffer that it found if it fails. -/
theorem run_write : (field.write order offset value).run buffer =
    match field.store buffer order offset value with
    | .ok after => .ok () after
    | .error error => .error error buffer := by
  change (match field.store buffer order offset value with
    | .ok after => set after
    | .error error => throw error : EStateM Error Buffer Unit).run buffer = _
  cases field.store buffer order offset value <;> rfl

theorem run_write_eq_ok_iff : (field.write order offset value).run buffer = .ok () after ↔
    field.store buffer order offset value = .ok after := by
  rw [run_write]
  cases field.store buffer order offset value <;> simp

theorem run_write_eq_error_iff : (field.write order offset value).run buffer = .error error after ↔
    after = buffer ∧ field.store buffer order offset value = .error error := by
  rw [run_write]
  cases field.store buffer order offset value <;> simp [and_comm, eq_comm]

/-- A field is read from wherever its buffer is placed. -/
theorem run_read {base : Address} {reader : Reader} (known : field.Known)
    (hInside : offset + field.width ≤ buffer.size)
    (hBase : base.toNat + buffer.size ≤ UInt64.size)
    (placed : reader.Extends (Dump.read ⟨base, buffer⟩))
    (hSlice : buffer.slice? offset field.width = some bytes) :
    (field.read order (base.toNat + offset)).run reader = some (field.decode order bytes) := by
  have hFetch : field.read order (base.toNat + offset) =
      Probe.fetch (base.toNat + offset) field.width (field.decode order) := by
    cases field with
    | scalar type => rfl
    | word width => exact if_pos known
  have hWidth : 0 < field.width := by
    cases field with
    | scalar type => cases type <;> decide
    | word width => obtain rfl | rfl := known <;> decide
  have hAddress : (base.toNat + offset).toUInt64.toNat = base.toNat + offset :=
    UInt64.toNat_ofNat_of_lt (by omega : base.toNat + offset < UInt64.size)
  have hRead : Dump.read ⟨base, buffer⟩ (base.toNat + offset).toUInt64 field.width =
      some bytes := by
    have hStart : base ≤ (base.toNat + offset).toUInt64 := by
      rw [UInt64.le_iff_toNat_le, hAddress]
      exact Nat.le_add_right _ _
    unfold Dump.read
    rw [if_pos hStart, hAddress, Nat.add_sub_cancel_left]
    exact hSlice
  rw [hFetch, Probe.run_fetch, Address.ofPosition?_eq_some_iff.mpr hAddress.symm, Option.bind_some,
    placed _ _ _ hRead]
  rfl

/-- A write fails for a value that no field of the type holds and where the field does not fit, and
leaves the buffer alone. A write that succeeds changes the field only, and wherever the buffer is
placed, the field is read as the value, or as its bytes in reverse. A value that is read from a
field can be written back, which changes nothing. -/
theorem writes_faithfully (field : FieldType) (order : ByteOrder) (offset : Nat) (buffer : Buffer)
    (value : field.Value) :
    (∀ error after, (field.write order offset value).run buffer = .error error after ↔
      after = buffer ∧ (field.Excludes value ∨ buffer.size < offset + field.width) ∧
        error = field.complaint) ∧
    (field.Represents value → ∀ after, (field.write order offset value).run buffer = .ok () after →
      after.size = buffer.size ∧
      (∀ index, index < offset ∨ offset + field.width ≤ index → after[index]? = buffer[index]?) ∧
      ∀ (base : Address) (reader : Reader), base.toNat + after.size ≤ UInt64.size →
        reader.Extends (Dump.read ⟨base, after⟩) →
        (field.read order (base.toNat + offset)).run reader = some value ∧
          (field.read order.other (base.toNat + offset)).run reader =
            some (field.reversed value)) ∧
    (field.Known → offset + field.width ≤ buffer.size →
      ∀ (base : Address) (reader : Reader), base.toNat + buffer.size ≤ UInt64.size →
        reader.Extends (Dump.read ⟨base, buffer⟩) →
        ∃ found, (field.read order (base.toNat + offset)).run reader = some found ∧
          field.Represents found ∧
          (field.write order offset found).run buffer = .ok () buffer) := by
  refine ⟨fun error after => ?_, fun represents after hWrite => ?_,
    fun known hInside base reader hBase placed => ?_⟩
  · rw [run_write_eq_error_iff, store_eq_error_iff]
  · obtain ⟨bytes, hEncode, hInside, rfl⟩ := store_eq_ok (run_write_eq_ok_iff.mp hWrite)
    have hLength := length_of_encode hEncode
    obtain ⟨hSame, hReversed⟩ := decode_of_encode represents hEncode
    refine ⟨Buffer.size_overwrite _ _ _, fun index hOutside => ?_,
      fun base reader hBase placed => ?_⟩
    · rw [Buffer.getElem?_overwrite, if_neg (by omega)]
    · have hSlice := hLength ▸ Buffer.slice?_overwrite hInside
      have hRoom : offset + field.width ≤ (buffer.overwrite offset bytes).size := by
        rw [Buffer.size_overwrite]
        omega
      have hRead (other : ByteOrder) := @run_read field other _ offset bytes base reader
        (known_of_encode hEncode) hRoom hBase placed hSlice
      exact ⟨(hRead order).trans (congrArg some hSame),
        (hRead order.other).trans (congrArg some hReversed)⟩
  · obtain ⟨bytes, hSlice⟩ := Buffer.slice?_of_inside hInside
    have hLength := Buffer.length_of_slice? hSlice
    obtain ⟨represents, hEncode⟩ := @encode_decode field order bytes known hLength
    refine ⟨_, run_read known hInside hBase placed hSlice, represents, ?_⟩
    rw [run_write_eq_ok_iff, store_eq, hEncode]
    exact Buffer.store_eq_ok_iff.mpr ⟨hLength ▸ hInside, (Buffer.overwrite_slice? hSlice).symm⟩

/-- A negative number in the middle of a buffer, which is placed right before the end of the address
space. -/
theorem writes_faithfully_placed :
    let field := scalar .int32
    let before : Buffer := #[1, 2, 3, 4, 5, 6]
    let after : Buffer := #[1, 0xFF, 0xFF, 0xFF, 0xFE, 6]
    let base : Address := 0xFFFFFFFFFFFFFFF9
    (field.write .big 1 (-2 : Int)).run before = .ok () after ∧
      ∃ image, Image.ofSegment base after = .ok image ∧
        (field.read .big (base.toNat + 1)).run image.read = some (-2 : Int) ∧
        (field.read .little (base.toNat + 1)).run image.read = some (-16777217 : Int) ∧
        ∃ found, (field.read .big (base.toNat + 1)).run image.read = some found ∧
          (field.write .big 1 found).run after = .ok () after := by
  intro field before after base
  have hWrite : (field.write .big 1 (-2 : Int)).run before = .ok () after := rfl
  have hEnd : base.toNat + after.size < UInt64.size := by decide
  have hBase := Nat.le_of_lt hEnd
  have placed : Reader.Extends (Dump.toImage ⟨base, after⟩).read (Dump.read ⟨base, after⟩) :=
    fun address length _ hRead =>
      ((@Dump.agrees_toImage ⟨base, after⟩ hEnd).read address length).trans hRead
  have represents : Scalar.int32.Represents (-2) := by decide
  have written := (writes_faithfully field .big 1 before (-2 : Int)).2.1 represents after hWrite
  have back := (writes_faithfully field .big 1 after (-2 : Int)).2.2 trivial (by decide)
  obtain ⟨hSame, hReversed⟩ := written.2.2 base _ hBase placed
  obtain ⟨found, hRead, -, hBack⟩ := back base _ hBase placed
  exact ⟨hWrite, _, Dump.ofSegment_eq_ok (by decide) hEnd, hSame, hReversed, found, hRead, hBack⟩

end FieldType

end Conformance
