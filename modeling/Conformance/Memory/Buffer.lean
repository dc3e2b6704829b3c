import Conformance.Error
import Conformance.Memory.ByteOrder
/-! Byte buffers and the fields stored in them. A field is stored whole or not at all. -/
namespace Conformance

/-- A contiguous run of bytes. -/
abbrev Buffer := Array UInt8

/-- The fixed-width number types a field can have. -/
inductive Scalar where
  | uint8
  | uint16
  | uint32
  | uint64
  | int32
  | int64
deriving DecidableEq, Repr

namespace Scalar

/-- The number of bytes of a field. -/
def width : Scalar → Nat
  | .uint8 => 1
  | .uint16 => 2
  | .uint32 | .int32 => 4
  | .uint64 | .int64 => 8

/-- Whether values are in two's complement. -/
def isSigned : Scalar → Bool
  | .int32 | .int64 => true
  | _ => false

/-- The number of values. -/
def range (scalar : Scalar) : Nat := Nat.pow 256 scalar.width

/-- The value that the unsigned number `raw` stands for. -/
def ofRaw (scalar : Scalar) (raw : Nat) : Int :=
  if scalar.isSigned then Int.bmod raw scalar.range else raw

/-- The unsigned number that stands for `value`. -/
def toRaw (scalar : Scalar) (value : Int) : Nat :=
  (value % scalar.range).toNat

/-- The bytes of a value. -/
def encode (scalar : Scalar) (order : ByteOrder) (value : Int) : List UInt8 :=
  order.encode scalar.width (scalar.toRaw value)

/-- The value of a field's bytes. -/
def decode (scalar : Scalar) (order : ByteOrder) (bytes : List UInt8) : Int :=
  scalar.ofRaw (order.decode bytes)

end Scalar

/-- The bytes of a number in a field of four or eight bytes. A number may be too large for four
bytes; no other width is known. -/
def ByteOrder.wordBytes (order : ByteOrder) (width : Nat) (value : UInt64) :
    Except Error (List UInt8) :=
  if width = 4 then
    if value.toNat < UInt32.size then .ok (order.encode 4 value.toNat) else .error .outOfBounds
  else if width = 8 then .ok (order.encode 8 value.toNat)
  else .error (.malformed (.fieldWidth width))

namespace Buffer

/-- The `length` bytes from `offset`, if the buffer has all of them. -/
def slice? (buffer : Buffer) (offset length : Nat) : Option (List UInt8) :=
  if offset + length ≤ buffer.size then some (buffer.extract offset (offset + length)).toList
  else none

/-- The buffer with its bytes from `offset` replaced; bytes past its end are dropped. -/
def overwrite : Buffer → (offset : Nat) → List UInt8 → Buffer
  | buffer, _, [] => buffer
  | buffer, offset, byte :: rest => overwrite (buffer.setIfInBounds offset byte) (offset + 1) rest

/-- Stores bytes at `offset`, all of them or, if the buffer is too short, none. -/
def store (buffer : Buffer) (offset : Nat) (bytes : List UInt8) : Except Error Buffer :=
  if offset + bytes.length ≤ buffer.size then .ok (overwrite buffer offset bytes)
  else .error .outOfBounds

/-- Stores a number of a fixed type. -/
def storeScalar (buffer : Buffer) (scalar : Scalar) (order : ByteOrder) (offset : Nat)
    (value : Int) : Except Error Buffer :=
  buffer.store offset (scalar.encode order value)

/-- Stores a number in a field of four or eight bytes. A number that no such field holds is refused
before the place of the field is looked at. -/
def storeWord (buffer : Buffer) (width : Nat) (order : ByteOrder) (offset : Nat)
    (value : UInt64) : Except Error Buffer := do
  buffer.store offset (← order.wordBytes width value)

@[simp] theorem size_overwrite (buffer : Buffer) (offset : Nat) (bytes : List UInt8) :
    (buffer.overwrite offset bytes).size = buffer.size := by
  induction bytes generalizing buffer offset with
  | nil => rfl
  | cons byte rest ih => simp [overwrite, ih]

/-- A byte of the written range is the new one, any other byte is the old one. -/
theorem getElem?_overwrite (buffer : Buffer) (offset : Nat) (bytes : List UInt8) (i : Nat) :
    (buffer.overwrite offset bytes)[i]? =
      if offset ≤ i ∧ i < offset + bytes.length ∧ i < buffer.size then bytes[i - offset]?
      else buffer[i]? := by
  induction bytes generalizing buffer offset with
  | nil =>
      rw [if_neg (by simp only [List.length_nil]; omega)]
      rfl
  | cons byte rest ih =>
      rw [overwrite, ih]
      simp only [Array.size_setIfInBounds, List.length_cons, Array.getElem?_setIfInBounds]
      by_cases here : offset = i
      · subst here
        rw [if_neg (by omega)]
        by_cases inside : offset < buffer.size
        · simp [inside]
        · simp [inside]
      · by_cases later : offset + 1 ≤ i ∧ i < offset + 1 + rest.length ∧ i < buffer.size
        · rw [if_pos later, if_pos (by omega)]
          have shift : i - offset = (i - (offset + 1)) + 1 := by omega
          rw [shift, List.getElem?_cons_succ]
        · rw [if_neg later, if_neg here, if_neg (by omega)]

theorem length_of_slice? {buffer : Buffer} {offset length : Nat} {bytes : List UInt8}
    (found : buffer.slice? offset length = some bytes) : bytes.length = length := by
  unfold slice? at found
  split at found
  · rename_i inside
    obtain rfl := Option.some.inj found
    simp only [Array.length_toList, Array.size_extract]
    omega
  · cases found

/-- A slice has the bytes from its offset on, if the buffer has that many. -/
theorem slice?_eq_some_iff {buffer : Buffer} {offset length : Nat} {bytes : List UInt8} :
    buffer.slice? offset length = some bytes ↔ offset + length ≤ buffer.size ∧
      bytes.length = length ∧ ∀ index < length, buffer[offset + index]? = bytes[index]? := by
  unfold slice?
  split
  · next hInside =>
    have hLength : (buffer.extract offset (offset + length)).toList.length = length := by
      rw [Array.length_toList, Array.size_extract]
      omega
    have hBytes : ∀ index < length,
        buffer[offset + index]? = (buffer.extract offset (offset + length)).toList[index]? := by
      intro index hIndex
      rw [Array.getElem?_toList, Array.getElem?_extract, if_pos (by omega)]
    constructor
    · intro h
      obtain rfl := Option.some.inj h
      exact ⟨hInside, hLength, hBytes⟩
    · intro h
      obtain ⟨-, hSame, hAll⟩ := h
      congr 1
      apply List.ext_getElem?
      intro index
      by_cases hIndex : index < length
      · rw [← hBytes index hIndex, hAll index hIndex]
      · rw [List.getElem?_eq_none (by omega), List.getElem?_eq_none (by omega)]
  · next hOutside => simp [hOutside]

theorem slice?_zero {buffer : Buffer} {offset : Nat} (hOffset : offset ≤ buffer.size) :
    buffer.slice? offset 0 = some [] := by
  simp [slice?, hOffset]

theorem slice?_isSome (buffer : Buffer) (offset length : Nat) :
    (buffer.slice? offset length).isSome = decide (offset + length ≤ buffer.size) := by
  unfold slice?
  split <;> simp_all

end Buffer

end Conformance
