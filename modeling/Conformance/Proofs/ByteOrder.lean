import Conformance.Memory.Buffer
import Mathlib.Algebra.Ring.Nat
import Mathlib.Tactic.SplitIfs
/-! The laws of numbers as bytes. The two orders are each other's reversal, so the laws are proved
for the little order and carried over. What is stored in one order is read in the other one with its
bytes reversed. -/
namespace Conformance

theorem ofLittleBytes_littleBytes (width value : Nat) :
    ofLittleBytes (littleBytes width value) = value % 256 ^ width := by
  induction width generalizing value with
  | zero => simp [littleBytes, ofLittleBytes, Nat.mod_one]
  | succ width ih =>
      have head : value.toUInt8.toNat = value % 256 := UInt8.toNat_ofNat'
      rw [littleBytes, ofLittleBytes, ih, head, Nat.pow_succ', Nat.mod_mul]

theorem littleBytes_ofLittleBytes (bytes : List UInt8) :
    littleBytes bytes.length (ofLittleBytes bytes) = bytes := by
  induction bytes with
  | nil => rfl
  | cons byte rest ih =>
      have head : byte.toNat < 256 := byte.toNat_lt
      simp only [List.length_cons, littleBytes, ofLittleBytes, List.cons.injEq]
      refine ⟨?_, ?_⟩
      · apply UInt8.toNat_inj.mp
        simp only [Nat.toUInt8, UInt8.toNat_ofNat']
        omega
      · rw [Nat.add_mul_div_left _ _ (by decide), Nat.div_eq_of_lt head, Nat.zero_add, ih]

theorem ofLittleBytes_lt (bytes : List UInt8) : ofLittleBytes bytes < 256 ^ bytes.length := by
  induction bytes with
  | nil => simp [ofLittleBytes]
  | cons byte rest ih =>
      have head : byte.toNat < 256 := byte.toNat_lt
      simp only [ofLittleBytes, List.length_cons, Nat.pow_succ']
      omega

theorem ofLittleBytes_append (first second : List UInt8) :
    ofLittleBytes (first ++ second) =
      ofLittleBytes first + 256 ^ first.length * ofLittleBytes second := by
  induction first with
  | nil => simp [ofLittleBytes]
  | cons byte rest ih =>
      rw [List.cons_append, ofLittleBytes, ofLittleBytes, ih, List.length_cons, Nat.pow_succ',
        Nat.mul_add, Nat.mul_assoc, Nat.add_assoc]

/-- The number of `width` bytes that has the low bytes of `value` in reverse: the least significant
byte becomes the most significant one. -/
def reverseBytes : (width value : Nat) → Nat
  | 0, _ => 0
  | width + 1, value => value % 256 * 256 ^ width + reverseBytes width (value / 256)

theorem ofLittleBytes_reverse (width value : Nat) :
    ofLittleBytes (littleBytes width value).reverse = reverseBytes width value := by
  induction width generalizing value with
  | zero => rfl
  | succ width ih =>
      have last : ofLittleBytes [value.toUInt8] = value % 256 := UInt8.toNat_ofNat'
      rw [littleBytes, List.reverse_cons, ofLittleBytes_append, ih, last, List.length_reverse,
        length_littleBytes, reverseBytes, Nat.add_comm, Nat.mul_comm]

namespace ByteOrder

/-- The opposite order. -/
def other : ByteOrder → ByteOrder
  | .little => .big
  | .big => .little

theorem decode_encode (order : ByteOrder) (width value : Nat) :
    order.decode (order.encode width value) = value % 256 ^ width := by
  cases order <;> simp [encode, decode, ofLittleBytes_littleBytes]

theorem decode_other_encode (order : ByteOrder) (width value : Nat) :
    order.other.decode (order.encode width value) = reverseBytes width value := by
  cases order <;> simp [other, encode, decode, ofLittleBytes_reverse]

example : big.decode (little.encode 4 0x11223344) = 0x44332211 := by decide

theorem encode_decode (order : ByteOrder) (bytes : List UInt8) :
    order.encode bytes.length (order.decode bytes) = bytes := by
  cases order with
  | little => exact littleBytes_ofLittleBytes bytes
  | big =>
      have law := littleBytes_ofLittleBytes bytes.reverse
      rw [List.length_reverse] at law
      simp [encode, decode, law]

theorem decode_lt (order : ByteOrder) (bytes : List UInt8) :
    order.decode bytes < 256 ^ bytes.length := by
  cases order with
  | little => exact ofLittleBytes_lt bytes
  | big => simpa [decode] using ofLittleBytes_lt bytes.reverse

/-- A number has one encoding of each width that has room for it. -/
theorem decode_eq_iff {order : ByteOrder} {bytes : List UInt8} {width value : Nat}
    (hLength : bytes.length = width) (hValue : value < 256 ^ width) :
    order.decode bytes = value ↔ bytes = order.encode width value := by
  constructor
  · rintro rfl
    exact hLength ▸ (order.encode_decode bytes).symm
  · rintro rfl
    rw [decode_encode, Nat.mod_eq_of_lt hValue]

variable {order : ByteOrder} {width : Nat} {value : UInt64}

theorem wordBytes_eq_ok_iff {bytes : List UInt8} : order.wordBytes width value = .ok bytes ↔
    (width = 4 ∨ width = 8) ∧ value.toNat < 256 ^ width ∧
      bytes = order.encode width value.toNat := by
  have hWord := value.toNat_lt
  unfold wordBytes
  split_ifs with hFour hBound hEight
  · subst hFour
    simpa [eq_comm] using fun _ => hBound
  · subst hFour
    simpa using fun h => absurd h hBound
  · subst hEight
    simpa [eq_comm] using fun _ => hWord
  · simp [hFour, hEight]

theorem wordBytes_eq_error_iff {error : Error} : order.wordBytes width value = .error error ↔
    (width ≠ 4 ∧ width ≠ 8 ∧ error = .malformed (.fieldWidth width)) ∨
      (width = 4 ∧ 2 ^ 32 ≤ value.toNat ∧ error = .outOfBounds) := by
  have hSize : UInt32.size = 2 ^ 32 := rfl
  unfold wordBytes
  split_ifs with hFour hBound hEight
  · simp [hFour]
    omega
  · simp [hFour, eq_comm]
    omega
  · simp [hEight]
  · simp [hFour, hEight, eq_comm]

end ByteOrder

end Conformance
