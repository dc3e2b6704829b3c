/-! Unsigned numbers as bytes in either order. -/
namespace Conformance

/-- The order in which the bytes of a number are stored. -/
inductive ByteOrder where
  /-- The least significant byte comes first. -/
  | little
  /-- The most significant byte comes first. -/
  | big
deriving DecidableEq, Repr

/-- The low `width` bytes of `value`, least significant first. -/
def littleBytes : (width value : Nat) → List UInt8
  | 0, _ => []
  | width + 1, value => value.toUInt8 :: littleBytes width (value / 256)

/-- The number whose bytes are given, least significant first. -/
def ofLittleBytes : List UInt8 → Nat
  | [] => 0
  | byte :: rest => byte.toNat + 256 * ofLittleBytes rest

@[simp] theorem length_littleBytes (width value : Nat) :
    (littleBytes width value).length = width := by
  induction width generalizing value with
  | zero => rfl
  | succ width ih => simp [littleBytes, ih]

namespace ByteOrder

/-- The byte order of the machine that runs the library. -/
def native : ByteOrder := .little

/-- The low `width` bytes of `value` in this order. -/
def encode (order : ByteOrder) (width value : Nat) : List UInt8 :=
  match order with
  | .little => littleBytes width value
  | .big => (littleBytes width value).reverse

/-- The number stored as `bytes` in this order. -/
def decode (order : ByteOrder) (bytes : List UInt8) : Nat :=
  match order with
  | .little => ofLittleBytes bytes
  | .big => ofLittleBytes bytes.reverse

@[simp] theorem length_encode (order : ByteOrder) (width value : Nat) :
    (order.encode width value).length = width := by
  cases order <;> simp [encode]

end ByteOrder

end Conformance
