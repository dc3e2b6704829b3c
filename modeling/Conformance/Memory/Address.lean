/-! Addresses of the inspected address space. An address carries no type; it is a position among
`2 ^ 64` bytes. Sums are formed among the naturals and only then compared with the size of the
space, so a sum that passes the end is told apart from a small address. -/
namespace Conformance

/-- A position in the inspected address space. Zero is the null address. -/
abbrev Address := UInt64

namespace Address

/-- The position `offset` bytes after `base`, which may lie beyond the address space. -/
def plus (base : Address) (offset : UInt64) : Nat := base.toNat + offset.toNat

/-- The address of a position, if the address space has one. -/
def ofPosition? (position : Nat) : Option Address :=
  if position < UInt64.size then some position.toUInt64 else none

/-- The exclusive end of `length` bytes from `base`. A range whose end is not itself an address
is refused, the range up to the very last byte included. -/
def rangeEnd? (base : Address) (length : Nat) : Option Address :=
  ofPosition? (base.toNat + length)

theorem ofPosition?_eq_some_iff {position : Nat} {address : Address} :
    ofPosition? position = some address ↔ position = address.toNat := by
  unfold ofPosition?
  split
  · rename_i h
    simp only [Option.some.injEq]
    constructor
    · rintro rfl
      simp [Nat.mod_eq_of_lt h]
    · rintro rfl
      simp
  · rename_i h
    have bound := address.toNat_lt_size
    simp only [reduceCtorEq, false_iff]
    omega

theorem ofPosition?_eq_none_iff {position : Nat} :
    ofPosition? position = none ↔ UInt64.size ≤ position := by
  unfold ofPosition?
  split <;> simp <;> omega

end Address

end Conformance
