import Conformance.Memory.Address
import Conformance.Text.Numeral
/-! Mapped address ranges with their access permissions. -/
namespace Conformance

/-- The access permissions of a mapped range. -/
structure Protection where
  read : Bool
  write : Bool
  execute : Bool
  /-- The mapping is shared with other processes. -/
  shared : Bool
deriving DecidableEq, Repr

namespace Protection

/-- Reading only. -/
def readOnly : Protection := ⟨true, false, false, false⟩

/-- The permissions that two ranges both grant. -/
def inter (p q : Protection) : Protection :=
  ⟨p.read && q.read, p.write && q.write, p.execute && q.execute, p.shared && q.shared⟩

/-- The permissions whose bits are set, from bit 0 up: read, write, execute, shared. Higher bits
mean nothing. -/
def ofBits (bits : Nat) : Protection :=
  ⟨bits.testBit 0, bits.testBit 1, bits.testBit 2, bits.testBit 3⟩

/-- One bit per permission, in the order of `ofBits`. -/
def bits (p : Protection) : Nat :=
  p.read.toNat + 2 * p.write.toNat + 4 * p.execute.toNat + 8 * p.shared.toNat

/-- The access letters, with a dash for each access that is not granted. Sharing is not shown. -/
def text (p : Protection) : String :=
  String.ofList [if p.read then 'r' else '-', if p.write then 'w' else '-',
    if p.execute then 'x' else '-']

end Protection

/-- The addresses from `start` up to, but without, `finish`. -/
structure Region where
  start : Address
  finish : Address
  protection : Protection
deriving DecidableEq, Repr

namespace Region

/-- The readable range of `length` bytes from `start`, unless it passes the end of the address
space. -/
def readable? (start : Address) (length : Nat) : Option Region :=
  (Address.rangeEnd? start length).map fun finish => ⟨start, finish, .readOnly⟩

/-- The number of bytes from start to finish, as a word: a region that finishes before it starts
counts round the end of the address space. -/
def size (region : Region) : UInt64 := region.finish - region.start

/-- Whether the region covers no byte because it finishes where it starts. -/
def isEmpty (region : Region) : Bool := region.finish == region.start

/-- Start and finish in sixteen hexadecimal digits, then the access letters. -/
def text (region : Region) : String :=
  Text.paddedHex 16 region.start.toNat ++ "-" ++ Text.paddedHex 16 region.finish.toNat ++ " "
    ++ region.protection.text

/-- The bytes that a region covers. -/
def Covers (region : Region) (address : Nat) : Prop :=
  region.start.toNat ≤ address ∧ address < region.finish.toNat

instance (region : Region) (address : Nat) : Decidable (region.Covers address) :=
  inferInstanceAs (Decidable (_ ∧ _))

end Region

end Conformance
