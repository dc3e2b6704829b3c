/-! Numerals: reading unsigned 64-bit numbers in a radix, and writing hexadecimal. -/
namespace Conformance.Text

/-- The value of a digit in a radix of at most sixteen; letters count in either case. -/
def digitValue? (radix : Nat) (c : Char) : Option Nat :=
  let value :=
    if '0' ≤ c ∧ c ≤ '9' then c.toNat - '0'.toNat
    else if 'a' ≤ c ∧ c ≤ 'f' then c.toNat - 'a'.toNat + 10
    else if 'A' ≤ c ∧ c ≤ 'F' then c.toNat - 'A'.toNat + 10
    else radix
  if value < radix then some value else none

/-- The number that digits continue, given the value of the digits before them. -/
def digitsValue? (radix : Nat) : (before : Nat) → List Char → Option Nat
  | before, [] => some before
  | before, c :: rest => do
      let value ← digitValue? radix c
      digitsValue? radix (before * radix + value) rest

/-- The numeral without one leading plus sign. -/
def dropPlus : List Char → List Char
  | '+' :: rest => rest
  | text => text

/-- Reads an unsigned number below `2 ^ 64`: an optional plus sign, then at least one digit and
nothing else. -/
def parseWord? (radix : Nat) (text : List Char) : Option UInt64 := do
  let digits := dropPlus text
  guard (digits ≠ [])
  let value ← digitsValue? radix 0 digits
  guard (value < UInt64.size)
  pure value.toUInt64

/-- Hexadecimal in lower case, without leading zeros. -/
def hex (value : Nat) : String := String.ofList (Nat.toDigits 16 value)

/-- Hexadecimal in upper case, without leading zeros. -/
def upperHex (value : Nat) : String :=
  String.ofList ((Nat.toDigits 16 value).map Char.toUpper)

/-- Hexadecimal in lower case, filled up with zeros to `width` digits. -/
def paddedHex (width value : Nat) : String :=
  let digits := Nat.toDigits 16 value
  String.ofList (List.replicate (width - digits.length) '0' ++ digits)

end Conformance.Text
