import Conformance.Text.Blank
import Conformance.Text.Numeral
import Mathlib.Data.List.Forall2
import Mathlib.Data.List.TakeWhile
import Mathlib.Data.Nat.Digits.Defs
import Mathlib.Tactic.IntervalCases
/-! What it means to trim a text, to compare it whatever the case of its ASCII letters, and to be
the numeral of a number. The definitions that run are the ones that find what these describe. -/
namespace Conformance.Text

/-! White space. -/

/-- What is left of a text without the white space at either end. -/
structure Trims (text middle : List Char) : Prop where
  split : ∃ before after, text = before ++ middle ++ after ∧ ∀ c ∈ before ++ after, isBlank c = true
  head : ∀ c ∈ middle.head?, isBlank c = false
  last : ∀ c ∈ middle.getLast?, isBlank c = false

theorem dropWhile_isBlank {before rest : List Char} (hBefore : ∀ c ∈ before, isBlank c = true)
    (hRest : ∀ c ∈ rest.head?, isBlank c = false) : (before ++ rest).dropWhile isBlank = rest := by
  rw [List.dropWhile_append_of_pos hBefore]
  cases rest with
  | nil => rfl
  | cons c rest => exact List.dropWhile_cons_of_neg (by simp [hRest c rfl])

theorem trims_trim (text : List Char) : Trims text (trim text) := by
  let rest := text.dropWhile isBlank
  have hRest : rest = trim text ++ (rest.reverse.takeWhile isBlank).reverse := by
    rw [trim, ← List.reverse_append, List.takeWhile_append_dropWhile, List.reverse_reverse]
  refine ⟨⟨text.takeWhile isBlank, (rest.reverse.takeWhile isBlank).reverse, ?_, ?_⟩, ?_, ?_⟩
  · rw [List.append_assoc, ← hRest, List.takeWhile_append_dropWhile]
  · intro c hBlank
    rcases List.mem_append.mp hBlank with hBefore | hAfter
    · exact List.mem_takeWhile_imp hBefore
    · exact List.mem_takeWhile_imp (List.mem_reverse.mp hAfter)
  · intro c hHead
    have hFirst : rest.head? = some c := by rw [hRest, List.head?_append, hHead]; rfl
    have := List.head?_dropWhile_not isBlank text
    simpa [show (text.dropWhile isBlank).head? = some c from hFirst] using this
  · intro c hLast
    rw [trim, List.getLast?_reverse] at hLast
    have := List.head?_dropWhile_not isBlank rest.reverse
    simpa [show (rest.reverse.dropWhile isBlank).head? = some c from hLast] using this

theorem trims_iff {text middle : List Char} : Trims text middle ↔ trim text = middle := by
  constructor
  · intro hTrims
    obtain ⟨⟨before, after, rfl, hBlank⟩, hHead, hLast⟩ := hTrims
    obtain ⟨hBefore, hAfter⟩ := List.forall_mem_append.mp hBlank
    cases middle with
    | nil =>
        have hNone : (before ++ [] ++ after).dropWhile isBlank = [] := by
          simpa using hBlank
        rw [trim, hNone]
        rfl
    | cons c rest =>
        have hFront :
            (before ++ (c :: rest) ++ after).dropWhile isBlank = (c :: rest) ++ after := by
          rw [List.append_assoc]
          exact dropWhile_isBlank hBefore (by simpa using hHead)
        rw [trim, hFront, List.reverse_append, dropWhile_isBlank (by simpa using hAfter)
          (by rw [List.head?_reverse]; exact hLast), List.reverse_reverse]
  · rintro rfl
    exact trims_trim text

/-! The case of ASCII letters. -/

/-- The same character, or the same ASCII letter in upper and in lower case. -/
def SameLetter (c d : Char) : Prop :=
  c = d ∨ (c.isUpper ∧ c.toNat + 32 = d.toNat) ∨ (d.isUpper ∧ d.toNat + 32 = c.toNat)

/-- Texts that differ in the case of ASCII letters at most. -/
def SameLetters (first second : List Char) : Prop := List.Forall₂ SameLetter first second

theorem isUpper_iff (c : Char) : c.isUpper = true ↔ 65 ≤ c.toNat ∧ c.toNat ≤ 90 := by
  change decide (65 ≤ c.val ∧ c.val ≤ 90) = true ↔ _
  rw [decide_eq_true_iff, UInt32.le_iff_toNat_le, UInt32.le_iff_toNat_le]
  rfl

theorem toNat_toLower (c : Char) :
    c.toLower.toNat = if c.isUpper then c.toNat + 32 else c.toNat := by
  by_cases hUpper : c.val ≥ 'A'.val ∧ c.val ≤ 'Z'.val
  · have hCase : c.isUpper = true := decide_eq_true hUpper
    have hRange := (isUpper_iff c).mp hCase
    have hLower : c.toLower.val = c.val + 32 := congrArg Char.val (dif_pos hUpper)
    rw [if_pos hCase, ← Char.toNat_val, hLower, UInt32.toNat_add]
    exact Nat.mod_eq_of_lt (by change c.toNat + 32 < 2 ^ 32; omega)
  · have hCase : ¬c.isUpper := fun h => hUpper (of_decide_eq_true h)
    have hLower : c.toLower = c := dif_neg hUpper
    rw [if_neg hCase, hLower]

theorem sameLetter_iff {c d : Char} : SameLetter c d ↔ c.toLower = d.toLower := by
  rw [SameLetter, ← Char.toNat_inj, ← Char.toNat_inj, toNat_toLower, toNat_toLower]
  simp only [isUpper_iff]
  split_ifs <;> omega

theorem sameLetters_iff {first second : List Char} :
    SameLetters first second ↔ first.map Char.toLower = second.map Char.toLower := by
  have hLetter : SameLetter = fun c d => c.toLower = d.toLower := by
    funext c d
    exact propext sameLetter_iff
  rw [SameLetters, hLetter, ← List.forall₂_eq_eq_eq, List.forall₂_map_left_iff,
    List.forall₂_map_right_iff]

/-! Numerals. -/

/-- The text is the decimal numeral of a value: at least one digit, after a plus sign or not. -/
def Decimal (text : List Char) (value : Nat) : Prop :=
  ∃ digits : List Nat, digits ≠ [] ∧ (∀ digit ∈ digits, digit < 10) ∧
    Nat.ofDigits 10 digits.reverse = value ∧
    (text = digits.map Nat.digitChar ∨ text = '+' :: digits.map Nat.digitChar)

theorem digitsValue?_eq_some_iff {radix before value : Nat} {text : List Char} :
    digitsValue? radix before text = some value ↔
      ∃ digits, List.Forall₂ (fun digit c => digitValue? radix c = some digit) digits text ∧
        Nat.ofDigits radix digits.reverse + before * radix ^ digits.length = value := by
  induction text generalizing before with
  | nil => simp [digitsValue?]
  | cons c rest ih =>
      have hCons (digit : Nat) (digits : List Nat) :
          Nat.ofDigits radix (digit :: digits).reverse +
              before * radix ^ (digit :: digits).length =
            Nat.ofDigits radix digits.reverse +
              (before * radix + digit) * radix ^ digits.length := by
        rw [Nat.ofDigits_reverse_cons, List.length_cons, pow_succ]
        ring
      simp only [digitsValue?, Option.bind_eq_bind, Option.bind_eq_some_iff, ih,
        List.forall₂_cons_right_iff]
      constructor
      · rintro ⟨digit, hDigit, digits, hDigits, hValue⟩
        exact ⟨_, ⟨digit, digits, hDigit, hDigits, rfl⟩, (hCons digit digits).trans hValue⟩
      · rintro ⟨_, ⟨digit, digits, hDigit, hDigits, rfl⟩, hValue⟩
        exact ⟨digit, hDigit, digits, hDigits, (hCons digit digits).symm.trans hValue⟩

theorem digitValue?_ten {c : Char} {digit : Nat} :
    digitValue? 10 c = some digit ↔ digit < 10 ∧ Nat.digitChar digit = c := by
  constructor
  · intro hDigit
    obtain ⟨hTen, hValue⟩ := Option.ite_none_right_eq_some.mp hDigit
    obtain rfl := Option.some.inj hValue
    split_ifs at hTen ⊢ with hRange
    · have hLow := UInt32.le_iff_toNat_le.mp hRange.1
      refine ⟨hTen, ?_⟩
      rw [← Char.toNat_inj, Nat.toNat_digitChar_of_lt_ten hTen]
      simp at hLow ⊢
      omega
    all_goals omega
  · rintro ⟨hDigit, rfl⟩
    interval_cases digit <;> rfl

theorem forall₂_digitValue?_ten {digits : List Nat} {text : List Char} :
    List.Forall₂ (fun digit c => digitValue? 10 c = some digit) digits text ↔
      (∀ digit ∈ digits, digit < 10) ∧ digits.map Nat.digitChar = text := by
  simp only [digitValue?_ten, List.forall₂_and_left]
  rw [← List.forall₂_map_left_iff, List.forall₂_eq_eq_eq]

theorem dropPlus_eq_digits {digits : List Nat} {text : List Char}
    (hDigits : ∀ digit ∈ digits, digit < 10) :
    digits.map Nat.digitChar = dropPlus text ↔
      text = digits.map Nat.digitChar ∨ text = '+' :: digits.map Nat.digitChar := by
  have hPlus (rest : List Char) : '+' :: rest ≠ digits.map Nat.digitChar := by
    intro hText
    cases digits with
    | nil => cases hText
    | cons digit digits =>
        have hDigit := hDigits digit List.mem_cons_self
        have hChar : '+' = Nat.digitChar digit := (List.cons.inj hText).1
        interval_cases digit <;> exact absurd hChar (by decide)
  unfold dropPlus
  split
  · next rest => simp [hPlus, eq_comm]
  · next hNoPlus =>
    exact ⟨fun hText => .inl hText.symm, Or.rec Eq.symm fun hText => (hNoPlus _ hText).elim⟩

theorem parseWord?_eq_some_iff {radix : Nat} {text : List Char} {word : UInt64} :
    parseWord? radix text = some word ↔
      dropPlus text ≠ [] ∧ digitsValue? radix 0 (dropPlus text) = some word.toNat := by
  have hSteps : parseWord? radix text = some word ↔ dropPlus text ≠ [] ∧
      ∃ value, digitsValue? radix 0 (dropPlus text) = some value ∧ value < UInt64.size ∧
        value.toUInt64 = word := by
    simp [parseWord?, guard, Option.bind_eq_some_iff]
  rw [hSteps]
  refine and_congr_right fun _ => ⟨?_, ?_⟩
  · rintro ⟨value, hValue, hSize, rfl⟩
    rw [hValue, UInt64.toNat_ofNat_of_lt' hSize]
  · intro hValue
    exact ⟨word.toNat, hValue, word.toNat_lt_size, by simp⟩

theorem parseWord?_ten_iff {text : List Char} {word : UInt64} :
    parseWord? 10 text = some word ↔ Decimal text word.toNat := by
  rw [parseWord?_eq_some_iff, digitsValue?_eq_some_iff]
  simp only [forall₂_digitValue?_ten, Nat.zero_mul, Nat.add_zero]
  constructor
  · rintro ⟨hSome, digits, ⟨hTen, hText⟩, hValue⟩
    rw [← hText, ne_eq, List.map_eq_nil_iff] at hSome
    exact ⟨digits, hSome, hTen, hValue, (dropPlus_eq_digits hTen).mp hText⟩
  · rintro ⟨digits, hSome, hTen, hValue, hText⟩
    have hDigits := (dropPlus_eq_digits hTen).mpr hText
    refine ⟨?_, digits, ⟨hTen, hDigits⟩, hValue⟩
    rwa [← hDigits, ne_eq, List.map_eq_nil_iff]

end Conformance.Text
