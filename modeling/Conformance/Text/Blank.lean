/-! White space, lines and words of a text. Texts are taken as lists of characters; white space is
the whole `White_Space` property, not only its ASCII part. -/
namespace Conformance.Text

/-- The code points with the `White_Space` property, as inclusive ranges in ascending order. -/
def blankRanges : List (Nat × Nat) :=
  [(0x09, 0x0D), (0x20, 0x20), (0x85, 0x85), (0xA0, 0xA0), (0x1680, 0x1680), (0x2000, 0x200A),
    (0x2028, 0x2029), (0x202F, 0x202F), (0x205F, 0x205F), (0x3000, 0x3000)]

/-- Whether a character is white space. -/
def isBlank (c : Char) : Bool :=
  blankRanges.any fun (low, high) => low ≤ c.toNat && c.toNat ≤ high

/-- The text without the white space at either end. -/
def trim (text : List Char) : List Char :=
  ((text.dropWhile isBlank).reverse.dropWhile isBlank).reverse

/-- The pieces of a text between the characters that `separates` holds of: the first one, and
those after each separator. -/
def pieces (separates : Char → Bool) : List Char → List Char × List (List Char)
  | [] => ([], [])
  | c :: rest =>
      let (piece, later) := pieces separates rest
      if separates c then ([], piece :: later) else (c :: piece, later)

/-- The maximal runs of characters that are not white space. -/
def words (text : List Char) : List (List Char) :=
  let (piece, later) := pieces isBlank text
  (piece :: later).filter (· ≠ [])

/-- The line without one carriage return at its end. -/
def dropReturn (line : List Char) : List Char :=
  match line.getLast? with
  | some '\r' => line.dropLast
  | _ => line

/-- The lines that a list of pieces stands for. Each piece but the last was ended by a line feed
and gives up a carriage return before it; an empty last piece is no line. -/
def linesOfPieces (piece : List Char) : List (List Char) → List (List Char)
  | [] => if piece = [] then [] else [piece]
  | next :: later => dropReturn piece :: linesOfPieces next later

/-- The lines of a text, without the line feed or carriage return and line feed that ends them. -/
def lines (text : List Char) : List (List Char) :=
  let (piece, later) := pieces (· = '\n') text
  linesOfPieces piece later

/-- The text before and after the first occurrence of `mark`. -/
def cutAt? (mark : Char) : List Char → Option (List Char × List Char)
  | [] => none
  | c :: rest =>
      if c = mark then some ([], rest)
      else (cutAt? mark rest).map fun (before, after) => (c :: before, after)

theorem cutAt?_eq_some_iff {mark : Char} {text before after : List Char} :
    cutAt? mark text = some (before, after) ↔
      text = before ++ mark :: after ∧ mark ∉ before := by
  induction text generalizing before with
  | nil => simp [cutAt?]
  | cons c rest ih =>
      by_cases h : c = mark
      · subst h
        cases before <;> simp_all [cutAt?, eq_comm]
      · cases before with
        | nil => simp [cutAt?, h]
        | cons d before =>
            simp only [cutAt?, h, if_false, Option.map_eq_some_iff, Prod.exists, Prod.mk.injEq,
              List.cons.injEq, List.cons_append, List.mem_cons, not_or]
            constructor
            · rintro ⟨start, stop, found, ⟨rfl, rfl⟩, rfl⟩
              exact ⟨⟨rfl, (ih.mp found).1⟩, fun e => h e.symm, (ih.mp found).2⟩
            · rintro ⟨⟨rfl, split⟩, _, absent⟩
              exact ⟨before, after, ih.mpr ⟨split, absent⟩, ⟨rfl, rfl⟩, rfl⟩

end Conformance.Text
