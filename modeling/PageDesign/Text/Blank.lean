/-! # Blank characters

A character is *blank* when it has the Unicode property `White_Space`.  The
property holds of twenty-five characters, listed here as ranges of code points;
`trim` takes them off both ends of a text.

Markup skips far less between its tokens: `isSpace` holds of the four
characters a hand-written template is laid out with.
-/
namespace PageDesign.Text

/-- The code points with the property `White_Space`, as inclusive ranges. -/
def blankRanges : List (Nat × Nat) :=
  [(0x09, 0x0D), (0x20, 0x20), (0x85, 0x85), (0xA0, 0xA0), (0x1680, 0x1680),
   (0x2000, 0x200A), (0x2028, 0x2029), (0x202F, 0x202F), (0x205F, 0x205F), (0x3000, 0x3000)]

/-- Whether a character is blank. -/
def isBlank (c : Char) : Bool :=
  blankRanges.any fun (first, last) => first ≤ c.toNat && c.toNat ≤ last

/-- Whether a character only separates tokens: space, tab, carriage return or
line feed. -/
def isSpace (c : Char) : Bool := c == ' ' || c == '\t' || c == '\r' || c == '\n'

/-- A text without the blank characters at its two ends. -/
def trim (s : List Char) : List Char :=
  ((s.dropWhile isBlank).reverse.dropWhile isBlank).reverse

/-- What is left of a text after its leading separators. -/
def skipSpace (s : List Char) : List Char := s.dropWhile isSpace

theorem length_skipSpace_le (s : List Char) : (skipSpace s).length ≤ s.length :=
  (List.dropWhile_sublist _).length_le

/-- What stands behind the first character after the separators is shorter than the text. -/
theorem length_lt_of_skipSpace {c : Char} {s rest : List Char} (h : skipSpace s = c :: rest) :
    rest.length < s.length := by
  have hs := length_skipSpace_le s
  rw [h] at hs
  exact hs

/-- Every separator is blank. -/
theorem isBlank_of_isSpace {c : Char} (h : isSpace c = true) : isBlank c = true := by
  simp only [isSpace, Bool.or_eq_true, beq_iff_eq] at h
  rcases h with ((rfl | rfl) | rfl) | rfl <;> decide

end PageDesign.Text
