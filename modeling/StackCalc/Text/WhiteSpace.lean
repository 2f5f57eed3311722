import StackCalc.Text.Ranges

/-!
White space as the Unicode standard has it: the characters that separate words in a source text and
that are cut from the ends of a line of input.
-/
namespace StackCalc.Text

/-- The code points with the property White_Space, as inclusive ranges. -/
def whiteSpaceRanges : List (Nat × Nat) :=
  [(0x9, 0xD), (0x20, 0x20), (0x85, 0x85), (0xA0, 0xA0), (0x1680, 0x1680), (0x2000, 0x200A),
    (0x2028, 0x2029), (0x202F, 0x202F), (0x205F, 0x205F), (0x3000, 0x3000)]

example : ascending whiteSpaceRanges = true := by decide

def isWhiteSpace (c : Char) : Bool :=
  inRanges whiteSpaceRanges c.toNat

/-- The text without the white space at its two ends. -/
def trim (text : List Char) : List Char :=
  ((text.dropWhile isWhiteSpace).reverse.dropWhile isWhiteSpace).reverse

theorem isWhiteSpace_newline : isWhiteSpace '\n' = true := by decide

/-- The table has every blank character that the core library knows. -/
theorem isWhiteSpace_of_isWhitespace {c : Char} (h : c.isWhitespace = true) :
    isWhiteSpace c = true := by
  simp only [Char.isWhitespace, Bool.or_eq_true, decide_eq_true_eq] at h
  rcases h with ((rfl | rfl) | rfl) | rfl <;> decide

end StackCalc.Text
