/-!
Decimal literals: an optional sign and ASCII digits with at most one point among them or at either
end, and at least one digit. Exponents, names of infinity and digits of other scripts are not
literals.
-/
namespace StackCalc.Literal

/-- A sign, if the text starts with one, and the rest. -/
def splitSign : List Char → Bool × List Char
  | '-' :: rest => (true, rest)
  | '+' :: rest => (false, rest)
  | text => (false, text)

/-- The text before the first point and the text after it; all of the text is before a point that is
missing. -/
def splitPoint (text : List Char) : List Char × List Char :=
  (text.takeWhile (· != '.'), (text.dropWhile (· != '.')).drop 1)

/-- The double nearest to the literal's value, or nothing if the text is no literal. -/
def read? (text : List Char) : Option Float :=
  let (negative, unsigned) := splitSign text
  let (whole, fraction) := splitPoint unsigned
  if whole.isEmpty && fraction.isEmpty then none
  else if whole.all Char.isDigit && fraction.all Char.isDigit then
    let magnitude := Float.ofScientific (Nat.ofDigitChars 10 (whole ++ fraction) 0) true
      fraction.length
    some (if negative then -magnitude else magnitude)
  else none

end StackCalc.Literal
