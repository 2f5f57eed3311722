import StackCalc.Decimal.Shortest

/-!
Numbers in positional notation: an optional sign, digits, and a point with further digits only where
the number has a fraction. There is never an exponent.
-/
namespace StackCalc.Decimal

/-- The digits of `n`, with leading zeros up to `width` places. -/
def paddedDigits (width n : Nat) : List Char :=
  let digits := Nat.toDigits 10 n
  List.replicate (width - digits.length) '0' ++ digits

/-- The number written out in full. -/
def positional (d : Decimal) : List Char :=
  if 0 ≤ d.exponent then
    Nat.toDigits 10 d.digits ++ List.replicate d.exponent.toNat '0'
  else
    let places := (-d.exponent).toNat
    let digits := paddedDigits (places + 1) d.digits
    digits.take (digits.length - places) ++ '.' :: digits.drop (digits.length - places)

end StackCalc.Decimal

namespace StackCalc

/-- The sign of a number as it is written. -/
def signText : Float.Model.UnpackedFloat.Sign → List Char
  | .positive => []
  | .negative => ['-']

/-- The text of a number: the fewest digits that read back as it, in positional notation. Zero
keeps its sign. -/
def numberText (x : Float) : List Char :=
  match x.toModel.unpack with
  | .notANumber => ['N', 'a', 'N']
  | .infinity sign => signText sign ++ ['i', 'n', 'f']
  | .zero sign => signText sign ++ ['0']
  | .finite sign mantissa exponent _ =>
    signText sign ++ (Decimal.shortest mantissa exponent).positional

end StackCalc
