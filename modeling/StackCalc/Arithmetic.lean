/-!
Operations on numbers. Numbers are doubles and the operations those of their standard, so that all
but division and remainder by zero have a result.
-/
namespace StackCalc.Arithmetic

open Float.Model (UnpackedFloat)

/-- The remainder of the division that truncates towards zero: exact, and with the sign of the
dividend. It is not a number if the dividend is infinite or the divisor zero. -/
def remainder (x y : Float) : Float :=
  match x.toModel.unpack, y.toModel.unpack with
  | .finite sign m e _, .finite _ n f _ =>
    let unit := min e f
    let rest := (m <<< (e - unit).toNat) % (n <<< (f - unit).toNat)
    if rest = 0 then .ofModel (.pack (.zero sign))
    else .ofModel (.pack (UnpackedFloat.round .binary64 sign rest unit))
  | .zero _, .finite _ _ _ _ | .zero _, .infinity _ | .finite _ _ _ _, .infinity _ => x
  | _, _ => .ofModel (.pack .notANumber)

/-- The logarithm of `x` to the base `base`. -/
def logarithm (x base : Float) : Float :=
  x.log / base.log

/-- The larger number; against something that is not a number, the other one. -/
def larger (x y : Float) : Float :=
  if x.isNaN then y
  else if y.isNaN then x
  else if x < y then y
  else x

/-- The smaller number; against something that is not a number, the other one. -/
def smaller (x y : Float) : Float :=
  if x.isNaN then y
  else if y.isNaN then x
  else if y < x then y
  else x

/-- One if `x` is larger, minus one if it is smaller, else zero: there is no unordered result, and
what is not a number counts as equal to everything. -/
def comparison (x y : Float) : Float :=
  if x < y then -1
  else if y < x then 1
  else 0

/-- The largest count, in 64 bits. -/
def maxCount : Nat := UInt64.size - 1

/-- The count that a number is, if it is whole and not negative. Larger numbers count as the largest
count. -/
def count? (x : Float) : Option Nat :=
  match x.toModel.unpack with
  | .zero _ => some 0
  | .finite .positive mantissa exponent _ =>
    let whole := mantissa <<< exponent.toNat >>> (-exponent).toNat
    if whole <<< (-exponent).toNat = mantissa <<< exponent.toNat then some (min maxCount whole)
    else none
  | _ => none

end StackCalc.Arithmetic
