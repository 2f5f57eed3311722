/-!
The decimal with the fewest digits that reads back as a given double. All of it is arithmetic on
natural numbers: the double is `mantissa * 2 ^ exponent`, and the reals that round to it form an
interval around it whose ends are its midpoints with its two neighbours.
-/
namespace StackCalc

/-- The number `digits * 10 ^ exponent`. -/
structure Decimal where
  digits : Nat
  exponent : Int
  deriving DecidableEq, Repr

namespace Decimal

/-- A positive double in quarters of its last binary place: `centre * 2 ^ scale`, between the
midpoints `low * 2 ^ scale` and `high * 2 ^ scale`. -/
structure Rounding where
  low : Nat
  centre : Nat
  high : Nat
  scale : Int
  /-- A midpoint itself rounds to the neighbour with the even mantissa. -/
  closed : Bool

/-- Below a power of two the doubles lie twice as close, unless the power is the smallest with a
full mantissa. -/
def Rounding.of (mantissa : Nat) (exponent : Int) : Rounding where
  low := 4 * mantissa - if mantissa = 1 <<< 52 ∧ -1074 < exponent then 1 else 2
  centre := 4 * mantissa
  high := 4 * mantissa + 2
  scale := exponent - 2
  closed := mantissa % 2 = 0

/-- The interval in whole multiples of a unit that divides both the quarters of the last binary
place and the decimal place `10 ^ place`, and that decimal place in the same unit. -/
def Rounding.onGrid (r : Rounding) (place : Int) : Rounding × Nat :=
  let factor := Nat.pow 10 (-place).toNat <<< r.scale.toNat
  ({ r with low := r.low * factor, centre := r.centre * factor, high := r.high * factor },
    Nat.pow 10 place.toNat <<< (-r.scale).toNat)

def Rounding.holds (r : Rounding) (x : Nat) : Bool :=
  if r.closed then r.low ≤ x && x ≤ r.high else r.low < x && x < r.high

/-- The multiple of `10 ^ place` that rounds to the double, if there is one: of two, the nearer, and
the upper when both are equally near. -/
def Rounding.onPlace? (r : Rounding) (place : Int) : Option Decimal :=
  let (r, step) := r.onGrid place
  let below := r.centre / step
  let above := below + 1
  let takeAbove := above * step - r.centre ≤ r.centre - below * step
  match r.holds (below * step), r.holds (above * step) with
  | true, true => some ⟨if takeAbove then above else below, place⟩
  | true, false => some ⟨below, place⟩
  | false, true => some ⟨above, place⟩
  | false, false => none

/-- The first hit on the places from `place` downwards, at most `count + 1` of them; without a hit,
the grid point of the last place that is not above the double. -/
def Rounding.firstHit (r : Rounding) : Nat → Int → Decimal
  | 0, place => (r.onPlace? place).getD ⟨(r.onGrid place).1.centre / (r.onGrid place).2, place⟩
  | count + 1, place => (r.onPlace? place).getD (r.firstHit count (place - 1))

/-- A decimal place above the leading digit of `mantissa * 2 ^ exponent`: the logarithm of two to
base ten, 0.30103 to five places, times the number of binary places before the point. -/
def placeAbove (mantissa : Nat) (exponent : Int) : Int :=
  (exponent + mantissa.log2 + 1) * 30103 / 100000 + 1

/-- The decimal with the fewest digits among those that round to the positive double
`mantissa * 2 ^ exponent`; of these the nearest, and the upper of two. Seventeen digits always
suffice, and the search starts at most two places too high. -/
def shortest (mantissa : Nat) (exponent : Int) : Decimal :=
  (Rounding.of mantissa exponent).firstHit 19 (placeAbove mantissa exponent)

end Decimal

end StackCalc
