import StackCalc.Decimal.Shortest
import StackCalc.Proofs.Decimal.Binary64

/-!
Rounding to the nearest double. What is cut off a mantissa is told by two more bits, and these are
enough to find the double in whose interval a number lies.
-/
namespace StackCalc

open Float.Model (Format UnpackedFloat totalExponent)
open Float.Model.UnpackedFloat hiding pack unpack

namespace Binary64

/-! Mantissas with the bits of what has been cut off. -/

/-- The mantissa in halves, the round bit being one of them. -/
def halves (em : ExtendedMantissa) : Nat :=
  2 * em.mantissa + em.roundBit.toNat

/-- The number lies less than a half above the mantissa with its round bit, and the sticky bit tells
whether it lies above at all. -/
structure Stands (em : ExtendedMantissa) (x : ℚ) : Prop where
  le : halves em ≤ 2 * x
  lt : 2 * x < halves em + 1
  sticky : em.stickyBit = false ↔ 2 * x = halves em

section Stands
variable {em : ExtendedMantissa} {x : ℚ}

theorem halves_shiftRightOne (em : ExtendedMantissa) : halves em.shiftRightOne = em.mantissa := by
  have hbit : (em.mantissa % 2 != 0).toNat = em.mantissa % 2 := by
    rcases Nat.mod_two_eq_zero_or_one em.mantissa with h | h <;> rw [h] <;> rfl
  rw [halves, ExtendedMantissa.shiftRightOne, hbit]
  exact Nat.div_add_mod _ _

theorem Stands.shiftRightOne (h : Stands em x) : Stands em.shiftRightOne (x / 2) := by
  obtain ⟨m, round, sticky⟩ := em
  obtain ⟨hle, hlt, hs⟩ := h
  have hx : 2 * (x / 2) = x := by ring
  refine ⟨?_, ?_, ?_⟩ <;> rw [halves_shiftRightOne, hx]
  all_goals
    cases round <;> simp only [halves, Bool.toNat_false, Bool.toNat_true] at hle hlt hs <;>
      push_cast at hle hlt hs <;> simp only [ExtendedMantissa.shiftRightOne]
  · linarith
  · linarith
  · linarith
  · linarith
  · rw [Bool.false_or, hs]
    constructor <;> intro hexact <;> linarith
  · constructor
    · rintro ⟨⟩
    · intro hexact
      linarith

theorem Stands.shiftRight (h : Stands em x) (n : Nat) : Stands (em >>> n) (x / 2 ^ n) := by
  change Stands (n.repeat ExtendedMantissa.shiftRightOne em) _
  induction n with
  | zero => rwa [pow_zero, div_one]
  | succ n ih =>
    rw [Nat.repeat, pow_succ, ← div_div]
    exact ih.shiftRightOne

/-- Rounding depends on the halves below, on whether more has been cut off, and of two numbers that
are equally near on which is even. -/
theorem roundedMantissa_of_halves {n : Nat} (hbelow : 2 * n ≤ halves em + 1)
    (habove : halves em ≤ 2 * n + 1) (hcut : em.stickyBit = true → halves em ≤ 2 * n)
    (htie : em.stickyBit = false → n % 2 = 0 ∨ halves em = 2 * n) : em.roundedMantissa = n := by
  obtain ⟨m, round, sticky⟩ := em
  cases round <;> cases sticky <;>
    simp [halves, ExtendedMantissa.roundedMantissa, ExtendedMantissa.accuracy,
      Accuracy.roundToNearestEven] at hbelow habove hcut htie ⊢ <;> omega

/-- Nearest is the natural number that is at most a half away; of two such, the even one. -/
theorem Stands.roundedMantissa (h : Stands em x) {n : Nat} (hlow : (n : ℚ) - 1 / 2 ≤ x)
    (hhigh : x ≤ n + 1 / 2) (hinner : n % 2 = 0 ∨ (n : ℚ) - 1 / 2 < x ∧ x < n + 1 / 2) :
    em.roundedMantissa = n := by
  obtain ⟨hle, hlt, hs⟩ := h
  apply roundedMantissa_of_halves
  · have hbelow : (2 * n : ℚ) < halves em + 1 + 1 := by linarith
    exact Nat.le_of_lt_succ (by exact_mod_cast hbelow)
  · have habove : (halves em : ℚ) ≤ 2 * n + 1 := by linarith
    exact_mod_cast habove
  · intro hsticky
    have hne : 2 * x ≠ halves em := fun he => Bool.eq_false_iff.1 (hs.2 he) hsticky
    have habove : (halves em : ℚ) < 2 * n + 1 := by linarith [lt_of_le_of_ne hle hne.symm]
    exact Nat.le_of_lt_succ (by exact_mod_cast habove)
  · intro hsticky
    have hexact := hs.1 hsticky
    refine hinner.imp_right fun hstrict => ?_
    have hbelow : (2 * n : ℚ) < halves em + 1 := by linarith [hstrict.1]
    have habove : (halves em : ℚ) < 2 * n + 1 := by linarith [hstrict.2]
    exact Nat.le_antisymm (Nat.le_of_lt_succ (by exact_mod_cast habove))
      (Nat.le_of_lt_succ (by exact_mod_cast hbelow))

theorem stands_exact (q : Nat) (place : Int) :
    Stands (ExtendedMantissa.ofMantissaAndAccuracy q .exact) (q * 2 ^ place / 2 ^ place) := by
  rw [mul_div_cancel_right₀ _ (zpow_ne_zero _ two_ne_zero)]
  constructor <;> simp [ExtendedMantissa.ofMantissaAndAccuracy, halves]

theorem stands_inexact {q : Nat} {rest : ℚ} {o : Ordering} (hx : 2 * x = 2 * q + rest)
    (hpos : 0 < rest) (hlt : rest < 2) (ho : o.Compares rest 1) :
    Stands (ExtendedMantissa.ofMantissaAndAccuracy q (.inexact o)) x := by
  cases o with
  | lt =>
    have hhalf : rest < 1 := ho
    constructor <;>
      simp [ExtendedMantissa.ofMantissaAndAccuracy, halves, hx, hhalf, hpos.le, hpos.ne']
  | eq =>
    obtain rfl : rest = 1 := ho
    constructor <;> simp [ExtendedMantissa.ofMantissaAndAccuracy, halves, hx]
  | gt =>
    have hhalf : 1 < rest := ho
    constructor <;>
      simp [ExtendedMantissa.ofMantissaAndAccuracy, halves, hx, hhalf.le, hhalf.ne', add_assoc,
        one_add_one_eq_two, hlt]

/-- A quotient and what its remainder tells of the places behind it. -/
theorem stands_div (n : Nat) {d : Nat} (hd : 0 < d) :
    Stands (ExtendedMantissa.ofMantissaAndAccuracy (n / d) (accuracyOfFraction (n % d) d))
      (n / d) := by
  have hd' : (0 : ℚ) < d := by exact_mod_cast hd
  have hmono : StrictMono fun k : Nat => (k : ℚ) / d := fun _ _ h =>
    div_lt_div_of_pos_right (by exact_mod_cast h) hd'
  have hone : (d / d : ℚ) = 1 := div_self hd'.ne'
  have hx : (2 * (n / d) : ℚ) = 2 * (n / d : Nat) + (2 * (n % d) : Nat) / d := by
    have hdiv : (d * (n / d : Nat) + (n % d : Nat) : ℚ) = n := by exact_mod_cast Nat.div_add_mod n d
    push_cast
    field_simp
    linarith
  rw [accuracyOfFraction]
  split
  next hzero =>
    rw [hzero] at hx
    constructor <;> simp [ExtendedMantissa.ofMantissaAndAccuracy, halves, hx]
  next hne =>
    have hrest : 0 < 2 * (n % d) := by omega
    refine stands_inexact hx ?_ ?_ ?_
    · exact div_pos (by exact_mod_cast hrest) hd'
    · rw [div_lt_iff₀ hd']
      exact_mod_cast Nat.mul_lt_mul_of_pos_left (Nat.mod_lt n hd) Nat.two_pos
    · rw [← hone]
      exact hmono.compares.2 ((compare_iff _ _).1 rfl)

theorem Stands.mantissa_le (h : Stands em x) : em.mantissa ≤ x := by
  have hle := h.le
  rw [halves] at hle
  push_cast at hle
  have hround : (0 : ℚ) ≤ em.roundBit.toNat := Nat.cast_nonneg _
  linarith

theorem Stands.lt_mantissa (h : Stands em x) : x < em.mantissa + 1 := by
  have hlt := h.lt
  rw [halves] at hlt
  push_cast at hlt
  have hround : (em.roundBit.toNat : ℚ) ≤ 1 := by
    exact_mod_cast em.roundBit.toNat_le
  linarith

theorem mantissa_ofMantissaAndAccuracy (q : Nat) (accuracy : Accuracy) :
    (ExtendedMantissa.ofMantissaAndAccuracy q accuracy).mantissa = q := by
  cases accuracy with
  | exact => rfl
  | inexact o => cases o <;> rfl

end Stands

end Binary64

/-! The interval of numbers that are rounded to a double. -/

namespace Decimal.Rounding

/-- The number lies between the midpoints, or on one of them if they belong to the interval. -/
structure Contains (r : Rounding) (x : ℚ) : Prop where
  low_le : r.low * 2 ^ r.scale ≤ x
  le_high : x ≤ r.high * 2 ^ r.scale
  inner : r.closed = true ∨ r.low * 2 ^ r.scale < x ∧ x < r.high * 2 ^ r.scale

section Contains
variable {mantissa : Nat} {exponent : Int} {x : ℚ}

theorem low_of_ge (mantissa : Nat) (exponent : Int) :
    (4 * mantissa - 2 : ℚ) ≤ (Rounding.of mantissa exponent).low := by
  have hnat : 4 * mantissa ≤ (Rounding.of mantissa exponent).low + 2 := by
    rw [Rounding.of]
    simp only
    split <;> omega
  have hcast : (4 * mantissa : ℚ) ≤ (Rounding.of mantissa exponent).low + 2 := by
    exact_mod_cast hnat
  linarith

theorem low_of_lt (exponent : Int) (h : 0 < mantissa) :
    ((Rounding.of mantissa exponent).low : ℚ) < 4 * mantissa := by
  have hnat : (Rounding.of mantissa exponent).low < 4 * mantissa := by
    rw [Rounding.of]
    simp only
    split <;> omega
  exact_mod_cast hnat

theorem low_of_power (he : -1074 < exponent) :
    (Rounding.of (2 ^ 52) exponent).low = 2 ^ 54 - 1 := by
  rw [Rounding.of, if_pos ⟨rfl, he⟩]
  rfl

theorem low_of_not_power (h : 0 < mantissa) (hp : ¬ (mantissa = 2 ^ 52 ∧ -1074 < exponent)) :
    ((Rounding.of mantissa exponent).low : ℚ) = 4 * mantissa - 2 := by
  have hp' : ¬ (mantissa = 1 <<< 52 ∧ -1074 < exponent) := hp
  have hnat : (Rounding.of mantissa exponent).low + 2 = 4 * mantissa := by
    rw [Rounding.of]
    simp only
    rw [if_neg hp']
    omega
  have hcast : ((Rounding.of mantissa exponent).low + 2 : ℚ) = 4 * mantissa := by
    exact_mod_cast hnat
  linarith

theorem high_of : ((Rounding.of mantissa exponent).high : ℚ) = 4 * mantissa + 2 := by
  rw [Rounding.of]
  push_cast
  rfl

theorem scale_of (mantissa : Nat) (exponent : Int) :
    (2 : ℚ) ^ (Rounding.of mantissa exponent).scale = 2 ^ exponent / 4 := by
  rw [Rounding.of, zpow_sub₀ two_ne_zero]
  norm_num

theorem contains_self (h : 0 < mantissa) :
    (Rounding.of mantissa exponent).Contains (mantissa * 2 ^ exponent) := by
  have hpos : (0 : ℚ) < 2 ^ exponent / 4 := div_pos (zpow_pos two_pos _) four_pos
  have hlow := mul_lt_mul_of_pos_right (low_of_lt exponent h) hpos
  have hx : (4 * mantissa * (2 ^ exponent / 4) : ℚ) = mantissa * 2 ^ exponent := by ring
  have hhigh : (4 * mantissa * (2 ^ exponent / 4) : ℚ) < (Rounding.of mantissa exponent).high *
      (2 ^ exponent / 4) := by
    rw [high_of]
    linarith
  rw [hx] at hlow hhigh
  rw [← scale_of mantissa] at hlow hhigh
  exact ⟨hlow.le, hhigh.le, .inr ⟨hlow, hhigh⟩⟩

/-- In units of its last place the double is at most a half away. -/
theorem Contains.near (h : (Rounding.of mantissa exponent).Contains x) :
    (mantissa : ℚ) - 1 / 2 ≤ x / 2 ^ exponent ∧ x / 2 ^ exponent ≤ mantissa + 1 / 2 ∧
      (mantissa % 2 = 0 ∨
        (mantissa : ℚ) - 1 / 2 < x / 2 ^ exponent ∧ x / 2 ^ exponent < mantissa + 1 / 2) := by
  obtain ⟨hlow, hhigh, hinner⟩ := h
  have hpos : (0 : ℚ) < 2 ^ exponent := zpow_pos two_pos _
  have hge : ((mantissa : ℚ) - 1 / 2) * 2 ^ exponent ≤
      (Rounding.of mantissa exponent).low * (2 ^ exponent / 4) := by
    linarith [mul_le_mul_of_nonneg_right (low_of_ge mantissa exponent) hpos.le]
  have hle : ((4 * mantissa + 2) * (2 ^ exponent / 4) : ℚ) = (mantissa + 1 / 2) * 2 ^ exponent := by
    ring
  rw [scale_of] at hlow hinner hhigh
  rw [high_of, hle] at hhigh hinner
  rw [le_div_iff₀ hpos, div_le_iff₀ hpos, lt_div_iff₀ hpos, div_lt_iff₀ hpos]
  refine ⟨hge.trans hlow, hhigh, hinner.imp ?_ ?_⟩
  · intro hclosed
    exact of_decide_eq_true hclosed
  · rintro ⟨hl, hh⟩
    exact ⟨hge.trans_lt hl, hh⟩

/-- No interval reaches below half of the smallest double. -/
theorem Contains.least_le (h : (Rounding.of mantissa exponent).Contains x)
    (hs : Binary64.Scaled mantissa exponent) : (2 : ℚ) ^ (-1075 : Int) ≤ x := by
  have hone : (1 : ℚ) ≤ mantissa := by exact_mod_cast hs.pos
  have hhalf : (1 / 2 : ℚ) ≤ x / 2 ^ exponent := by linarith [h.near.1]
  have hleast := hs.least
  calc (2 : ℚ) ^ (-1075 : Int) ≤ 2 ^ (exponent - 1) :=
        zpow_le_zpow_right₀ one_le_two (by omega)
    _ = 1 / 2 * 2 ^ exponent := by rw [zpow_sub_one₀ two_ne_zero]; ring
    _ ≤ x := (le_div_iff₀ (zpow_pos two_pos _)).1 hhalf

/-- Below a power of two it is at most a quarter away. -/
theorem Contains.near_power (h : (Rounding.of (2 ^ 52) exponent).Contains x)
    (he : -1074 < exponent) : (2 ^ 52 : ℚ) - 1 / 4 ≤ x / 2 ^ exponent := by
  have hlow := h.low_le
  have hpos : (0 : ℚ) < 2 ^ exponent := zpow_pos two_pos _
  rw [scale_of, low_of_power he] at hlow
  rw [le_div_iff₀ hpos]
  push_cast at hlow
  linarith

end Contains

end Decimal.Rounding

namespace Binary64

section Round
variable {sign : Sign} {q : Nat} {t : Int} {accuracy : Accuracy} {x : ℚ} {mantissa : Nat}
  {exponent : Int}

theorem targetExponent_binary64 (place : Int) :
    Format.binary64.targetExponent place = max (place - 53) (-1074) := rfl

/-- Shifting to the place wanted keeps what the mantissa stands for. -/
theorem shiftToTargetExponent_stands
    (hs : Stands (ExtendedMantissa.ofMantissaAndAccuracy q accuracy) (x / 2 ^ t)) {place : Int}
    (hp : Format.binary64.targetExponent (totalExponent q t) = place) (ht : t ≤ place) :
    ∃ em, shiftToTargetExponent Format.binary64 q t accuracy = (em, place) ∧
      Stands em (x / 2 ^ place) := by
  obtain ⟨n, rfl⟩ : ∃ n : Nat, place = t + n := ⟨(place - t).toNat, by omega⟩
  refine ⟨ExtendedMantissa.ofMantissaAndAccuracy q accuracy >>> n, ?_, ?_⟩
  · rw [shiftToTargetExponent, shiftToExponent, hp, add_sub_cancel_left, Int.toNat_natCast]
  · rw [zpow_add₀ two_ne_zero, zpow_natCast, ← div_div]
    exact hs.shiftRight n

theorem le_of_stands (hs : Stands (ExtendedMantissa.ofMantissaAndAccuracy q accuracy) (x / 2 ^ t))
    (hq : q ≠ 0) : (2 : ℚ) ^ (q.log2 + t) ≤ x := by
  have hle := hs.mantissa_le
  rw [mantissa_ofMantissaAndAccuracy, le_div_iff₀ (zpow_pos two_pos _)] at hle
  refine le_trans ?_ hle
  rw [zpow_add₀ two_ne_zero, zpow_natCast]
  have hlog : (2 ^ q.log2 : ℚ) ≤ q := by exact_mod_cast Nat.log2_self_le hq
  exact mul_le_mul_of_nonneg_right hlog (zpow_nonneg zero_le_two _)

theorem lt_of_stands (hs : Stands (ExtendedMantissa.ofMantissaAndAccuracy q accuracy) (x / 2 ^ t)) :
    x < (2 : ℚ) ^ (totalExponent q t) := by
  have hlt := hs.lt_mantissa
  rw [mantissa_ofMantissaAndAccuracy, div_lt_iff₀ (zpow_pos two_pos _)] at hlt
  refine hlt.trans_le ?_
  have hsum : totalExponent q t = (q.log2 + 1 : Nat) + t := rfl
  rw [hsum, zpow_add₀ two_ne_zero, zpow_natCast]
  have hlog : (q + 1 : ℚ) ≤ 2 ^ (q.log2 + 1) := by
    exact_mod_cast Nat.succ_le_of_lt Nat.lt_log2_self
  exact mul_le_mul_of_nonneg_right hlog (zpow_nonneg zero_le_two _)

/-- The number is below the power of two that the mantissa of its double stays below. -/
theorem log2_add_lt_of_contains
    (hs : Stands (ExtendedMantissa.ofMantissaAndAccuracy q accuracy) (x / 2 ^ t)) (hq : q ≠ 0)
    (hc : Scaled mantissa exponent) (hx : (Decimal.Rounding.of mantissa exponent).Contains x) :
    (q.log2 : Int) + t < 53 + exponent := by
  have hm : (mantissa + 1 / 2 : ℚ) < 2 ^ 53 := by
    have hsucc : (mantissa + 1 : ℚ) ≤ 2 ^ 53 := by exact_mod_cast hc.lt
    linarith
  have hlt : x < 2 ^ (53 + exponent) := by
    rw [zpow_add₀ two_ne_zero, ← div_lt_iff₀ (zpow_pos two_pos _)]
    exact hx.near.2.1.trans_lt hm
  exact (zpow_lt_zpow_iff_right₀ one_lt_two).1 ((le_of_stands hs hq).trans_lt hlt)

theorem lt_totalExponent_of_le
    (hs : Stands (ExtendedMantissa.ofMantissaAndAccuracy q accuracy) (x / 2 ^ t)) {place : Nat}
    (hplace : (2 ^ place : ℚ) ≤ x / 2 ^ exponent) : place + exponent < totalExponent q t := by
  rw [le_div_iff₀ (zpow_pos two_pos _), ← zpow_natCast, ← zpow_add₀ two_ne_zero] at hplace
  exact (zpow_lt_zpow_iff_right₀ one_lt_two).1 (hplace.trans_lt (lt_of_stands hs))

/-- The exponent is that of the double in whose interval the number lies, but just below a power of
two it may still be the one before. -/
theorem targetExponent_of_contains
    (hs : Stands (ExtendedMantissa.ofMantissaAndAccuracy q accuracy) (x / 2 ^ t))
    (ht : t ≤ Format.binary64.targetExponent (totalExponent q t))
    (hc : Scaled mantissa exponent) (hx : (Decimal.Rounding.of mantissa exponent).Contains x) :
    Format.binary64.targetExponent (totalExponent q t) = exponent ∨
      Format.binary64.targetExponent (totalExponent q t) = exponent - 1 ∧ mantissa = 2 ^ 52 ∧
        -1074 < exponent ∧ x < 2 ^ (52 + exponent) := by
  have hlt := lt_of_stands hs
  have hleast := hc.least
  have hle : Format.binary64.targetExponent (totalExponent q t) ≤ exponent := by
    rw [targetExponent_binary64, totalExponent] at ht ⊢
    rcases eq_or_ne q 0 with rfl | hq
    · rw [Nat.log2_zero] at ht ⊢
      omega
    · have hupper := log2_add_lt_of_contains hs hq hc hx
      omega
  rw [targetExponent_binary64] at ht hle ⊢
  -- there is nothing below the least exponent
  rcases hc.full.symm with rfl | hfull
  · exact .inl (by omega)
  rcases eq_or_lt_of_le hfull with rfl | hfull
  · rcases eq_or_lt_of_le hleast with rfl | hleast
    · exact .inl (by omega)
    -- the interval of a power of two reaches below it, where the exponent is one less
    have hpower : (2 ^ 51 : ℚ) ≤ x / 2 ^ exponent := by linarith [hx.near_power hleast]
    have hplace := lt_totalExponent_of_le hs hpower
    rcases eq_or_lt_of_le hle with he | hbefore
    · exact .inl he
    · refine .inr ⟨by omega, rfl, hleast, hlt.trans_le (zpow_le_zpow_right₀ one_le_two ?_)⟩
      omega
  · have hpower : (2 ^ 52 : ℚ) ≤ x / 2 ^ exponent := by
      have hsucc : (2 ^ 52 + 1 : ℚ) ≤ mantissa := by exact_mod_cast hfull
      linarith [hx.near.1]
    have hplace := lt_totalExponent_of_le hs hpower
    exact .inl (by omega)

theorem targetExponent_canonical (hc : Scaled mantissa exponent) :
    Format.binary64.targetExponent (totalExponent mantissa exponent) = exponent := by
  have hlog : mantissa.log2 < 53 := (Nat.log2_lt hc.pos.ne').2 hc.lt
  have hleast := hc.least
  rw [targetExponent_binary64, totalExponent]
  rcases hc.full with hfull | rfl
  · have : 52 ≤ mantissa.log2 := (Nat.le_log2 hc.pos.ne').2 hfull
    omega
  · omega

/-- After the mantissa has been rounded the places are put right once more, exactly. -/
theorem roundWithAccuracy_of_shift {em : ExtendedMantissa} {place : Int}
    (hshift : shiftToTargetExponent Format.binary64 q t accuracy = (em, place))
    (hplace : Format.binary64.targetExponent (totalExponent em.roundedMantissa place) = exponent)
    (hle : place ≤ exponent)
    (hvalue : (em.roundedMantissa * 2 ^ place : ℚ) = mantissa * 2 ^ exponent) (h : 0 < mantissa) :
    roundWithAccuracy Format.binary64 sign q t accuracy = .finite sign mantissa exponent h := by
  obtain ⟨em', hshift', hem'⟩ :=
    shiftToTargetExponent_stands (stands_exact em.roundedMantissa place) hplace hle
  rw [hvalue, mul_div_cancel_right₀ _ (zpow_ne_zero _ two_ne_zero)] at hem'
  obtain rfl : em'.mantissa = mantissa := by
    have hlt : mantissa < em'.mantissa + 1 := by exact_mod_cast hem'.lt_mantissa
    exact Nat.le_antisymm (by exact_mod_cast hem'.mantissa_le) (Nat.le_of_lt_succ hlt)
  rw [roundWithAccuracy, hshift]
  simp only [hshift']
  exact dif_neg h.ne'

/-- A number is rounded to the double in whose interval it lies. -/
theorem roundWithAccuracy_of_contains
    (hs : Stands (ExtendedMantissa.ofMantissaAndAccuracy q accuracy) (x / 2 ^ t))
    (ht : t ≤ Format.binary64.targetExponent (totalExponent q t))
    (hc : Scaled mantissa exponent) (hx : (Decimal.Rounding.of mantissa exponent).Contains x)
    (h : 0 < mantissa) :
    roundWithAccuracy Format.binary64 sign q t accuracy = .finite sign mantissa exponent h := by
  obtain ⟨hnear, hnear', hinner⟩ := hx.near
  obtain ⟨em, hshift, hem⟩ := shiftToTargetExponent_stands hs rfl ht
  rcases targetExponent_of_contains hs ht hc hx with hplace | ⟨hplace, rfl, he, hlt⟩
  · rw [hplace] at hshift hem
    have hround := hem.roundedMantissa hnear hnear' hinner
    refine roundWithAccuracy_of_shift hshift ?_ le_rfl ?_ h <;> rw [hround]
    exact targetExponent_canonical hc
  -- the mantissa has a place more, and is rounded up to the power of two
  · rw [hplace] at hshift hem
    have htwice : x / 2 ^ (exponent - 1) = 2 * (x / 2 ^ exponent) := by
      rw [zpow_sub_one₀ two_ne_zero]
      field_simp
    have hbelow : x / 2 ^ exponent < 2 ^ 52 := by
      rw [div_lt_iff₀ (zpow_pos two_pos _), ← zpow_natCast, ← zpow_add₀ two_ne_zero]
      exact hlt
    have hquarter := hx.near_power he
    have hround : em.roundedMantissa = 2 ^ 53 := by
      refine hem.roundedMantissa ?_ ?_ (.inl rfl) <;> rw [htwice] <;> push_cast <;> linarith
    refine roundWithAccuracy_of_shift hshift ?_ (by omega) ?_ h <;> rw [hround]
    · rw [targetExponent_binary64, totalExponent, Nat.log2_two_pow]
      omega
    · rw [zpow_sub_one₀ two_ne_zero]
      push_cast
      ring

/-- A number of at most half the smallest double is rounded to zero. -/
theorem roundWithAccuracy_of_le
    (hs : Stands (ExtendedMantissa.ofMantissaAndAccuracy q accuracy) (x / 2 ^ t))
    (ht : t ≤ Format.binary64.targetExponent (totalExponent q t)) (hx : x ≤ 2 ^ (-1075 : Int)) :
    roundWithAccuracy Format.binary64 sign q t accuracy = .zero sign := by
  have hplace : Format.binary64.targetExponent (totalExponent q t) = -1074 := by
    rw [targetExponent_binary64, totalExponent] at ht ⊢
    rcases eq_or_ne q 0 with rfl | hq
    · rw [Nat.log2_zero] at ht ⊢
      omega
    · have hlog := (zpow_le_zpow_iff_right₀ one_lt_two).1 ((le_of_stands hs hq).trans hx)
      omega
  obtain ⟨em, hshift, hem⟩ := shiftToTargetExponent_stands hs hplace (hplace ▸ ht)
  have hhalf : x / 2 ^ (-1074 : Int) ≤ 1 / 2 := by
    have hpower : (2 : ℚ) ^ (-1075 : Int) = 1 / 2 * 2 ^ (-1074 : Int) := by
      rw [show (-1075 : Int) = -1 + -1074 from rfl, zpow_add₀ two_ne_zero, zpow_neg_one, one_div]
    rw [div_le_iff₀ (zpow_pos two_pos _), ← hpower]
    exact hx
  have hnonneg : 0 ≤ x / 2 ^ (-1074 : Int) := (Nat.cast_nonneg _).trans hem.mantissa_le
  have hround : em.roundedMantissa = 0 := by
    refine hem.roundedMantissa (le_trans ?_ hnonneg) (hhalf.trans ?_) (.inl rfl) <;> norm_num
  -- nothing is left, and this is put right once more
  obtain ⟨em', hshift', hem'⟩ :=
    shiftToTargetExponent_stands (stands_exact 0 (-1074)) rfl (by decide)
  have hzero : em'.mantissa = 0 := by
    have hle := hem'.mantissa_le
    rw [Nat.cast_zero, zero_mul, zero_div] at hle
    exact Nat.le_zero.1 (by exact_mod_cast hle)
  rw [roundWithAccuracy, hshift]
  simp only [hround, hshift']
  exact dif_pos hzero

/-- The result is the number rounded, with the sign: no smallest and no greatest exponent keeps it
from the double in whose interval it lies, and zero is near to the smallest numbers only. -/
structure Rounds (sign : Sign) (x : ℚ) (f : UnpackedFloat) : Prop where
  of_le : x ≤ 2 ^ (-1075 : Int) → f = .zero sign
  of_contains {mantissa : Nat} {exponent : Int} : Scaled mantissa exponent →
    (Decimal.Rounding.of mantissa exponent).Contains x → ∀ h : 0 < mantissa,
      f = .finite sign mantissa exponent h

theorem rounds_zero (hx : x < 2 ^ (-1075 : Int)) : Rounds sign x (.zero sign) :=
  ⟨fun _ => rfl, fun hs hc _ => absurd (hc.least_le hs) hx.not_ge⟩

theorem rounds_roundWithAccuracy
    (hs : Stands (ExtendedMantissa.ofMantissaAndAccuracy q accuracy) (x / 2 ^ t))
    (ht : t ≤ Format.binary64.targetExponent (totalExponent q t)) :
    Rounds sign x (roundWithAccuracy Format.binary64 sign q t accuracy) :=
  ⟨roundWithAccuracy_of_le hs ht, roundWithAccuracy_of_contains hs ht⟩

end Round

end Binary64

end StackCalc
