import StackCalc.Proofs.Decimal.Rounding

/-!
The decimal that is found for a double lies in the interval of the numbers that are rounded to it.
-/
namespace StackCalc.Decimal

open Binary64

def value (d : Decimal) : ℚ :=
  d.digits * 10 ^ d.exponent

namespace Rounding

section Grid
variable (r : Rounding) (place : Int)

theorem zpow_mul_pow_toNat_neg {b : ℚ} (hb : b ≠ 0) (p : Int) :
    b ^ (-p).toNat * b ^ p = b ^ p.toNat := by
  rw [← zpow_natCast, ← zpow_natCast, ← zpow_add₀ hb]
  congr 1
  omega

/-- The grid measures both the places of the double and the decimal place in the same unit. -/
theorem exists_unit : ∃ unit : ℚ, 0 < unit ∧
    (r.onGrid place).1.low = unit * (r.low * 2 ^ r.scale) ∧
    (r.onGrid place).1.centre = unit * (r.centre * 2 ^ r.scale) ∧
    (r.onGrid place).1.high = unit * (r.high * 2 ^ r.scale) ∧
    (r.onGrid place).2 = unit * 10 ^ place := by
  have hten := zpow_mul_pow_toNat_neg (b := 10) (by norm_num) place
  have htwo := zpow_mul_pow_toNat_neg (b := 2) (by norm_num) r.scale
  refine ⟨10 ^ (-place).toNat * 2 ^ (-r.scale).toNat, by positivity, ?_⟩
  rw [onGrid]
  simp only [Nat.shiftLeft_eq, Nat.pow_eq]
  push_cast
  rw [← hten, ← htwo]
  refine ⟨?_, ?_, ?_, ?_⟩ <;> ring

/-- A multiple of the decimal place lies in the interval if it does so on the grid. -/
theorem contains_of_holds {n : Nat}
    (h : (r.onGrid place).1.holds (n * (r.onGrid place).2) = true) :
    r.Contains (n * 10 ^ place) := by
  obtain ⟨unit, hpos, hlow, -, hhigh, hstep⟩ := r.exists_unit place
  have hn : ((n * (r.onGrid place).2 : Nat) : ℚ) = unit * (n * 10 ^ place) := by
    rw [Nat.cast_mul, hstep]
    ring
  have hclosed : (r.onGrid place).1.closed = r.closed := rfl
  rw [holds] at h
  split at h
  next hc =>
    rw [Bool.and_eq_true, decide_eq_true_eq, decide_eq_true_eq, ← @Nat.cast_le ℚ,
      ← @Nat.cast_le ℚ, hn, hlow, hhigh, mul_le_mul_iff_right₀ hpos,
      mul_le_mul_iff_right₀ hpos] at h
    exact ⟨h.1, h.2, .inl (hclosed ▸ hc)⟩
  next =>
    rw [Bool.and_eq_true, decide_eq_true_eq, decide_eq_true_eq, ← @Nat.cast_lt ℚ,
      ← @Nat.cast_lt ℚ, hn, hlow, hhigh, mul_lt_mul_iff_right₀ hpos,
      mul_lt_mul_iff_right₀ hpos] at h
    exact ⟨h.1.le, h.2.le, .inr h⟩

theorem contains_of_onPlace? {d : Decimal} (h : r.onPlace? place = some d) :
    r.Contains d.value := by
  rw [onPlace?] at h
  simp only at h
  split at h
  next hbelow habove =>
    cases h
    rw [value]
    simp only
    split
    · exact r.contains_of_holds place habove
    · exact r.contains_of_holds place hbelow
  next hbelow _ =>
    cases h
    exact r.contains_of_holds place hbelow
  next _ habove =>
    cases h
    exact r.contains_of_holds place habove
  next => cases h

/-- There is a hit on a place that is small enough: the multiple above the centre is still below the
upper end. -/
theorem isSome_onPlace? (hlow : r.low ≤ r.centre)
    (hhigh : r.centre * 2 ^ r.scale + 10 ^ place < (r.high * 2 ^ r.scale : ℚ)) :
    (r.onPlace? place).isSome = true := by
  obtain ⟨unit, hpos, hl, hc, hh, hs⟩ := r.exists_unit place
  have hgridLow : (r.onGrid place).1.low ≤ (r.onGrid place).1.centre := Nat.mul_le_mul_right _ hlow
  have hgridHigh : (r.onGrid place).1.centre + (r.onGrid place).2 < (r.onGrid place).1.high := by
    rw [← @Nat.cast_lt ℚ, Nat.cast_add, hc, hs, hh, ← mul_add]
    exact mul_lt_mul_of_pos_left hhigh hpos
  have hgridStep : 0 < (r.onGrid place).2 := by
    rw [← @Nat.cast_pos ℚ, hs]
    positivity
  have habove : (r.onGrid place).1.holds
      (((r.onGrid place).1.centre / (r.onGrid place).2 + 1) * (r.onGrid place).2) = true := by
    have hlt := Nat.lt_div_mul_add hgridStep (a := (r.onGrid place).1.centre)
    have hle := Nat.div_mul_le_self (r.onGrid place).1.centre (r.onGrid place).2
    rw [holds, Nat.succ_mul]
    split <;> rw [Bool.and_eq_true, decide_eq_true_eq, decide_eq_true_eq] <;> omega
  rw [onPlace?]
  simp only
  rw [habove]
  cases (r.onGrid place).1.holds
      ((r.onGrid place).1.centre / (r.onGrid place).2 * (r.onGrid place).2) <;> rfl

end Grid

section Search
variable {mantissa : Nat} {exponent : Int}

/-- For a double such a place is less than a half of its last one. -/
theorem isSome_onPlace?_of (h : 0 < mantissa) {place : Int}
    (hplace : (10 : ℚ) ^ place < 2 ^ (exponent - 1)) :
    ((Rounding.of mantissa exponent).onPlace? place).isSome = true := by
  refine isSome_onPlace? _ place ?_ ?_
  · exact_mod_cast (low_of_lt exponent h).le
  · have hhalf : (2 : ℚ) ^ (exponent - 1) = 2 * (2 ^ exponent / 4) := by
      rw [zpow_sub_one₀ two_ne_zero]
      ring
    have hcentre : ((Rounding.of mantissa exponent).centre : ℚ) = 4 * mantissa := by
      exact Nat.cast_mul 4 mantissa
    rw [hhalf] at hplace
    rw [scale_of, high_of, hcentre]
    linarith

/-- The search ends with a hit if the last place is small enough. -/
theorem contains_firstHit (h : 0 < mantissa) (count : Nat) (place : Int)
    (hlast : (10 : ℚ) ^ (place - count) < 2 ^ (exponent - 1)) :
    (Rounding.of mantissa exponent).Contains
      ((Rounding.of mantissa exponent).firstHit count place).value := by
  -- on the places left: each hit will do, and on the last place there is one
  induction count generalizing place with
  | zero =>
    rw [Nat.cast_zero, sub_zero] at hlast
    obtain ⟨d, hd⟩ := Option.isSome_iff_exists.1 (isSome_onPlace?_of h hlast)
    rw [firstHit, hd]
    exact contains_of_onPlace? _ _ hd
  | succ count ih =>
    rw [firstHit]
    cases hd : (Rounding.of mantissa exponent).onPlace? place with
    | some d => exact contains_of_onPlace? _ _ hd
    | none =>
      have hplace : place - (count + 1 : Nat) = place - 1 - count := by omega
      rw [hplace] at hlast
      exact ih (place - 1) hlast

end Search

end Rounding

/-! The place at which the search starts. -/

theorem ten_pow_le_two_pow {n q : Nat} (h : 10 * n ≤ 3 * q) : 10 ^ n ≤ 2 ^ q := by
  refine (Nat.pow_le_pow_iff_left (n := 3) (by decide)).1 ?_
  calc (10 ^ n) ^ 3 = (10 ^ 3) ^ n := by rw [← pow_mul, ← pow_mul, Nat.mul_comm]
    _ ≤ (2 ^ 10) ^ n := Nat.pow_le_pow_left (by decide) n
    _ = 2 ^ (10 * n) := (pow_mul _ _ _).symm
    _ ≤ 2 ^ (3 * q) := Nat.pow_le_pow_right Nat.two_pos h
    _ = (2 ^ q) ^ 3 := by rw [← pow_mul, Nat.mul_comm]

theorem two_pow_le_ten_pow {n q : Nat} (h : 28 * q ≤ 93 * n) : 2 ^ q ≤ 10 ^ n := by
  refine (Nat.pow_le_pow_iff_left (n := 28) (by decide)).1 ?_
  calc (2 ^ q) ^ 28 = 2 ^ (28 * q) := by rw [← pow_mul, Nat.mul_comm]
    _ ≤ 2 ^ (93 * n) := Nat.pow_le_pow_right Nat.two_pos h
    _ = (2 ^ 93) ^ n := pow_mul _ _ _
    _ ≤ (10 ^ 28) ^ n := Nat.pow_le_pow_left (by decide) n
    _ = (10 ^ n) ^ 28 := by rw [← pow_mul, ← pow_mul, Nat.mul_comm]

section Start
variable {mantissa : Nat} {exponent : Int}

/-- The last place that is searched is less than half of the last place of the double. -/
theorem ten_zpow_placeAbove_lt (hc : Canonical mantissa exponent) :
    (10 : ℚ) ^ (placeAbove mantissa exponent - 19) < 2 ^ (exponent - 1) := by
  have hlog : mantissa.log2 < 53 := (Nat.log2_lt hc.pos.ne').2 hc.lt
  have hleast := hc.least
  have hgreatest := hc.greatest
  obtain ⟨place, hplace⟩ : ∃ place, place = placeAbove mantissa exponent - 19 := ⟨_, rfl⟩
  have hbound : 100000 * (place + 18) ≤ (exponent + 53) * 30103 := by
    rw [hplace, placeAbove]
    omega
  rw [← hplace]
  have hlt : (2 : ℚ) ^ (exponent - 2) < 2 ^ (exponent - 1) :=
    zpow_lt_zpow_right₀ one_lt_two (by omega)
  refine lt_of_le_of_lt ?_ hlt
  -- the powers are compared by 10 ^ 3 < 2 ^ 10 above the point and by 2 ^ 93 < 10 ^ 28 below it
  rcases le_total 0 place with hsign | hsign
  · obtain ⟨n, rfl⟩ := Int.eq_ofNat_of_zero_le hsign
    obtain ⟨q, hq⟩ := Int.eq_ofNat_of_zero_le (a := exponent - 2) (by omega)
    rw [hq, zpow_natCast, zpow_natCast]
    exact_mod_cast ten_pow_le_two_pow (by omega)
  · obtain ⟨n, hn⟩ := Int.eq_ofNat_of_zero_le (Int.neg_nonneg_of_nonpos hsign)
    obtain rfl : place = -n := by omega
    have hpow : (2 : ℚ) ^ (2 - exponent).toNat ≤ 10 ^ n := by
      exact_mod_cast two_pow_le_ten_pow (by omega)
    calc (10 : ℚ) ^ (-n : Int) = (10 ^ n)⁻¹ := by rw [zpow_neg, zpow_natCast]
      _ ≤ (2 ^ (2 - exponent).toNat)⁻¹ := inv_anti₀ (by positivity) hpow
      _ = 2 ^ (-(2 - exponent).toNat : Int) := by rw [zpow_neg, zpow_natCast]
      _ ≤ 2 ^ (exponent - 2) := zpow_le_zpow_right₀ one_le_two (by omega)

/-- The double is the nearest to its shortest decimal. -/
theorem contains_shortest (hc : Canonical mantissa exponent) :
    (Rounding.of mantissa exponent).Contains (shortest mantissa exponent).value :=
  Rounding.contains_firstHit hc.pos 19 (placeAbove mantissa exponent) (ten_zpow_placeAbove_lt hc)

end Start

end StackCalc.Decimal
