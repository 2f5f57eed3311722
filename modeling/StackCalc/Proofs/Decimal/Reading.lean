import StackCalc.Proofs.Decimal.Rounding

/-!
The double that a decimal is read as: the one in whose interval the decimal lies, whether it is
found by a single division of doubles or with natural numbers of any size.
-/
namespace StackCalc.Binary64

open Float.Model (Format UnpackedFloat totalExponent)
open Float.Model.UnpackedFloat hiding pack unpack

section Quotient
variable {sign₁ sign₂ : Sign} {m₁ m₂ : Nat} {e₁ e₂ : Int}

/-- The quotient is worked out to enough places to be rounded. -/
theorem le_targetExponent_div (h₁ : 0 < m₁) (h₂ : 0 < m₂) {place : Int} (hle : place ≤ e₁ - e₂)
    (hplace : place ≤
      Format.binary64.targetExponent (totalExponent m₁ e₁ - totalExponent m₂ e₂)) :
    place ≤ Format.binary64.targetExponent
      (totalExponent (m₁ <<< (e₁ - e₂ - place).toNat / m₂) place) := by
  obtain ⟨shift, hshift⟩ : ∃ shift : Nat, e₁ - e₂ = place + shift :=
    ⟨(e₁ - e₂ - place).toNat, by omega⟩
  rw [hshift, add_sub_cancel_left, Int.toNat_natCast]
  rw [targetExponent_binary64] at hplace ⊢
  rw [totalExponent, totalExponent] at hplace
  rw [totalExponent]
  by_cases hleast : place ≤ -1074
  · omega
  -- the places put behind the dividend are enough for a full mantissa
  have hlog : m₂.log2 + 53 ≤ m₁.log2 + shift := by omega
  have hq : 2 ^ 52 ≤ m₁ <<< shift / m₂ := by
    rw [Nat.le_div_iff_mul_le h₂, Nat.shiftLeft_eq]
    calc 2 ^ 52 * m₂ ≤ 2 ^ 52 * 2 ^ (m₂.log2 + 1) :=
          Nat.mul_le_mul_left _ Nat.lt_log2_self.le
      _ = 2 ^ (m₂.log2 + 53) := by rw [← pow_add]; congr 1; omega
      _ ≤ 2 ^ (m₁.log2 + shift) := Nat.pow_le_pow_right Nat.two_pos hlog
      _ = 2 ^ m₁.log2 * 2 ^ shift := pow_add _ _ _
      _ ≤ m₁ * 2 ^ shift := Nat.mul_le_mul_right _ (Nat.log2_self_le h₁.ne')
  have : 52 ≤ (m₁ <<< shift / m₂).log2 :=
    (Nat.le_log2 (Nat.lt_of_lt_of_le (by decide) hq).ne').2 hq
  omega

theorem rounds_div (h₁ : 0 < m₁) (h₂ : 0 < m₂) :
    Rounds (sign₁ / sign₂) (m₁ * 2 ^ e₁ / (m₂ * 2 ^ e₂))
      (div Format.binary64 (.finite sign₁ m₁ e₁ h₁) (.finite sign₂ m₂ e₂ h₂)) := by
  obtain ⟨place, hplace⟩ : ∃ place, place = min (e₁ - e₂)
      (Format.binary64.targetExponent (totalExponent m₁ e₁ - totalExponent m₂ e₂)) := ⟨_, rfl⟩
  have hle : place ≤ e₁ - e₂ := by omega
  have htarget := le_targetExponent_div h₁ h₂ hle (by omega)
  have hs := stands_div (m₁ <<< (e₁ - e₂ - place).toNat) h₂
  have hvalue : ((m₁ <<< (e₁ - e₂ - place).toNat : Nat) / m₂ : ℚ) =
      m₁ * 2 ^ e₁ / (m₂ * 2 ^ e₂) / 2 ^ place := by
    obtain ⟨shift, hshift⟩ : ∃ shift : Nat, e₁ = place + shift + e₂ :=
      ⟨(e₁ - e₂ - place).toNat, by omega⟩
    have hsub : e₁ - e₂ - place = shift := by omega
    rw [hsub, Int.toNat_natCast, Nat.shiftLeft_eq, hshift, zpow_add₀ two_ne_zero,
      zpow_add₀ two_ne_zero, zpow_natCast]
    push_cast
    field_simp
  rw [hvalue] at hs
  rw [div, divCore]
  simp only
  rw [← hplace]
  exact rounds_roundWithAccuracy hs htarget

end Quotient

/-! Natural numbers as doubles. -/

section Natural
variable {n : Nat}

/-- A natural number of no more than 53 binary places, moved to the first of them. -/
theorem canonical_shiftLeft (h : 0 < n) (hn : n < 2 ^ 53) (place : Int) (hlow : -1022 ≤ place)
    (hhigh : place ≤ 971) :
    Canonical (n <<< (52 - n.log2)) (place - (52 - n.log2 : Nat)) := by
  have hlog : n.log2 < 53 := (Nat.log2_lt h.ne').2 hn
  have hlow : 2 ^ 52 ≤ n <<< (52 - n.log2) := by
    rw [Nat.shiftLeft_eq]
    calc 2 ^ 52 = 2 ^ n.log2 * 2 ^ (52 - n.log2) := by rw [← pow_add]; congr 1; omega
      _ ≤ n * 2 ^ (52 - n.log2) := Nat.mul_le_mul_right _ (Nat.log2_self_le h.ne')
  have hlt : n <<< (52 - n.log2) < 2 ^ 53 := by
    rw [Nat.shiftLeft_eq]
    calc n * 2 ^ (52 - n.log2) < 2 ^ (n.log2 + 1) * 2 ^ (52 - n.log2) :=
          Nat.mul_lt_mul_of_pos_right Nat.lt_log2_self (Nat.two_pow_pos _)
      _ = 2 ^ 53 := by rw [← pow_add]; congr 1; omega
  exact ⟨⟨by omega, hlt, by omega, .inl hlow⟩, by omega⟩

theorem shiftLeft_pos (h : 0 < n) (shift : Nat) : 0 < n <<< shift := by
  rw [Nat.shiftLeft_eq]
  exact Nat.mul_pos h (Nat.two_pow_pos _)

theorem shiftLeft_value (n shift : Nat) (place : Int) :
    ((n <<< shift : Nat) * 2 ^ (place - shift) : ℚ) = n * 2 ^ place := by
  rw [Nat.shiftLeft_eq, zpow_sub₀ two_ne_zero, zpow_natCast]
  push_cast
  field_simp

/-- The number `n * 2 ^ place` with a full mantissa. -/
def aligned (h : 0 < n) (place : Int) : UnpackedFloat :=
  .finite .positive (n <<< (52 - n.log2)) (place - (52 - n.log2 : Nat)) (shiftLeft_pos h _)

theorem unpack_ofModel_pack_aligned (h : 0 < n) (hn : n < 2 ^ 53) {place : Int}
    (hlow : -1022 ≤ place) (hhigh : place ≤ 971) :
    (Float.ofModel (.pack (aligned h place))).toModel.unpack = aligned h place :=
  unpack_ofModel_pack (canonical_shiftLeft h hn place hlow hhigh) _

theorem ofNat_of_lt (h : 0 < n) (hn : n < 2 ^ 53) :
    UnpackedFloat.ofNat Format.binary64 n = aligned h 0 := by
  have hlog : n.log2 < 53 := (Nat.log2_lt h.ne').2 hn
  have hcmp : compare (n : Int) 0 = .gt := Int.compare_eq_gt.2 (by omega)
  have hshift : (0 - Format.binary64.targetExponent (totalExponent n 0)).toNat = 52 - n.log2 := by
    rw [targetExponent_binary64, totalExponent]
    omega
  have hc := canonical_shiftLeft h hn 0 (by decide) (by decide)
  rw [UnpackedFloat.ofNat, UnpackedFloat.ofInt, UnpackedFloat.normalize, hcmp]
  simp only [Int.toNat_natCast]
  rw [UnpackedFloat.round, decreaseExponent, hshift]
  exact roundWithAccuracy_of_contains (stands_exact _ _)
    (targetExponent_canonical hc.toScaled).ge hc.toScaled
    (Decimal.Rounding.contains_self (shiftLeft_pos h _)) _

theorem toFloat_of_lt (h : 0 < n) (hn : n < 2 ^ 53) :
    n.toUInt64.toFloat = Float.ofModel (.pack (aligned h 0)) := by
  have hto : n.toUInt64.toNat = n := by
    rw [Nat.toUInt64_eq, UInt64.toNat_ofNat_of_lt']
    exact hn.trans (by decide)
  rw [← ofNat_of_lt h hn, UInt64.toFloat, Float.Model.ofUInt64, UnpackedFloat.ofUInt64, hto]

theorem five_pow_pos (places : Nat) : 0 < 5 ^ places :=
  Nat.pow_pos (by decide)

/-- The powers of ten that are doubles. -/
theorem exactlyRepresentablePowersOfTen_eq {places : Nat}
    (hp : places < Float.exactlyRepresentablePowersOfTen.size) :
    Float.exactlyRepresentablePowersOfTen[places] =
      Float.ofModel (.pack (aligned (five_pow_pos places) places)) := by
  have hall : ∀ k : Fin 23, Float.exactlyRepresentablePowersOfTen[k] =
      Float.ofModel (.pack (aligned (five_pow_pos k.val) k.val)) := by
    decide +kernel
  exact hall ⟨places, hp⟩

end Natural

/-! Decimals as doubles. -/

section Decimals
variable {n places : Nat}

/-- A single division of doubles is rounded once. -/
theorem rounds_toFloat_div (h : 0 < n) (hn : n < 2 ^ 53)
    (hp : places < Float.exactlyRepresentablePowersOfTen.size) :
    ∃ f, n.toUInt64.toFloat / Float.exactlyRepresentablePowersOfTen[places] =
        Float.ofModel (.pack f) ∧ Rounds .positive (n / 10 ^ places) f := by
  have hle : places ≤ 22 := Nat.le_of_lt_succ hp
  have hfive : 5 ^ places < 2 ^ 53 := (Nat.pow_le_pow_right (by decide) hle).trans_lt (by decide)
  have hvalue : (n / 10 ^ places : ℚ) =
      (n <<< (52 - n.log2) : Nat) * (2 : ℚ) ^ (0 - (52 - n.log2 : Nat) : Int) /
        ((5 ^ places <<< (52 - (5 ^ places).log2) : Nat) *
          (2 : ℚ) ^ (places - (52 - (5 ^ places).log2 : Nat) : Int)) := by
    rw [shiftLeft_value, shiftLeft_value, zpow_zero, zpow_natCast, mul_one]
    push_cast
    rw [← mul_pow]
    norm_num
  rw [toFloat_of_lt h hn, exactlyRepresentablePowersOfTen_eq, hvalue]
  refine ⟨UnpackedFloat.div Format.binary64 _ _, rfl, ?_⟩
  rw [unpack_ofModel_pack_aligned h hn (by decide) (by decide),
    unpack_ofModel_pack_aligned _ hfive (by omega) (by omega), aligned, aligned]
  exact (rounds_div _ _ : Rounds (Sign.positive / Sign.positive) _ _)

theorem toFloat_div_zero (hp : places < Float.exactlyRepresentablePowersOfTen.size) :
    (0 : Nat).toUInt64.toFloat / Float.exactlyRepresentablePowersOfTen[places] =
      Float.ofModel (.pack (.zero .positive)) := by
  have hall : ∀ k : Fin 23, (0 : Nat).toUInt64.toFloat / Float.exactlyRepresentablePowersOfTen[k] =
      Float.ofModel (.pack (.zero .positive)) := by
    decide +kernel
  exact hall ⟨places, hp⟩

/-- A whole number that need not be divided. -/
theorem rounds_ofScientific_whole (h : 0 < n) :
    Rounds .positive n (UnpackedFloat.ofScientific Format.binary64 n 0) := by
  have hbits : (2 ^ Format.binary64.exponentBits : Int) = 2048 := rfl
  have hq : 2 ^ 53 ≤ n <<< 53 := by
    rw [Nat.shiftLeft_eq]
    exact Nat.le_mul_of_pos_left _ h
  have htarget : -53 ≤ Format.binary64.targetExponent (totalExponent (n <<< 53) (-53)) := by
    have hlog : 53 ≤ (n <<< 53).log2 := (Nat.le_log2 (by omega)).2 hq
    rw [targetExponent_binary64, totalExponent]
    omega
  have hvalue : (n : ℚ) = (n <<< 53 : Nat) * 2 ^ (-53 : Int) := by
    rw [Nat.shiftLeft_eq]
    push_cast
    ring
  have hmul : UnpackedFloat.ofScientific Format.binary64 n 0 =
      roundWithAccuracy Format.binary64 .positive (n <<< 53 * 1) (-53) .exact := by
    rw [UnpackedFloat.ofScientific, dif_neg h.ne', if_neg (by decide), if_neg (by omega),
      if_pos le_rfl]
    rfl
  rw [hmul, mul_one, hvalue]
  exact rounds_roundWithAccuracy (stands_exact _ _) htarget

theorem div_ten_pow_lt {k : Nat} (hp : k + n.log2 < places) :
    (n / 10 ^ places : ℚ) < 2 ^ (-k : Int) := by
  have hten : n * 2 ^ k < 10 ^ places := by
    calc n * 2 ^ k < 2 ^ (n.log2 + 1) * 2 ^ k :=
          Nat.mul_lt_mul_of_pos_right Nat.lt_log2_self (Nat.two_pow_pos _)
      _ = 2 ^ (n.log2 + 1 + k) := (pow_add _ _ _).symm
      _ ≤ 2 ^ places := Nat.pow_le_pow_right Nat.two_pos (by omega)
      _ ≤ 10 ^ places := Nat.pow_le_pow_left (by decide) _
  rw [zpow_neg, zpow_natCast, div_lt_iff₀ (by positivity), ← div_eq_inv_mul,
    lt_div_iff₀ (by positivity)]
  exact_mod_cast hten

theorem rounds_ofScientific (h : 0 < n) :
    Rounds .positive (n / 10 ^ places)
      (UnpackedFloat.ofScientific Format.binary64 n (-places)) := by
  rcases Nat.eq_zero_or_pos places with rfl | hpos
  · rw [pow_zero, div_one]
    exact rounds_ofScientific_whole h
  have hbits : (2 ^ Format.binary64.exponentBits : Int) = 2048 := rfl
  rw [UnpackedFloat.ofScientific, dif_neg h.ne', if_neg (by omega)]
  by_cases hp : 2048 + n.log2 < places
  · rw [if_pos (by omega)]
    exact rounds_zero ((div_ten_pow_lt hp).trans (zpow_lt_zpow_right₀ one_lt_two (by decide)))
  · have hvalue : (n / 10 ^ places : ℚ) =
        n * 2 ^ (0 : Int) / ((10 ^ (- -(places : Int)).toNat : Nat) * 2 ^ (0 : Int)) := by
      rw [neg_neg, Int.toNat_natCast, zpow_zero, mul_one, mul_one]
      push_cast
      rfl
    rw [if_neg (by omega), if_neg (by omega), hvalue]
    exact (rounds_div _ _ : Rounds (Sign.positive / Sign.positive) _ _)

/-- A decimal is read as it is rounded. -/
theorem rounds_floatOfScientific (n places : Nat) :
    ∃ f, Float.ofScientific n true places = Float.ofModel (.pack f) ∧
      Rounds .positive (n / 10 ^ places) f := by
  rw [Float.ofScientific]
  rcases Nat.eq_zero_or_pos n with rfl | h
  · have hzero : Rounds .positive ((0 : Nat) / 10 ^ places) (.zero .positive) := by
      rw [Nat.cast_zero, zero_div]
      exact rounds_zero (zpow_pos two_pos _)
    refine ⟨_, ?_, hzero⟩
    split
    next hsmall => exact toFloat_div_zero (Nat.lt_succ_of_le hsmall.2)
    next => rfl
  · split
    next hsmall => exact rounds_toFloat_div h hsmall.1 (Nat.lt_succ_of_le hsmall.2)
    next => exact ⟨_, rfl, Int.negOfNat_eq ▸ rounds_ofScientific h⟩

end Decimals

end StackCalc.Binary64
