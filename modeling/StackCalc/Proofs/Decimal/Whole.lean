import StackCalc.Proofs.Decimal.Signs

/-!
Doubles that are whole numbers. Of no more than 53 binary places they are all doubles, so that sums
and differences which stay there are not rounded; and but for the sign of zero each is one double.
-/
namespace StackCalc.Binary64

open Float.Model (Format UnpackedFloat)
open Float.Model.UnpackedFloat hiding pack unpack

/-- The double is finite, and it is this whole number. -/
structure IsWhole (x : Float) (n : Int) : Prop where
  finite : x.isFinite = true
  number_eq : number x = n

/-- The double is one of the two zeros, or it has a mantissa and an exponent. -/
theorem IsWhole.cases {x : Float} {n : Int} (h : IsWhole x n) :
    (n = 0 ∧ ∃ sign, x.toModel.unpack = .zero sign) ∨
    ∃ sign m e, ∃ hc : Canonical m e, x.toModel.unpack = .finite sign m e hc.pos ∧
      x = Float.ofModel (.pack (.finite sign m e hc.pos)) ∧ signed sign (m * 2 ^ e) = n := by
  have hn := h.number_eq
  obtain ⟨sign, ⟨hu, -⟩ | ⟨m, e, hm, hu, hc, hx⟩⟩ := unpack_of_isFinite h.finite
  · have hzero : (0 : ℚ) = n := by rw [← hn, number, hu]
    exact .inl ⟨by exact_mod_cast hzero.symm, sign, hu⟩
  · rw [number, hu] at hn
    exact .inr ⟨sign, m, e, hc, hu, hx.symm, hn⟩

theorem isWhole_of_zero {x : Float} {sign : Sign} (h : x.toModel.unpack = .zero sign) :
    IsWhole x 0 := by
  refine ⟨congrArg UnpackedFloat.isFinite h, ?_⟩
  rw [number, h, Int.cast_zero]

theorem IsWhole.neg {x : Float} {n : Int} (h : IsWhole x n) : IsWhole (-x) (-n) := by
  refine ⟨(isFinite_neg x).trans h.finite, ?_⟩
  rw [number_neg, h.number_eq, Int.cast_neg]

/-! Integers by sign and magnitude. -/

section Magnitude
variable {sign sign' : Sign} {a b : ℚ}

theorem exists_apply {n : Int} (h : n ≠ 0) :
    ∃ (sign : Sign) (k : Nat), 0 < k ∧ n = sign.apply k := by
  rcases lt_or_gt_of_ne h with hn | hn
  · exact ⟨.negative, (-n).toNat, by omega, by simp only [Sign.apply]; omega⟩
  · exact ⟨.positive, n.toNat, by omega, by simp only [Sign.apply]; omega⟩

theorem natAbs_apply (sign : Sign) (k : Nat) : (sign.apply k).natAbs = k := by
  cases sign
  · exact Int.natAbs_neg k
  · rfl

theorem apply_neg (sign : Sign) (n : Int) : (-sign).apply n = -sign.apply n := by
  cases sign
  · exact (neg_neg n).symm
  · rfl

theorem cast_apply_mul (sign : Sign) (n : Int) (a : ℚ) :
    (sign.apply n * a : ℚ) = signed sign (n * a) := by
  cases sign
  · rw [Sign.apply, signed, Int.cast_neg, neg_mul]
  · rfl

theorem cast_apply (sign : Sign) (n : Int) : (sign.apply n : ℚ) = signed sign n := by
  have h := cast_apply_mul sign n 1
  rwa [mul_one, mul_one] at h

theorem signed_inj (ha : 0 < a) (hb : 0 < b) (h : signed sign a = signed sign' b) :
    sign = sign' ∧ a = b := by
  cases sign <;> cases sign' <;> simp only [signed] at h
  · exact ⟨rfl, neg_injective h⟩
  · linarith
  · linarith
  · exact ⟨rfl, h⟩

end Magnitude

/-! What is rounded to a whole number. -/

section Rounded
variable {x y : Float} {sign : Sign} {n : Nat} {m place : Int} {f : UnpackedFloat}

theorem exists_canonical (h : 0 < n) (hn : n ≤ 2 ^ 53) :
    ∃ m e, Canonical m e ∧ (m * 2 ^ e : ℚ) = n := by
  rcases hn.lt_or_eq with hlt | rfl
  · refine ⟨_, _, canonical_shiftLeft h hlt 0 (by decide) (by decide), ?_⟩
    rw [shiftLeft_value, zpow_zero, mul_one]
  · exact ⟨2 ^ 52, 1, ⟨⟨by decide, by decide, by decide, .inl le_rfl⟩, by decide⟩, by norm_num⟩

theorem Rounds.isWhole (hr : Rounds sign n f) (h : 0 < n) (hn : n ≤ 2 ^ 53) :
    IsWhole (Float.ofModel (.pack f)) (sign.apply n) := by
  obtain ⟨m, e, hc, hvalue⟩ := exists_canonical h hn
  have hcontains : (Decimal.Rounding.of m e).Contains (n : ℚ) :=
    hvalue ▸ Decimal.Rounding.contains_self hc.pos
  have hu : (Float.ofModel (.pack (.finite sign m e hc.pos))).toModel.unpack = _ :=
    unpack_ofModel_pack hc hc.pos
  rw [hr.of_contains hc.toScaled hcontains hc.pos]
  refine ⟨congrArg UnpackedFloat.isFinite hu, ?_⟩
  rw [number, hu, cast_apply]
  exact congrArg (signed sign) hvalue

/-- No other double than the one that the number is rounded to is the number. -/
theorem IsWhole.eq_of_rounds (hx : IsWhole x (sign.apply n)) (hr : Rounds sign n f) (h : 0 < n) :
    x = Float.ofModel (.pack f) := by
  obtain ⟨hzero, -⟩ | ⟨sign', m, e, hc, -, rfl, hn⟩ := hx.cases
  · rw [← natAbs_apply sign n, hzero] at h
    exact absurd h (Nat.lt_irrefl 0)
  · have hm : (0 : ℚ) < m * 2 ^ e := mul_pos (by exact_mod_cast hc.pos) (zpow_pos two_pos e)
    rw [cast_apply, Int.cast_natCast] at hn
    obtain ⟨rfl, hvalue⟩ := signed_inj hm (by exact_mod_cast h) hn
    have hcontains : (Decimal.Rounding.of m e).Contains (n : ℚ) :=
      hvalue ▸ Decimal.Rounding.contains_self hc.pos
    rw [hr.of_contains hc.toScaled hcontains hc.pos]

/-- But for the sign of zero a whole number is one double. -/
theorem IsWhole.eq (hx : IsWhole x m) (hy : IsWhole y m) (hm : m ≠ 0) : x = y := by
  obtain ⟨sign, n, hn, rfl⟩ := exists_apply hm
  have hr : Rounds sign (n * 2 ^ (0 : Int)) _ := rounds_round hn
  rw [zpow_zero, mul_one] at hr
  exact (hx.eq_of_rounds hr hn).trans (hy.eq_of_rounds hr hn).symm

theorem normalize_apply (h : 0 < n) (sign zeroSign : Sign) (place : Int) :
    UnpackedFloat.normalize Format.binary64 (sign.apply n) place zeroSign =
      UnpackedFloat.round Format.binary64 sign n place := by
  cases sign
  · have hcmp : compare (Sign.negative.apply n) 0 = .lt :=
      Int.compare_eq_lt.2 (by simp only [Sign.apply]; omega)
    rw [UnpackedFloat.normalize, hcmp, Sign.apply, neg_neg]
    rfl
  · have hcmp : compare (Sign.positive.apply n) 0 = .gt :=
      Int.compare_eq_gt.2 (by simp only [Sign.apply]; omega)
    rw [UnpackedFloat.normalize, hcmp]
    rfl

/-- A whole number in units of some place is not rounded, if it has few enough places. -/
theorem isWhole_normalize {k : Int} (h : (k * 2 ^ place : ℚ) = m) (hm : m.natAbs ≤ 2 ^ 53)
    (zeroSign : Sign) : IsWhole
      (Float.ofModel (.pack (UnpackedFloat.normalize Format.binary64 k place zeroSign))) m := by
  have hunit : (0 : ℚ) < 2 ^ place := zpow_pos two_pos place
  rcases eq_or_ne k 0 with rfl | hk
  · rw [Int.cast_zero, zero_mul] at h
    obtain rfl : m = 0 := by exact_mod_cast h.symm
    exact isWhole_of_zero (unpack_zero zeroSign)
  have hne : m ≠ 0 := by
    have hcast : (m : ℚ) ≠ 0 := h ▸ mul_ne_zero (by exact_mod_cast hk) hunit.ne'
    exact_mod_cast hcast
  -- signs and magnitudes are compared apart
  obtain ⟨sign, q, hq, rfl⟩ := exists_apply hk
  obtain ⟨sign', n, hn, rfl⟩ := exists_apply hne
  have hmagnitude : (0 : ℚ) < (q : Int) * 2 ^ place := mul_pos (by exact_mod_cast hq) hunit
  rw [cast_apply_mul, cast_apply] at h
  obtain ⟨rfl, hvalue⟩ := signed_inj hmagnitude (by exact_mod_cast hn) h
  have hr : Rounds sign (q * 2 ^ place) _ := rounds_round hq
  push_cast at hvalue
  rw [normalize_apply hq]
  rw [natAbs_apply] at hm
  exact Rounds.isWhole (hvalue ▸ hr) hn hm

end Rounded

/-! Natural numbers and integers as doubles. -/

section Natural
variable {n : Nat}

theorem rounds_floatOfNat (h : 0 < n) :
    ∃ f, Float.ofNat n = Float.ofModel (.pack f) ∧ Rounds .positive n f := by
  change ∃ f, Float.ofScientific n false 0 = _ ∧ _
  rw [Float.ofScientific]
  split
  next hsmall =>
    have hone := five_pow_pos 0
    have hn := canonical_shiftLeft h hsmall.1 0 (by decide) (by decide)
    have hc := canonical_shiftLeft hone (by decide) 0 (by decide) (by decide)
    have hvalue : (n : ℚ) =
        (n <<< (52 - n.log2) : Nat) * (2 : ℚ) ^ (0 - (52 - n.log2 : Nat) : Int) *
          ((5 ^ 0 <<< (52 - (5 ^ 0).log2) : Nat) *
            (2 : ℚ) ^ (0 - (52 - (5 ^ 0).log2 : Nat) : Int)) := by
      rw [shiftLeft_value, shiftLeft_value]
      norm_num
    rw [toFloat_of_lt h hsmall.1, if_neg Bool.false_ne_true]
    rw [exactlyRepresentablePowersOfTen_eq, mul_eq,
      unpack_ofModel_pack_aligned h hsmall.1 (by decide) (by decide),
      unpack_ofModel_pack_aligned hone (by decide) (by decide) (by decide)]
    refine ⟨_, rfl, ?_⟩
    rw [hvalue]
    exact (rounds_mul hn.toScaled hc.toScaled : Rounds (Sign.positive * Sign.positive) _ _)
  next => exact ⟨_, rfl, rounds_ofScientific_whole h⟩

theorem isWhole_ofNat (hn : n ≤ 2 ^ 53) : IsWhole (Float.ofNat n) n := by
  rcases Nat.eq_zero_or_pos n with rfl | h
  · exact isWhole_of_zero unpack_literal_zero
  · obtain ⟨f, hf, hr⟩ := rounds_floatOfNat h
    rw [hf]
    exact hr.isWhole h hn

theorem isWhole_ofInt {n : Int} (hn : n.natAbs ≤ 2 ^ 53) : IsWhole (Float.ofInt n) n := by
  cases n with
  | ofNat n => exact isWhole_ofNat hn
  | negSucc n => exact (isWhole_ofNat hn).neg

/-- A count other than zero is not rounded to zero. -/
theorem ofNat_beq_zero (h : 0 < n) : (Float.ofNat n == 0) = false := by
  obtain ⟨f, hf, hr⟩ := rounds_floatOfNat h
  have hvalue := lt_value h (show (-1074 : Int) ≤ 0 by decide)
  rw [zpow_zero, mul_one] at hvalue
  have hne := bne_zero (Float.ofNat n)
  rw [hf, hr.side?_eq hvalue] at hne
  rw [hf]
  exact (Bool.not_eq_true' _).mp hne

end Natural

/-! Sums and differences. -/

section Sums
variable {x y : Float} {m n : Int}

theorem sub_eq_add_neg (x y : Float) : x - y = x + -y := by
  rw [add_eq, unpack_neg]
  change Float.ofModel (.pack (UnpackedFloat.sub Format.binary64 _ _)) = _
  congr 2
  cases x.toModel.unpack <;> cases y.toModel.unpack <;>
    simp only [UnpackedFloat.sub, UnpackedFloat.add, UnpackedFloat.neg, apply_neg,
      Int.sub_eq_add_neg]

/-- In units of a lower place the mantissa has more places, and the number is the same. -/
theorem cast_apply_shiftLeft (sign : Sign) (q : Nat) {e place : Int} (h : place ≤ e) :
    (sign.apply (q <<< (e - place).toNat : Nat) * 2 ^ place : ℚ) = signed sign (q * 2 ^ e) := by
  obtain ⟨shift, rfl⟩ : ∃ shift : Nat, place = e - shift := ⟨(e - place).toNat, by omega⟩
  rw [Int.sub_sub_self, Int.toNat_natCast, cast_apply_mul, Int.cast_natCast, shiftLeft_value]

theorem IsWhole.add (hx : IsWhole x m) (hy : IsWhole y n) (h : (m + n).natAbs ≤ 2 ^ 53) :
    IsWhole (x + y) (m + n) := by
  rcases hx.cases with ⟨rfl, sign, hxu⟩ | ⟨sign, q, e, hc, hxu, -, hm⟩ <;>
    rcases hy.cases with ⟨rfl, sign', hyu⟩ | ⟨sign', q', e', hc', hyu, -, hn⟩
  · rw [add_eq, hxu, hyu]
    cases sign <;> cases sign' <;> exact isWhole_of_zero (unpack_zero _)
  · have hside : side? y = some sign' := by rw [side?, hyu]
    rwa [add_eq_of_zero_left hxu hside, zero_add]
  · have hside : side? x = some sign := by rw [side?, hxu]
    rwa [add_eq_of_zero_right hside hyu, add_zero]
  · rw [add_eq, hxu, hyu]
    refine isWhole_normalize ?_ h .positive
    push_cast
    rw [add_mul, ← hm, ← hn]
    exact congrArg₂ (· + ·) (cast_apply_shiftLeft sign q (min_le_left e e'))
      (cast_apply_shiftLeft sign' q' (min_le_right e e'))

theorem IsWhole.sub (hx : IsWhole x m) (hy : IsWhole y n) (h : (m - n).natAbs ≤ 2 ^ 53) :
    IsWhole (x - y) (m - n) := by
  rw [sub_eq_add_neg]
  exact hx.add hy.neg h

/-- One more than a whole number is the next one, also where it is zero. -/
theorem IsWhole.add_one (hx : IsWhole x n) (h : (n + 1).natAbs ≤ 2 ^ 53) :
    x + 1 = Float.ofInt (n + 1) := by
  have hone : IsWhole 1 1 := isWhole_ofNat (n := 1) (by decide)
  -- there are two doubles that are zero, so the one after minus one is computed
  by_cases hn : n = -1
  · subst hn
    have hminus : x = Float.ofInt (-1) := hx.eq (isWhole_ofInt (by decide)) (by decide)
    rw [hminus]
    rfl
  · exact (hx.add hone h).eq (isWhole_ofInt h) (by omega)

end Sums

end StackCalc.Binary64
