import StackCalc.Arithmetic
import StackCalc.Proofs.Decimal.Nearest
import StackCalc.Proofs.Decimal.Reading

/-!
On which side of zero a double lies. Products and sums of doubles lie where products and sums do,
but for products that are too small: those are zero.
-/
namespace StackCalc.Binary64

open Float.Model (Format UnpackedFloat totalExponent)
open Float.Model.UnpackedFloat hiding pack unpack

/-- The side of zero on which a double lies. The two zeros lie on neither, and what is not a number
does not either. -/
def side? (x : Float) : Option Sign :=
  match x.toModel.unpack with
  | .infinity sign | .finite sign _ _ _ => some sign
  | .zero _ | .notANumber => none

theorem lt_iff {x y : Float} : x < y ↔ x.toModel.unpack.lt y.toModel.unpack = true :=
  decide_eq_true_iff

theorem unpack_literal_zero : (0 : Float).toModel.unpack = .zero .positive := rfl

/-- A comparison with zero tells the side. -/
theorem comparison_zero (x : Float) : Arithmetic.comparison x 0 =
    match side? x with
    | some .positive => 1
    | some .negative => -1
    | none => 0 := by
  rw [Arithmetic.comparison]
  simp only [lt_iff, unpack_literal_zero, side?]
  cases x.toModel.unpack with
  | notANumber => rfl
  | zero sign => rfl
  | infinity sign => cases sign <;> rfl
  | finite sign mantissa exponent h => cases sign <;> rfl

/-- The numbers that differ from zero are those that lie on a side of it; what is not a number
differs from it too. -/
theorem bne_zero (x : Float) : (x != 0) = ((side? x).isSome || x.isNaN) := by
  change (!x.toModel.unpack.beq (.zero .positive)) =
    ((side? x).isSome || x.toModel.unpack.isNaN)
  rw [side?]
  cases x.toModel.unpack with
  | notANumber => rfl
  | zero sign => rfl
  | infinity sign => cases sign <;> rfl
  | finite sign mantissa exponent h => cases sign <;> rfl

theorem pos_iff {x : Float} : 0 < x ↔ side? x = some .positive := by
  rw [lt_iff, unpack_literal_zero, side?]
  cases x.toModel.unpack with
  | notANumber => exact ⟨nofun, nofun⟩
  | zero sign => exact ⟨nofun, nofun⟩
  | infinity sign =>
    cases sign with
    | positive => exact ⟨fun _ => rfl, fun _ => rfl⟩
    | negative => exact ⟨nofun, nofun⟩
  | finite sign mantissa exponent h =>
    cases sign with
    | positive => exact ⟨fun _ => rfl, fun _ => rfl⟩
    | negative => exact ⟨nofun, nofun⟩

theorem isNaN_of_side? {x : Float} {sign : Sign} (h : side? x = some sign) : x.isNaN = false := by
  change x.toModel.unpack.isNaN = false
  rw [side?] at h
  cases hx : x.toModel.unpack <;> rw [hx] at h <;> first | rfl | cases h

/-! Products and sums of what has been rounded. -/

section Rounded
variable {sign sign₁ sign₂ : Sign} {m m₁ m₂ : Nat} {e e₁ e₂ : Int} {q : ℚ} {f : UnpackedFloat}

/-- What is not too small keeps its side in being rounded. -/
theorem Rounds.side?_eq (h : Rounds sign q f) (hq : 2 ^ (-1075 : Int) < q) :
    side? (Float.ofModel (.pack f)) = some sign := by
  obtain ⟨mantissa, exponent, hs, hc⟩ := exists_contains hq
  rw [h.of_contains hs hc hs.pos]
  rcases le_or_gt exponent 971 with he | he
  · rw [side?, unpack_ofModel_pack ⟨hs, he⟩]
  · rw [ofModel_pack_of_ge he, side?, unpack_infinity]

theorem Rounds.isNaN_eq (h : Rounds sign q f) : (Float.ofModel (.pack f)).isNaN = false := by
  rcases le_or_gt q (2 ^ (-1075 : Int)) with hq | hq
  · rw [h.of_le hq]
    exact congrArg UnpackedFloat.isNaN (unpack_zero sign)
  · exact isNaN_of_side? (h.side?_eq hq)

theorem rounds_mul (hs₁ : Scaled m₁ e₁) (hs₂ : Scaled m₂ e₂) :
    Rounds (sign₁ * sign₂) (m₁ * 2 ^ e₁ * (m₂ * 2 ^ e₂))
      (mul Format.binary64 (.finite sign₁ m₁ e₁ hs₁.pos) (.finite sign₂ m₂ e₂ hs₂.pos)) := by
  have hvalue : (m₁ * 2 ^ e₁ * (m₂ * 2 ^ e₂) : ℚ) = (m₁ * m₂ : Nat) * 2 ^ (e₁ + e₂) := by
    rw [zpow_add₀ two_ne_zero]
    push_cast
    ring
  have htarget : e₁ + e₂ ≤
      Format.binary64.targetExponent (totalExponent (m₁ * m₂) (e₁ + e₂)) := by
    have hlog (h : 2 ^ 52 ≤ m₁ * m₂) : 52 ≤ (m₁ * m₂).log2 :=
      (Nat.le_log2 (Nat.mul_pos hs₁.pos hs₂.pos).ne').2 h
    rw [targetExponent_binary64, totalExponent]
    -- a product has 53 bits if a factor has them, and else it is below the least exponent
    rcases hs₁.full with hfull | hleast
    · have := hlog (hfull.trans (Nat.le_mul_of_pos_right m₁ hs₂.pos))
      omega
    rcases hs₂.full with hfull | hleast'
    · have := hlog (hfull.trans (Nat.le_mul_of_pos_left m₂ hs₁.pos))
      omega
    · omega
  rw [hvalue]
  exact rounds_roundWithAccuracy (stands_exact _ _) htarget

theorem log2_shiftLeft (h : 0 < m) (shift : Nat) : (m <<< shift).log2 = m.log2 + shift := by
  induction shift with
  | zero => rfl
  | succ shift ih =>
    rw [Nat.shiftLeft_succ, Nat.log2_two_mul (shiftLeft_pos h shift).ne', ih, Nat.add_assoc]

theorem rounds_round (h : 0 < m) :
    Rounds sign (m * 2 ^ e) (UnpackedFloat.round Format.binary64 sign m e) := by
  obtain ⟨target, htarget⟩ :
    ∃ target, Format.binary64.targetExponent (totalExponent m e) = target := ⟨_, rfl⟩
  obtain ⟨shift, hshift⟩ : ∃ shift, (e - target).toNat = shift := ⟨_, rfl⟩
  have htotal : totalExponent (m <<< shift) (e - shift) = totalExponent m e := by
    rw [totalExponent, totalExponent, log2_shiftLeft h]
    omega
  -- a mantissa that is too short is moved to the target first, so that none of it is lost
  rw [← shiftLeft_value m shift e, UnpackedFloat.round, decreaseExponent, htarget, hshift]
  refine rounds_roundWithAccuracy (stands_exact _ _) ?_
  rw [htotal, htarget]
  omega

end Rounded

section Operations
variable {x y : Float}

theorem mul_eq (x y : Float) : x * y = Float.ofModel (.pack
    (UnpackedFloat.mul Format.binary64 x.toModel.unpack y.toModel.unpack)) := rfl

theorem add_eq (x y : Float) : x + y = Float.ofModel (.pack
    (UnpackedFloat.add Format.binary64 x.toModel.unpack y.toModel.unpack)) := rfl

/-- A double that lies on a side of zero is infinite, or it has a mantissa and an exponent. -/
theorem unpack_of_side? {sign : Sign} (h : side? x = some sign) :
    x.toModel.unpack = .infinity sign ∨ ∃ mantissa exponent, ∃ hs : Scaled mantissa exponent,
      x.toModel.unpack = .finite sign mantissa exponent hs.pos := by
  rw [side?] at h
  cases hx : x.toModel.unpack with
  | notANumber =>
    rw [hx] at h
    cases h
  | zero sign =>
    rw [hx] at h
    cases h
  | infinity sign =>
    rw [hx] at h
    cases h
    exact .inl rfl
  | finite sign mantissa exponent hm =>
    rw [hx] at h
    cases h
    have hf : x.isFinite = true := congrArg UnpackedFloat.isFinite hx
    obtain ⟨sign', ⟨hu, -⟩ | ⟨mantissa', exponent', hm', hu, hc, -⟩⟩ := unpack_of_isFinite hf
    · cases hx.symm.trans hu
    · cases hx.symm.trans hu
      exact .inr ⟨mantissa, exponent, hc.toScaled, rfl⟩

theorem unpack_of_side?_eq_none (h : side? x = none) :
    x.toModel.unpack = .notANumber ∨ ∃ sign, x.toModel.unpack = .zero sign := by
  rw [side?] at h
  cases hx : x.toModel.unpack with
  | notANumber => exact .inl rfl
  | zero sign => exact .inr ⟨sign, rfl⟩
  | infinity sign =>
    rw [hx] at h
    cases h
  | finite sign mantissa exponent hm =>
    rw [hx] at h
    cases h

theorem side?_zero (sign : Sign) : side? (Float.ofModel (.pack (.zero sign))) = none := by
  rw [side?, unpack_zero]

theorem side?_infinity (sign : Sign) :
    side? (Float.ofModel (.pack (.infinity sign))) = some sign := by
  rw [side?, unpack_infinity]

theorem side?_notANumber : side? (Float.ofModel (.pack .notANumber)) = none := rfl

/-- A product lies on a side only if both factors do. -/
theorem side?_mul_of_none (h : side? x = none ∨ side? y = none) : side? (x * y) = none := by
  rw [mul_eq]
  rcases h with h | h
  · rcases unpack_of_side?_eq_none h with hx | ⟨sign, hx⟩ <;> rw [hx]
    · exact side?_notANumber
    · cases y.toModel.unpack with
      | notANumber | infinity => exact side?_notANumber
      | zero | finite => exact side?_zero _
  · rcases unpack_of_side?_eq_none h with hy | ⟨sign, hy⟩ <;> rw [hy]
    · cases x.toModel.unpack <;> exact side?_notANumber
    · cases x.toModel.unpack with
      | notANumber | infinity => exact side?_notANumber
      | zero | finite => exact side?_zero _

theorem isNaN_mul {sign sign' : Sign} (hx : side? x = some sign) (hy : side? y = some sign') :
    (x * y).isNaN = false := by
  rw [mul_eq]
  rcases unpack_of_side? hx with hx | ⟨m, e, hs, hx⟩ <;>
    rcases unpack_of_side? hy with hy | ⟨m', e', hs', hy⟩ <;> rw [hx, hy]
  · exact isNaN_of_side? (side?_infinity (sign * sign'))
  · exact isNaN_of_side? (side?_infinity (sign * sign'))
  · exact isNaN_of_side? (side?_infinity (sign * sign'))
  · exact (rounds_mul hs hs').isNaN_eq

/-- A product lies on a side if both factors do and it is not too small. -/
theorem isSome_side?_mul (x y : Float) : (side? (x * y)).isSome =
    ((side? x).isSome && (side? y).isSome && x * y != 0) := by
  cases hx : side? x with
  | none =>
    rw [side?_mul_of_none (.inl hx)]
    rfl
  | some sign =>
    cases hy : side? y with
    | none =>
      rw [side?_mul_of_none (.inr hy)]
      rfl
    | some sign' =>
      rw [bne_zero, isNaN_mul hx hy, Bool.or_false]
      rfl

theorem sign_mul_self (sign : Sign) : sign * sign = .positive := by
  cases sign <;> rfl

theorem scaled_one : Scaled (2 ^ 52) (-52) :=
  ⟨by decide, by decide, by decide, .inl le_rfl⟩

theorem unpack_comparison {sign : Sign} (h : side? x = some sign) :
    (Arithmetic.comparison x 0).toModel.unpack = .finite sign (2 ^ 52) (-52) scaled_one.pos := by
  rw [comparison_zero, h]
  cases sign <;> rfl

theorem lt_value {mantissa : Nat} {exponent : Int} (h : 0 < mantissa) (he : -1074 ≤ exponent) :
    (2 : ℚ) ^ (-1075 : Int) < mantissa * 2 ^ exponent := by
  have hone : (1 : ℚ) ≤ mantissa := by exact_mod_cast h
  calc (2 : ℚ) ^ (-1075 : Int) < 2 ^ (-1074 : Int) := zpow_lt_zpow_right₀ one_lt_two (by decide)
    _ ≤ 2 ^ exponent := zpow_le_zpow_right₀ one_le_two he
    _ ≤ mantissa * 2 ^ exponent := le_mul_of_one_le_left (zpow_nonneg zero_le_two _) hone

/-- A double times its comparison with zero lies on the upper side, if it lay on a side. -/
theorem side?_magnitude (x : Float) :
    side? (x * Arithmetic.comparison x 0) = (side? x).map fun _ => .positive := by
  cases hx : side? x with
  | none => exact side?_mul_of_none (.inl hx)
  | some sign =>
    rw [mul_eq, unpack_comparison hx, Option.map_some, ← sign_mul_self sign]
    rcases unpack_of_side? hx with hx | ⟨mantissa, exponent, hs, hx⟩ <;> rw [hx]
    · exact side?_infinity _
    · refine (rounds_mul hs scaled_one).side?_eq ?_
      have hone : ((2 ^ 52 : Nat) * 2 ^ (-52 : Int) : ℚ) = 1 := by norm_num
      rw [hone, mul_one]
      exact lt_value hs.pos hs.least

/-- It is a number if the double is one. -/
theorem isNaN_magnitude (x : Float) : (x * Arithmetic.comparison x 0).isNaN = x.isNaN := by
  cases hx : side? x with
  | some sign =>
    have hmagnitude := side?_magnitude x
    rw [hx] at hmagnitude
    rw [isNaN_of_side? hx, isNaN_of_side? hmagnitude]
  | none =>
    rw [comparison_zero, hx, mul_eq, unpack_literal_zero]
    change UnpackedFloat.isNaN _ = UnpackedFloat.isNaN _
    rcases unpack_of_side?_eq_none hx with hx | ⟨sign, hx⟩ <;> rw [hx]
    · rfl
    · cases sign <;> rfl

theorem add_eq_of_zero_left {sign sign' : Sign} (hx : x.toModel.unpack = .zero sign)
    (hy : side? y = some sign') : x + y = y := by
  refine Eq.trans ?_ (ofModel_pack_unpack y)
  rw [add_eq, hx]
  rcases unpack_of_side? hy with hy | ⟨mantissa, exponent, hs, hy⟩ <;> rw [hy] <;> rfl

theorem add_eq_of_zero_right {sign sign' : Sign} (hx : side? x = some sign')
    (hy : y.toModel.unpack = .zero sign) : x + y = x := by
  refine Eq.trans ?_ (ofModel_pack_unpack x)
  rw [add_eq, hy]
  rcases unpack_of_side? hx with hx | ⟨mantissa, exponent, hs, hx⟩ <;> rw [hx] <;> rfl

theorem add_positive {m m' : Nat} (e e' : Int) (h : 0 < m) (h' : 0 < m') :
    ∃ mantissa, 0 < mantissa ∧
      UnpackedFloat.add Format.binary64 (.finite .positive m e h) (.finite .positive m' e' h') =
        UnpackedFloat.round Format.binary64 .positive mantissa (min e e') := by
  obtain ⟨a, ha⟩ : ∃ a, m <<< (e - min e e').toNat = a := ⟨_, rfl⟩
  obtain ⟨b, hb⟩ : ∃ b, m' <<< (e' - min e e').toNat = b := ⟨_, rfl⟩
  have hpos : 0 < a := ha ▸ shiftLeft_pos h _
  have hcmp : compare ((a : Int) + b) 0 = .gt := Int.compare_eq_gt.2 (by omega)
  refine ⟨a + b, by omega, ?_⟩
  rw [UnpackedFloat.add]
  simp only [decreaseExponent, Sign.apply, UnpackedFloat.normalize, ha, hb, hcmp]
  rfl

theorem side?_add_of_positive (hx : side? x = some .positive) (hy : side? y = some .positive) :
    side? (x + y) = some .positive := by
  rw [add_eq]
  rcases unpack_of_side? hx with hx | ⟨m, e, hs, hx⟩ <;>
    rcases unpack_of_side? hy with hy | ⟨m', e', hs', hy⟩ <;> rw [hx, hy]
  · exact side?_infinity _
  · exact side?_infinity _
  · exact side?_infinity _
  · obtain ⟨mantissa, hpos, hadd⟩ := add_positive e e' hs.pos hs'.pos
    rw [hadd]
    exact (rounds_round hpos).side?_eq (lt_value hpos (le_min hs.least hs'.least))

theorem side?_add_of_notANumber
    (h : x.toModel.unpack = .notANumber ∨ y.toModel.unpack = .notANumber) :
    side? (x + y) = none := by
  rw [add_eq]
  rcases h with h | h <;> rw [h]
  · exact side?_notANumber
  · cases x.toModel.unpack <;> exact side?_notANumber

theorem side?_add_of_zero {sign sign' : Sign} (hx : x.toModel.unpack = .zero sign)
    (hy : y.toModel.unpack = .zero sign') : side? (x + y) = none := by
  rw [add_eq, hx, hy]
  cases sign <;> cases sign' <;> exact side?_zero _

theorem side?_of_zero {sign : Sign} (h : x.toModel.unpack = .zero sign) : side? x = none := by
  rw [side?, h]

theorem isNaN_of_zero {sign : Sign} (h : x.toModel.unpack = .zero sign) : x.isNaN = false :=
  congrArg UnpackedFloat.isNaN h

theorem isNaN_of_notANumber (h : x.toModel.unpack = .notANumber) : x.isNaN = true :=
  congrArg UnpackedFloat.isNaN h

/-- A sum of doubles that do not lie below zero is above it if one of them is, unless one of them is
not a number. -/
theorem add_pos_iff (hx : side? x ≠ some .negative) (hy : side? y ≠ some .negative) :
    0 < x + y ↔ x.isNaN = false ∧ y.isNaN = false ∧ (0 < x ∨ 0 < y) := by
  rw [pos_iff, pos_iff, pos_iff]
  have hside {z : Float} (h : side? z ≠ some .negative) : z.toModel.unpack = .notANumber ∨
      (∃ sign, z.toModel.unpack = .zero sign) ∨ side? z = some .positive := by
    cases hz : side? z with
    | none => exact (unpack_of_side?_eq_none hz).imp_right .inl
    | some sign =>
      cases sign with
      | positive => exact .inr (.inr rfl)
      | negative => exact absurd hz h
  rcases hside hx with hx | ⟨sign, hx⟩ | hx
  · rw [side?_add_of_notANumber (.inl hx), isNaN_of_notANumber hx]
    exact ⟨nofun, fun h => nomatch h.1⟩
  · rcases hside hy with hy | ⟨sign', hy⟩ | hy
    · rw [side?_add_of_notANumber (.inr hy), isNaN_of_notANumber hy]
      exact ⟨nofun, fun h => nomatch h.2.1⟩
    · rw [side?_add_of_zero hx hy, side?_of_zero hx, side?_of_zero hy, or_self]
      exact ⟨nofun, fun h => nomatch h.2.2⟩
    · rw [add_eq_of_zero_left hx hy, hy]
      exact ⟨fun _ => ⟨isNaN_of_zero hx, isNaN_of_side? hy, .inr rfl⟩, fun _ => rfl⟩
  · rcases hside hy with hy | ⟨sign', hy⟩ | hy
    · rw [side?_add_of_notANumber (.inr hy), isNaN_of_notANumber hy]
      exact ⟨nofun, fun h => nomatch h.2.1⟩
    · rw [add_eq_of_zero_right hx hy, hx]
      exact ⟨fun _ => ⟨isNaN_of_side? hx, isNaN_of_zero hy, .inl rfl⟩, fun _ => rfl⟩
    · exact ⟨fun _ => ⟨isNaN_of_side? hx, isNaN_of_side? hy, .inl hx⟩,
        fun _ => side?_add_of_positive hx hy⟩

end Operations

end StackCalc.Binary64
