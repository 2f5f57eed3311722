import StackCalc.Proofs.Decimal.Shortest
import StackCalc.Proofs.Literals

/-!
Every finite number is read back from its text.
-/
namespace StackCalc

open Float.Model.UnpackedFloat (Sign)

namespace Decimal

section Written
variable {d : Decimal}

theorem magnitude_of_nonneg (h : 0 ≤ d.exponent) : Literal.Magnitude d.positional d.value := by
  obtain ⟨zeros, hzeros⟩ := Int.eq_ofNat_of_zero_le h
  obtain ⟨whole, hwhole⟩ : ∃ whole, whole = Nat.toDigits 10 d.digits ++ List.replicate zeros '0' :=
    ⟨_, rfl⟩
  have hd : Literal.AreDigits whole := by
    intro c hc
    rw [hwhole] at hc
    rcases List.mem_append.1 hc with hc | hc
    · exact Nat.isDigit_of_mem_toDigits (by decide) (by decide) hc
    · rw [List.eq_of_mem_replicate hc]
      rfl
  have hne : whole ≠ [] := by
    rw [hwhole]
    exact List.append_ne_nil_of_left_ne_nil Nat.toDigits_ne_nil _
  have htext : d.positional = whole := by
    rw [positional, if_pos h, hzeros, Int.toNat_natCast, hwhole]
  have hvalue : (Nat.ofDigitChars 10 whole 0 : ℚ) = d.value := by
    rw [hwhole, Nat.ofDigitChars_append, Nat.ofDigitChars_replicate_zero,
      Nat.ofDigitChars_ten_toDigits, value, hzeros, zpow_natCast, mul_comm]
    push_cast
    rfl
  rw [htext, ← hvalue]
  exact .whole hne hd

theorem length_paddedDigits (width n : Nat) : width ≤ (paddedDigits width n).length := by
  rw [paddedDigits, List.length_append, List.length_replicate]
  omega

theorem ofDigitChars_paddedDigits (width n : Nat) :
    Nat.ofDigitChars 10 (paddedDigits width n) 0 = n := by
  rw [paddedDigits, Nat.ofDigitChars_append, Nat.ofDigitChars_replicate_zero, Nat.mul_zero,
    Nat.ofDigitChars_ten_toDigits]

theorem magnitude_of_neg (h : d.exponent < 0) : Literal.Magnitude d.positional d.value := by
  obtain ⟨places, hplaces⟩ := Int.eq_ofNat_of_zero_le (Int.neg_nonneg_of_nonpos h.le)
  obtain ⟨digits, hdigits⟩ : ∃ digits, digits = paddedDigits (places + 1) d.digits := ⟨_, rfl⟩
  obtain ⟨whole, fraction, hwhole, hfraction⟩ : ∃ whole fraction,
      whole = digits.take (digits.length - places) ∧
        fraction = digits.drop (digits.length - places) := ⟨_, _, rfl, rfl⟩
  have hlength : places + 1 ≤ digits.length := hdigits ▸ length_paddedDigits _ _
  have happend : whole ++ fraction = digits := by
    rw [hwhole, hfraction, List.take_append_drop]
  have hd : ∀ c ∈ whole ++ fraction, c.isDigit = true := by
    rw [happend, hdigits]
    exact fun c hc => isDigit_of_mem_paddedDigits hc
  have hne : whole ≠ [] := by
    rw [hwhole, ← List.length_pos_iff, List.length_take]
    omega
  have hfraction' : fraction.length = places := by
    rw [hfraction, List.length_drop]
    omega
  have htext : d.positional = whole ++ '.' :: fraction := by
    rw [positional, if_neg h.not_ge]
    simp only
    rw [hplaces, Int.toNat_natCast, hwhole, hfraction, hdigits]
  have hvalue : (Nat.ofDigitChars 10 whole 0 +
      Nat.ofDigitChars 10 fraction 0 / 10 ^ fraction.length : ℚ) = d.value := by
    rw [← Literal.ofDigitChars_append_div, happend, hfraction', hdigits, ofDigitChars_paddedDigits,
      value, ← neg_neg d.exponent, hplaces, zpow_neg, zpow_natCast]
    rfl
  rw [htext, ← hvalue]
  exact .pointed hne (fun c hc => hd c (List.mem_append_left _ hc)) fun c hc =>
    hd c (List.mem_append_right _ hc)

/-- The text of a decimal is a literal for it. -/
theorem magnitude_positional (d : Decimal) : Literal.Magnitude d.positional d.value := by
  rcases lt_or_ge d.exponent 0 with h | h
  · exact magnitude_of_neg h
  · exact magnitude_of_nonneg h

end Written

end Decimal

open Binary64 in
/-- A finite number is read back from its text, a zero with its sign. -/
theorem read?_numberText {x : Float} (hf : x.isFinite = true) :
    Literal.read? (numberText x) = some x := by
  obtain ⟨sign, ⟨hu, hx⟩ | ⟨mantissa, exponent, h, hu, hc, hx⟩⟩ := unpack_of_isFinite hf
  · rw [numberText, hu, ← hx]
    cases sign <;> decide +kernel
  · have hm := (Decimal.shortest mantissa exponent).magnitude_positional
    have hcontains := Decimal.contains_shortest hc
    rw [numberText, hu]
    cases sign with
    | positive =>
      obtain ⟨f, hread, hr⟩ := hm.read? hm.splitSign
      rw [hr.of_contains hc.toScaled hcontains h] at hread
      rw [← hx]
      exact hread
    | negative =>
      have hneg : -Float.ofModel (.pack (.finite .positive mantissa exponent h)) = x :=
        (neg_ofModel_pack hc h).trans hx
      have hminus : Literal.splitSign ('-' :: (Decimal.shortest mantissa exponent).positional) =
          (true, (Decimal.shortest mantissa exponent).positional) := rfl
      obtain ⟨f, hread, hr⟩ := hm.read? hminus
      rw [hr.of_contains hc.toScaled hcontains h] at hread
      rw [← hneg]
      exact hread

end StackCalc
