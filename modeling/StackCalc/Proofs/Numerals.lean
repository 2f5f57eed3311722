import StackCalc.Decimal.Notation
import StackCalc.Token.Scan

/-!
The texts of numbers: what they are made of, and that each of them is a single lexeme.
-/
namespace StackCalc

/-- The characters that finite numbers are written with. -/
def isNumeral (c : Char) : Bool :=
  c.isDigit || c = '-' || c = '.'

theorem isNumeral_of_isDigit {c : Char} (h : c.isDigit = true) : isNumeral c = true := by
  rw [isNumeral, h]
  rfl

namespace Decimal

theorem isDigit_of_mem_paddedDigits {width n : Nat} {c : Char} (h : c ∈ paddedDigits width n) :
    c.isDigit = true := by
  rcases List.mem_append.1 h with hc | hc
  · rw [List.eq_of_mem_replicate hc]
    rfl
  · exact Nat.isDigit_of_mem_toDigits (by decide) (by decide) hc

theorem isNumeral_of_mem_positional {d : Decimal} {c : Char} (h : c ∈ d.positional) :
    isNumeral c = true := by
  rw [positional] at h
  split at h
  · rcases List.mem_append.1 h with hc | hc
    · exact isNumeral_of_isDigit (Nat.isDigit_of_mem_toDigits (by decide) (by decide) hc)
    · rw [List.eq_of_mem_replicate hc]
      rfl
  · rcases List.mem_append.1 h with hc | hc
    · exact isNumeral_of_isDigit (isDigit_of_mem_paddedDigits (List.mem_of_mem_take hc))
    · rcases List.mem_cons.1 hc with rfl | hc
      · rfl
      · exact isNumeral_of_isDigit (isDigit_of_mem_paddedDigits (List.mem_of_mem_drop hc))

theorem positional_ne_nil (d : Decimal) : d.positional ≠ [] := by
  rw [positional]
  split
  · exact List.append_ne_nil_of_left_ne_nil Nat.toDigits_ne_nil _
  · exact List.append_ne_nil_of_right_ne_nil _ (List.cons_ne_nil _ _)

end Decimal

theorem isNumeral_of_mem_signText {sign : Float.Model.UnpackedFloat.Sign} {c : Char}
    (h : c ∈ signText sign) : isNumeral c = true := by
  cases sign with
  | positive => cases h
  | negative =>
    rw [List.mem_singleton.1 h]
    rfl

theorem isNumeral_of_mem_numberText {x : Float} (hx : x.isFinite = true) {c : Char}
    (h : c ∈ numberText x) : isNumeral c = true := by
  have hf : x.toModel.unpack.isFinite = true := hx
  rw [numberText] at h
  cases hu : x.toModel.unpack with
  | notANumber =>
    rw [hu] at hf
    cases hf
  | infinity sign =>
    rw [hu] at hf
    cases hf
  | zero sign =>
    rw [hu] at h
    rcases List.mem_append.1 h with hc | hc
    · exact isNumeral_of_mem_signText hc
    · rw [List.mem_singleton.1 hc]
      rfl
  | finite sign mantissa exponent hm =>
    rw [hu] at h
    rcases List.mem_append.1 h with hc | hc
    · exact isNumeral_of_mem_signText hc
    · exact Decimal.isNumeral_of_mem_positional hc

theorem numberText_ne_nil (x : Float) : numberText x ≠ [] := by
  rw [numberText]
  split
  · exact List.cons_ne_nil _ _
  · exact List.append_ne_nil_of_right_ne_nil _ (List.cons_ne_nil _ _)
  · exact List.append_ne_nil_of_right_ne_nil _ (List.cons_ne_nil _ _)
  · exact List.append_ne_nil_of_right_ne_nil _ (Decimal.positional_ne_nil _)

theorem toNat_of_isNumeral {c : Char} (h : isNumeral c = true) : 45 ≤ c.toNat ∧ c.toNat ≤ 57 := by
  simp only [isNumeral, Bool.or_eq_true, decide_eq_true_eq] at h
  rcases h with (hd | rfl) | rfl
  · simp only [Char.isDigit, Bool.and_eq_true, decide_eq_true_eq, ge_iff_le, UInt32.le_iff_toNat_le]
      at hd
    exact ⟨Nat.le_trans (by decide) hd.1, hd.2⟩
  · decide
  · decide

/-- Blanks, brackets and the mark of a comment all lie elsewhere in the table of characters. -/
theorem isNameChar_of_isNumeral {c : Char} (h : isNumeral c = true) :
    Token.isNameChar c = true := by
  obtain ⟨hlow, hhigh⟩ := toNat_of_isNumeral h
  have hne (d : Char) (hd : ¬ (45 ≤ d.toNat ∧ d.toNat ≤ 57)) : c ≠ d := by
    rintro rfl
    exact hd ⟨hlow, hhigh⟩
  have hblank : Text.isWhiteSpace c = false := by
    simp only [Text.isWhiteSpace, Text.whiteSpaceRanges, Text.inRanges]
    grind
  simp [Token.isNameChar, hblank, isBracket, Bracket.opening, Bracket.closing,
    hne Token.commentMark (by decide), hne '{' (by decide), hne '}' (by decide),
    hne '[' (by decide), hne ']' (by decide)]

end StackCalc
