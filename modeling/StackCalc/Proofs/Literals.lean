import StackCalc.Proofs.Decimal.Nearest
import StackCalc.Proofs.Decimal.Reading
import StackCalc.Proofs.Grammar
import StackCalc.Proofs.Numerals

/-!
The grammar of decimal literals, and what a literal denotes. Nothing but a literal is read as a
number, and the number is the decimal that the literal denotes, rounded once.
-/
namespace StackCalc.Literal

open Binary64 (IsRounded Rounds)
open Float.Model.UnpackedFloat (Sign)

/-- ASCII digits only, or nothing. -/
def AreDigits (text : List Char) : Prop :=
  ∀ c ∈ text, c.isDigit = true

/-- A literal without a sign and the number that it denotes. -/
inductive Magnitude : List Char → ℚ → Prop where
  | whole {digits : List Char} : digits ≠ [] → AreDigits digits →
      Magnitude digits (Nat.ofDigitChars 10 digits 0)
  | pointed {digits fraction : List Char} : digits ≠ [] → AreDigits digits → AreDigits fraction →
      Magnitude (digits ++ '.' :: fraction)
        (Nat.ofDigitChars 10 digits 0 + Nat.ofDigitChars 10 fraction 0 / 10 ^ fraction.length)
  | fraction {fraction : List Char} : fraction ≠ [] → AreDigits fraction →
      Magnitude ('.' :: fraction) (Nat.ofDigitChars 10 fraction 0 / 10 ^ fraction.length)

/-- A literal, its sign and the number that it denotes but for the sign. -/
inductive Denotes : List Char → Sign → ℚ → Prop where
  | unsigned {text : List Char} {q : ℚ} : Magnitude text q → Denotes text .positive q
  | plus {text : List Char} {q : ℚ} : Magnitude text q → Denotes ('+' :: text) .positive q
  | minus {text : List Char} {q : ℚ} : Magnitude text q → Denotes ('-' :: text) .negative q

section Split
variable {text whole fraction : List Char} {q : ℚ}

theorem splitPoint_append {rest : List Char} (hw : AreDigits whole)
    (hr : ∀ c ∈ rest.head?, c = '.') : splitPoint (whole ++ rest) = (whole, rest.drop 1) := by
  have hbefore : ∀ c ∈ whole, (c != '.') = true := by
    intro c hc
    refine bne_iff_ne.2 ?_
    rintro rfl
    cases hw _ hc
  have hafter : ∀ c ∈ rest.head?, (c != '.') = false := by
    intro c hc
    rw [hr c hc]
    rfl
  have hspan := Token.span_append_of_head? hbefore hafter
  rw [splitPoint, hspan.1, hspan.2]

/-- Around the point there are digits, and without the point they make up the magnitude in units of
the last place. -/
structure Splits (text : List Char) (q : ℚ) (whole fraction : List Char) : Prop where
  split : splitPoint text = (whole, fraction)
  nonempty : ¬ (whole = [] ∧ fraction = [])
  before : AreDigits whole
  behind : AreDigits fraction
  value : (Nat.ofDigitChars 10 (whole ++ fraction) 0 / 10 ^ fraction.length : ℚ) = q

theorem ofDigitChars_append_div (whole fraction : List Char) :
    (Nat.ofDigitChars 10 (whole ++ fraction) 0 / 10 ^ fraction.length : ℚ) =
      Nat.ofDigitChars 10 whole 0 + Nat.ofDigitChars 10 fraction 0 / 10 ^ fraction.length := by
  rw [Nat.ofDigitChars_append, Nat.ofDigitChars_eq_ofDigitChars_zero]
  push_cast
  field_simp

theorem Magnitude.splits (h : Magnitude text q) :
    ∃ whole fraction, Splits text q whole fraction := by
  have hpoint (fraction : List Char) : ∀ c ∈ ('.' :: fraction).head?, c = '.' := by
    rintro _ ⟨⟩
    rfl
  have hnil : AreDigits [] := List.forall_mem_nil _
  cases h with
  | @whole _ hne hd =>
    refine ⟨text, [], ?_, fun he => hne he.1, hd, hnil, ?_⟩
    · have hsplit := (splitPoint_append hd (by rintro _ ⟨⟩) : splitPoint (text ++ []) = _)
      rwa [List.append_nil] at hsplit
    · rw [List.append_nil, List.length_nil, pow_zero, div_one]
  | @pointed digits fraction hne hd hf =>
    exact ⟨digits, fraction, splitPoint_append hd (hpoint fraction), fun he => hne he.1, hd, hf,
      ofDigitChars_append_div digits fraction⟩
  | @fraction fraction hne hf =>
    exact ⟨[], fraction, splitPoint_append hnil (hpoint fraction), fun he => hne he.2, hnil, hf,
      rfl⟩

theorem magnitude_of_splitPoint (hs : splitPoint text = (whole, fraction))
    (hne : ¬ (whole = [] ∧ fraction = [])) (hw : AreDigits whole) (hf : AreDigits fraction) :
    ∃ q, Magnitude text q := by
  obtain ⟨htake, hdrop⟩ := Prod.mk.inj hs
  have happend : whole ++ text.dropWhile (· != '.') = text := by
    rw [← htake]
    exact List.takeWhile_append_dropWhile
  -- the text ends where there is no point, and then there is no fraction
  cases hrest : text.dropWhile (· != '.') with
  | nil =>
    rw [hrest, List.append_nil] at happend
    rw [hrest] at hdrop
    exact ⟨_, happend ▸ Magnitude.whole (fun he => hne ⟨he, hdrop.symm⟩) hw⟩
  | cons c rest =>
    obtain rfl : c = '.' := Token.eq_of_dropWhile_ne hrest
    rw [hrest] at happend hdrop
    obtain rfl : rest = fraction := hdrop
    rw [← happend]
    cases whole with
    | nil => exact ⟨_, .fraction (fun he => hne ⟨rfl, he⟩) hf⟩
    | cons d whole => exact ⟨_, .pointed (List.cons_ne_nil _ _) hw hf⟩

/-- A magnitude starts with a digit or with the point, not with a sign. -/
theorem Magnitude.splitSign (h : Magnitude text q) : splitSign text = (false, text) := by
  have hhead : ∀ c ∈ text.head?, c.isDigit = true ∨ c = '.' := by
    have hdigits {digits rest : List Char} (hne : digits ≠ []) (hd : AreDigits digits) :
        ∀ c ∈ (digits ++ rest).head?, c.isDigit = true ∨ c = '.' := by
      obtain ⟨c, digits, rfl⟩ := List.exists_cons_of_ne_nil hne
      rintro _ ⟨⟩
      exact .inl (hd c List.mem_cons_self)
    cases h with
    | whole hne hd => exact List.append_nil text ▸ hdigits hne hd
    | pointed hne hd _ => exact hdigits hne hd
    | fraction _ _ =>
      rintro _ ⟨⟩
      exact .inr rfl
  rw [Literal.splitSign.eq_def]
  split
  · rcases hhead _ rfl with hc | hc <;> cases hc
  · rcases hhead _ rfl with hc | hc <;> cases hc
  · rfl

end Split

section Read
variable {text unsigned : List Char} {q : ℚ} {negative : Bool} {sign : Sign} {x : Float}

/-- Behind the sign the digits are read as a whole number of the last place. -/
theorem Magnitude.read? (h : Magnitude unsigned q)
    (hs : Literal.splitSign text = (negative, unsigned)) :
    ∃ f, Literal.read? text = some (if negative then -Float.ofModel (.pack f)
      else Float.ofModel (.pack f)) ∧ Rounds .positive q f := by
  obtain ⟨whole, fraction, hsplit, hne, hw, hf, hvalue⟩ := h.splits
  obtain ⟨f, hread, hr⟩ := Binary64.rounds_floatOfScientific
    (Nat.ofDigitChars 10 (whole ++ fraction) 0) fraction.length
  have hempty : ¬ (whole.isEmpty && fraction.isEmpty) = true := by
    rwa [Bool.and_eq_true, List.isEmpty_iff, List.isEmpty_iff]
  have hall : (whole.all Char.isDigit && fraction.all Char.isDigit) = true := by
    rw [Bool.and_eq_true]
    exact ⟨List.all_eq_true.2 hw, List.all_eq_true.2 hf⟩
  refine ⟨f, ?_, hvalue ▸ hr⟩
  rw [Literal.read?, hs]
  simp only
  rw [hsplit]
  simp only
  rw [if_neg hempty, if_pos hall, hread]

theorem Magnitude.nonneg (h : Magnitude text q) : 0 ≤ q := by
  cases h <;> positivity

theorem Denotes.read? (h : Denotes text sign q) :
    ∃ x, Literal.read? text = some x ∧ IsRounded sign q x := by
  cases h with
  | unsigned hm =>
    obtain ⟨f, hread, hr⟩ := hm.read? hm.splitSign
    exact ⟨_, hread, hr.isRounded hm.nonneg⟩
  | plus hm =>
    obtain ⟨f, hread, hr⟩ := (hm.read? rfl : ∃ f, Literal.read? ('+' :: _) = _ ∧ _)
    exact ⟨_, hread, hr.isRounded hm.nonneg⟩
  | minus hm =>
    obtain ⟨f, hread, hr⟩ := (hm.read? rfl : ∃ f, Literal.read? ('-' :: _) = _ ∧ _)
    exact ⟨_, hread, (hr.isRounded hm.nonneg).neg⟩

theorem exists_magnitude_of_read? (h : Literal.read? text = some x)
    (hs : Literal.splitSign text = (negative, unsigned)) : ∃ q, Magnitude unsigned q := by
  cases hp : splitPoint unsigned with
  | mk whole fraction =>
    rw [Literal.read?, hs] at h
    simp only [hp] at h
    split at h
    next => cases h
    next hempty =>
      split at h
      next hall =>
        rw [Bool.and_eq_true, List.isEmpty_iff, List.isEmpty_iff] at hempty
        rw [Bool.and_eq_true, List.all_eq_true, List.all_eq_true] at hall
        exact magnitude_of_splitPoint hp hempty hall.1 hall.2
      next => cases h

theorem exists_denotes_of_read? (h : Literal.read? text = some x) :
    ∃ sign q, Denotes text sign q := by
  obtain ⟨negative, unsigned, hs⟩ : ∃ negative unsigned,
      Literal.splitSign text = (negative, unsigned) := ⟨_, _, rfl⟩
  obtain ⟨q, hm⟩ := exists_magnitude_of_read? h hs
  rw [Literal.splitSign.eq_def] at hs
  split at hs <;> cases hs
  · exact ⟨_, q, .minus hm⟩
  · exact ⟨_, q, .plus hm⟩
  · exact ⟨_, q, .unsigned hm⟩

theorem isNaN_of_read? (h : Literal.read? text = some x) : x.isNaN = false := by
  obtain ⟨sign, q, hd⟩ := exists_denotes_of_read? h
  obtain ⟨y, hy, hr⟩ := hd.read?
  obtain rfl : x = y := Option.some.inj (h.symm.trans hy)
  have hsign := hr.sign_eq
  rw [Binary64.sign?] at hsign
  change x.toModel.unpack.isNaN = false
  cases hu : x.toModel.unpack with
  | notANumber =>
    rw [hu] at hsign
    cases hsign
  | _ => rfl

end Read

/-! Literals among the pieces of a text. -/

/-- The characters of literals. -/
def isLiteralChar (c : Char) : Bool :=
  c = '+' || isNumeral c

section Characters
variable {text : List Char} {q : ℚ} {sign : Sign} {c : Char}

theorem Magnitude.isNumeral_of_mem (h : Magnitude text q) (hc : c ∈ text) : isNumeral c = true := by
  cases h with
  | whole _ hd => exact isNumeral_of_isDigit (hd c hc)
  | pointed _ hd hf =>
    rcases List.mem_append.1 hc with hc | hc
    · exact isNumeral_of_isDigit (hd c hc)
    · rcases List.mem_cons.1 hc with rfl | hc
      · rfl
      · exact isNumeral_of_isDigit (hf c hc)
  | fraction _ hf =>
    rcases List.mem_cons.1 hc with rfl | hc
    · rfl
    · exact isNumeral_of_isDigit (hf c hc)

theorem Denotes.isLiteralChar_of_mem (h : Denotes text sign q) (hc : c ∈ text) :
    isLiteralChar c = true := by
  have hnumeral {unsigned : List Char} (hm : Magnitude unsigned q) (hc : c ∈ unsigned) :
      isLiteralChar c = true := by
    rw [isLiteralChar, hm.isNumeral_of_mem hc, Bool.or_true]
  cases h with
  | unsigned hm => exact hnumeral hm hc
  | plus hm =>
    rcases List.mem_cons.1 hc with rfl | hc
    · rfl
    · exact hnumeral hm hc
  | minus hm =>
    rcases List.mem_cons.1 hc with rfl | hc
    · rfl
    · exact hnumeral hm hc

theorem isNameChar_of_isLiteralChar (h : isLiteralChar c = true) : Token.isNameChar c = true := by
  rw [isLiteralChar, Bool.or_eq_true, decide_eq_true_eq] at h
  rcases h with rfl | h
  · decide
  · exact isNameChar_of_isNumeral h

theorem Magnitude.ne_nil (h : Magnitude text q) : text ≠ [] := by
  cases h with
  | whole hne _ => exact hne
  | pointed hne _ _ => exact List.append_ne_nil_of_left_ne_nil hne _
  | fraction _ _ => exact List.cons_ne_nil _ _

theorem Denotes.ne_nil (h : Denotes text sign q) : text ≠ [] := by
  cases h with
  | unsigned hm => exact hm.ne_nil
  | plus _ => exact List.cons_ne_nil _ _
  | minus _ => exact List.cons_ne_nil _ _

/-- A piece is the number that it is read as: no literal is a bracket or starts with a quote mark.
-/
theorem kind_eq_number_iff {p : Token.Piece} {x : Float} :
    p.kind = .number x ↔ read? p.content = some x := by
  have hchars (hr : read? p.content = some x) : ∀ c ∈ p.content, isLiteralChar c = true := by
    obtain ⟨sign, q, hd⟩ := exists_denotes_of_read? hr
    exact fun c hc => hd.isLiteralChar_of_mem hc
  have hnot {c : Char} {rest : List Char} (hc : p.content = c :: rest)
      (hl : isLiteralChar c = false) (hr : read? p.content = some x) : False := by
    have htrue := hchars hr c (hc ▸ List.mem_cons_self)
    rw [hl] at htrue
    cases htrue
  unfold Token.Piece.kind
  split
  next hc => exact ⟨nofun, fun hr => (hnot hc (by decide) hr).elim⟩
  next hc => exact ⟨nofun, fun hr => (hnot hc (by decide) hr).elim⟩
  next hc => exact ⟨nofun, fun hr => (hnot hc (by decide) hr).elim⟩
  next hc => exact ⟨nofun, fun hr => (hnot hc (by decide) hr).elim⟩
  next hc => exact ⟨nofun, fun hr => (hnot hc (by decide) hr).elim⟩
  next =>
    cases hr : read? p.content with
    | none => exact ⟨nofun, nofun⟩
    | some y => exact ⟨fun h => by cases h; rfl, fun h => by cases h; rfl⟩

end Characters

/-- A text is read as a number exactly if it is a literal: one sign at most, and ASCII digits with
at most one point, but not a point alone. The number is then what the literal denotes, rounded to
the nearest double, and a piece of a source text becomes this number, not a word, if it is the
literal. -/
theorem read?_exact (text : List Char) :
    ((∃ x, read? text = some x) ↔ ∃ sign magnitude, Denotes text sign magnitude) ∧
      (∀ sign magnitude, Denotes text sign magnitude →
        ∃ x, read? text = some x ∧ IsRounded sign magnitude x) ∧
      ∀ p : Token.Piece, p.content = text → ∀ x, p.kind = .number x ↔ read? text = some x := by
  refine ⟨⟨?_, ?_⟩, fun sign magnitude h => h.read?, ?_⟩
  · rintro ⟨x, h⟩
    exact exists_denotes_of_read? h
  · rintro ⟨sign, magnitude, h⟩
    obtain ⟨x, hx, -⟩ := h.read?
    exact ⟨x, hx⟩
  · rintro p rfl x
    exact kind_eq_number_iff

example : ["1e5", "inf", "--1", "1.2.3", "+.", "٣"].map (read? ·.toList) =
    List.replicate 6 none := by decide +kernel

end StackCalc.Literal
