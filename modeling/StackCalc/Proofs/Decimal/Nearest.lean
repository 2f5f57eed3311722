import StackCalc.Proofs.Decimal.Rounding

/-!
Rounding as the standard for doubles has it: to the nearest double, of two that are equally near to
the one with the even mantissa, and to infinity from half a place beyond the greatest double. The
intervals of the doubles leave out no positive number but the smallest ones, and a number is nearest
to the double in whose interval it lies.
-/
namespace StackCalc.Binary64

open Float.Model (Format UnpackedFloat)
open Float.Model.UnpackedFloat (Sign)

/-- The sign of a double, also that of a zero; what is not a number has none. -/
def sign? (x : Float) : Option Sign :=
  match x.toModel.unpack with
  | .notANumber => none
  | .infinity sign => some sign
  | .zero sign => some sign
  | .finite sign _ _ _ => some sign

def signed : Sign → ℚ → ℚ
  | .positive, q => q
  | .negative, q => -q

/-- The number that a finite double is. -/
def number (x : Float) : ℚ :=
  match x.toModel.unpack with
  | .finite sign mantissa exponent _ => signed sign (mantissa * 2 ^ exponent)
  | _ => 0

/-- The binary places of a finite double; zero has none. -/
def places (x : Float) : Nat :=
  match x.toModel.unpack with
  | .finite _ mantissa _ _ => mantissa
  | _ => 0

/-- No finite double is nearer to the number, and of two that are equally near this is the one whose
last place is even. -/
structure IsNearest (q : ℚ) (x : Float) : Prop where
  finite : x.isFinite = true
  nearest (y : Float) : y.isFinite = true → |q - number x| ≤ |q - number y|
  even (y : Float) : y.isFinite = true → number y ≠ number x → |q - number x| = |q - number y| →
    places x % 2 = 0

/-- Half a place beyond the greatest double, which is `(2 ^ 53 - 1) * 2 ^ 971`. -/
def beyond : ℚ :=
  (2 ^ 54 - 1) * 2 ^ (970 : Int)

/-- The double is the magnitude rounded, with the sign. -/
structure IsRounded (sign : Sign) (magnitude : ℚ) (x : Float) : Prop where
  sign_eq : sign? x = some sign
  nearest : magnitude < beyond → IsNearest (signed sign magnitude) x
  infinite : beyond ≤ magnitude → x.isInf = true

/-! Every number that is not too small lies in the interval of a double, if exponents may be as
great as they need to be. -/

section Cover
variable {mantissa : Nat} {exponent : Int} {x : ℚ}

/-- The natural number nearest to a number, and of two the even one. -/
theorem exists_nearest_nat (hx : 0 ≤ x) : ∃ n : Nat, (n : ℚ) - 1 / 2 ≤ x ∧ x ≤ n + 1 / 2 ∧
    (n % 2 = 0 ∨ (n : ℚ) - 1 / 2 < x ∧ x < n + 1 / 2) := by
  obtain ⟨n, hn⟩ : ∃ n, n = ⌊x⌋₊ := ⟨_, rfl⟩
  have hle : (n : ℚ) ≤ x := hn ▸ Nat.floor_le hx
  have hlt : x < n + 1 := hn ▸ Nat.lt_floor_add_one x
  rcases lt_trichotomy x (n + 1 / 2) with h | h | h
  · exact ⟨n, by linarith, h.le, .inr ⟨by linarith, h⟩⟩
  · -- halfway, and one of the two is even
    rcases Nat.mod_two_eq_zero_or_one n with he | ho
    · exact ⟨n, by linarith, h.le, .inl he⟩
    · refine ⟨n + 1, ?_, ?_, .inl (by omega)⟩ <;> push_cast <;> linarith
  · refine ⟨n + 1, ?_, ?_, .inr ⟨?_, ?_⟩⟩ <;> push_cast <;> linarith

/-- In units of the last place half a place is enough, but only a quarter below a power of two. -/
theorem contains_of_near (hlow : (mantissa : ℚ) - 1 / 2 ≤ x / 2 ^ exponent)
    (hhigh : x / 2 ^ exponent ≤ mantissa + 1 / 2)
    (hinner : mantissa % 2 = 0 ∨
      (mantissa : ℚ) - 1 / 2 < x / 2 ^ exponent ∧ x / 2 ^ exponent < mantissa + 1 / 2)
    (hpower : mantissa = 2 ^ 52 → -1074 < exponent → (2 ^ 52 : ℚ) - 1 / 4 ≤ x / 2 ^ exponent)
    (h : 0 < mantissa) : (Decimal.Rounding.of mantissa exponent).Contains x := by
  have hpos : (0 : ℚ) < 2 ^ exponent := zpow_pos two_pos _
  have hscaled (k : ℚ) : k * (2 ^ exponent / 4) = k / 4 * 2 ^ exponent := by ring
  have hup : ((Decimal.Rounding.of mantissa exponent).high / 4 : ℚ) = mantissa + 1 / 2 := by
    rw [Decimal.Rounding.high_of]
    ring
  -- below a power of two the doubles lie closer together, and its last place is even
  by_cases hp : mantissa = 2 ^ 52 ∧ -1074 < exponent
  · have hdown : ((Decimal.Rounding.of mantissa exponent).low / 4 : ℚ) = 2 ^ 52 - 1 / 4 := by
      rw [hp.1, Decimal.Rounding.low_of_power hp.2]
      norm_num
    have heven : (Decimal.Rounding.of mantissa exponent).closed = true := by
      rw [Decimal.Rounding.of, hp.1]
      rfl
    refine ⟨?_, ?_, .inl heven⟩ <;> rw [Decimal.Rounding.scale_of, hscaled]
    · rw [hdown, ← le_div_iff₀ hpos]
      exact hpower hp.1 hp.2
    · rwa [hup, ← div_le_iff₀ hpos]
  · have hdown : ((Decimal.Rounding.of mantissa exponent).low / 4 : ℚ) = mantissa - 1 / 2 := by
      rw [Decimal.Rounding.low_of_not_power h hp]
      ring
    refine ⟨?_, ?_, hinner.imp decide_eq_true fun hstrict => ?_⟩ <;>
      rw [Decimal.Rounding.scale_of, hscaled]
    · rwa [hdown, ← le_div_iff₀ hpos]
    · rwa [hup, ← div_le_iff₀ hpos]
    · rw [hscaled, hdown, hup, ← lt_div_iff₀ hpos, ← div_lt_iff₀ hpos]
      exact hstrict

/-- The exponent that leaves 53 binary places of the number, or fewer if it is the least one. -/
theorem exists_exponent (hx : 0 < x) : ∃ e : Int, -1074 ≤ e ∧ x / 2 ^ e < 2 ^ 53 ∧
    (2 ^ 52 ≤ x / 2 ^ e ∨ e = -1074) := by
  obtain ⟨e, he⟩ : ∃ e, e = max (Int.log 2 x - 52) (-1074) := ⟨_, rfl⟩
  have hpos : (0 : ℚ) < 2 ^ e := zpow_pos two_pos _
  refine ⟨e, by omega, ?_, ?_⟩
  · rw [div_lt_iff₀ hpos, ← zpow_natCast, ← zpow_add₀ two_ne_zero]
    refine (Int.lt_zpow_succ_log_self Nat.one_lt_two x).trans_le ?_
    exact zpow_le_zpow_right₀ one_le_two (by omega)
  · rcases le_total (-1074) (Int.log 2 x - 52) with h | h
    · left
      rw [le_div_iff₀ hpos, ← zpow_natCast, ← zpow_add₀ two_ne_zero]
      refine le_trans ?_ (Int.zpow_log_le_self Nat.one_lt_two hx)
      exact zpow_le_zpow_right₀ one_le_two (by omega)
    · exact .inr (by omega)

/-- The exponent of the double is that of the number, or one more where the mantissa is rounded up
to a power of two. -/
theorem exists_contains (hx : 2 ^ (-1075 : Int) < x) :
    ∃ mantissa exponent, Scaled mantissa exponent ∧
      (Decimal.Rounding.of mantissa exponent).Contains x := by
  have hx0 : 0 < x := (zpow_pos two_pos _).trans hx
  obtain ⟨e, he, hlt, hge⟩ := exists_exponent hx0
  have hpos : (0 : ℚ) < 2 ^ e := zpow_pos two_pos _
  -- the number in units of the last place
  obtain ⟨y, hy⟩ : ∃ y, y = x / 2 ^ e := ⟨_, rfl⟩
  rw [← hy] at hlt hge
  obtain ⟨n, hlow, hhigh, hinner⟩ := exists_nearest_nat (hy ▸ (div_pos hx0 hpos).le : 0 ≤ y)
  have hle : n ≤ 2 ^ 53 := by
    have hn : (n : ℚ) < 2 ^ 53 + 1 := by linarith
    exact Nat.le_of_lt_succ (by exact_mod_cast hn)
  have hfull : 2 ^ 52 ≤ n ∨ e = -1074 := by
    refine hge.imp_left fun hge => ?_
    have hn : (2 ^ 52 : ℚ) < n + 1 := by linarith
    exact Nat.le_of_lt_succ (by exact_mod_cast hn)
  have hn : 0 < n := by
    refine Nat.pos_of_ne_zero fun hzero => ?_
    obtain rfl : e = -1074 := hfull.resolve_left (by omega)
    rw [hzero, Nat.cast_zero, zero_add, hy, div_le_iff₀ hpos] at hhigh
    refine hhigh.not_gt (lt_of_eq_of_lt ?_ hx)
    rw [show (-1075 : Int) = -1 + -1074 from rfl, zpow_add₀ two_ne_zero, zpow_neg_one, one_div]
  -- a mantissa that has been rounded up to 54 places is halved
  rcases hle.lt_or_eq with hn53 | rfl
  · refine ⟨n, e, ⟨hn, hn53, by omega, hfull⟩, ?_⟩
    rw [hy] at hlow hhigh hinner hge
    refine contains_of_near hlow hhigh hinner (fun _ hlt => ?_) hn
    linarith [hge.resolve_right hlt.ne']
  · have hhalf : x / 2 ^ (e + 1) = y / 2 := by
      rw [hy, zpow_add_one₀ two_ne_zero, div_div]
    push_cast at hlow
    refine ⟨2 ^ 52, e + 1, ⟨by decide, by decide, by omega, .inl le_rfl⟩, ?_⟩
    refine contains_of_near ?_ ?_ (.inl rfl) (fun _ _ => ?_) (by decide) <;> rw [hhalf] <;>
      push_cast <;> linarith

end Cover

/-! The neighbours of a double lie beyond the ends of its interval. -/

section Neighbours
variable {mantissa mantissa' : Nat} {exponent exponent' : Int} {q w : ℚ}

/-- A double with no smaller exponent is a multiple of the last place, and one with a smaller
exponent lies below all full mantissas. -/
theorem Scaled.multiple_or_le (h : Scaled mantissa' exponent') (exponent : Int) :
    (∃ k : Nat, (mantissa' * 2 ^ exponent' : ℚ) = k * 2 ^ exponent) ∨
      -1074 < exponent ∧ (mantissa' * 2 ^ exponent' : ℚ) ≤ (2 ^ 52 - 1 / 2) * 2 ^ exponent := by
  rcases le_or_gt exponent exponent' with he | he
  · obtain ⟨shift, rfl⟩ : ∃ shift : Nat, exponent' = exponent + shift :=
      ⟨(exponent' - exponent).toNat, by omega⟩
    refine .inl ⟨mantissa' * 2 ^ shift, ?_⟩
    rw [zpow_add₀ two_ne_zero, zpow_natCast]
    push_cast
    ring
  · have hm : (mantissa' : ℚ) ≤ 2 ^ 53 - 1 := by
      have hsucc : (mantissa' + 1 : ℚ) ≤ 2 ^ 53 := by exact_mod_cast h.lt
      linarith
    refine .inr ⟨by have := h.least; omega, ?_⟩
    calc (mantissa' * 2 ^ exponent' : ℚ) ≤ (2 ^ 53 - 1) * 2 ^ (exponent - 1) := by
          refine mul_le_mul hm (zpow_le_zpow_right₀ one_le_two (by omega)) ?_ (by norm_num)
          exact zpow_nonneg zero_le_two _
      _ = (2 ^ 52 - 1 / 2) * 2 ^ exponent := by
          rw [zpow_sub_one₀ two_ne_zero]
          ring

theorem Scaled.full_of_lt (h : Scaled mantissa exponent) (he : -1074 < exponent) :
    2 ^ 52 ≤ mantissa :=
  h.full.resolve_right he.ne'

/-- The midpoint with a double below is at most the lower end. -/
theorem Scaled.add_le_low (h : Scaled mantissa exponent)
    (hw : w ≤ 0 ∨ ∃ m e, Scaled m e ∧ w = m * 2 ^ e) (hlt : w < mantissa * 2 ^ exponent) :
    w + mantissa * 2 ^ exponent ≤ 2 * ((Decimal.Rounding.of mantissa exponent).low *
      2 ^ (Decimal.Rounding.of mantissa exponent).scale) := by
  have hpos : (0 : ℚ) < 2 ^ exponent := zpow_pos two_pos _
  have hone : (1 : ℚ) ≤ mantissa := by exact_mod_cast h.pos
  have hlow := Decimal.Rounding.low_of_ge mantissa exponent
  rw [Decimal.Rounding.scale_of]
  -- it is enough to compare in units of the last place
  suffices hunit : ∃ k : ℚ, w ≤ k * 2 ^ exponent ∧
      k + mantissa ≤ (Decimal.Rounding.of mantissa exponent).low / 2 by
    obtain ⟨k, hk, hle⟩ := hunit
    linarith [mul_le_mul_of_nonneg_right hle hpos.le]
  rcases hw with hneg | ⟨m, e, hs, rfl⟩
  · exact ⟨0, by rwa [zero_mul], by linarith⟩
  rcases hs.multiple_or_le exponent with ⟨k, hk⟩ | ⟨he, hle⟩
  · rw [hk] at hlt ⊢
    have hsucc : (k + 1 : ℚ) ≤ mantissa := by
      exact_mod_cast (mul_lt_mul_iff_left₀ hpos).1 hlt
    exact ⟨k, le_rfl, by linarith⟩
  · refine ⟨_, hle, ?_⟩
    rcases (h.full_of_lt he).eq_or_lt with rfl | hfull
    · rw [Decimal.Rounding.low_of_power he]
      norm_num
    · have hsucc : (2 ^ 52 + 1 : ℚ) ≤ mantissa := by exact_mod_cast hfull
      linarith

/-- The midpoint with a double above is at least the upper end. -/
theorem Scaled.high_le_add (h : Scaled mantissa exponent) (hs : Scaled mantissa' exponent')
    (hlt : (mantissa * 2 ^ exponent : ℚ) < mantissa' * 2 ^ exponent') :
    2 * ((Decimal.Rounding.of mantissa exponent).high *
        2 ^ (Decimal.Rounding.of mantissa exponent).scale) ≤
      (mantissa' * 2 ^ exponent' + mantissa * 2 ^ exponent : ℚ) := by
  have hpos : (0 : ℚ) < 2 ^ exponent := zpow_pos two_pos _
  rw [Decimal.Rounding.scale_of, Decimal.Rounding.high_of]
  rcases hs.multiple_or_le exponent with ⟨k, hk⟩ | ⟨he, hle⟩
  · rw [hk] at hlt ⊢
    have hsucc : (mantissa + 1 : ℚ) ≤ k := by
      exact_mod_cast (mul_lt_mul_iff_left₀ hpos).1 hlt
    linarith [mul_le_mul_of_nonneg_right hsucc hpos.le]
  · have hfull : (2 ^ 52 : ℚ) ≤ mantissa := by exact_mod_cast h.full_of_lt he
    have hbelow := (mul_lt_mul_iff_left₀ hpos).1 (hlt.trans_le hle)
    linarith

/-- In its interval a number is at least as near to the double as to any other, and as near to
another only if the last place is even. -/
theorem Scaled.abs_sub_le (h : Scaled mantissa exponent)
    (hq : (Decimal.Rounding.of mantissa exponent).Contains q)
    (hw : w ≤ 0 ∨ ∃ m e, Scaled m e ∧ w = m * 2 ^ e) :
    |q - mantissa * 2 ^ exponent| ≤ |q - w| ∧ (w ≠ mantissa * 2 ^ exponent →
      |q - mantissa * 2 ^ exponent| = |q - w| → mantissa % 2 = 0) := by
  obtain ⟨v, hv⟩ : ∃ v : ℚ, v = mantissa * 2 ^ exponent := ⟨_, rfl⟩
  obtain ⟨low, hlow⟩ : ∃ low : ℚ, low = (Decimal.Rounding.of mantissa exponent).low *
      2 ^ (Decimal.Rounding.of mantissa exponent).scale := ⟨_, rfl⟩
  obtain ⟨high, hhigh⟩ : ∃ high : ℚ, high = (Decimal.Rounding.of mantissa exponent).high *
      2 ^ (Decimal.Rounding.of mantissa exponent).scale := ⟨_, rfl⟩
  obtain ⟨hle, hge, hinner⟩ := hq
  rw [← hlow, ← hhigh] at hinner
  rw [← hlow] at hle
  rw [← hhigh] at hge
  rw [← hv]
  have heven : q = low ∨ q = high → mantissa % 2 = 0 := fun hend =>
    hinner.elim of_decide_eq_true fun hstrict =>
      hend.elim (fun he => absurd he hstrict.1.ne') fun he => absurd he hstrict.2.ne
  -- the midpoint lies on an end or beyond it, so that only the ends can be as near to both
  rcases lt_trichotomy w v with hlt | rfl | hlt
  · have hmid := h.add_le_low hw (hv ▸ hlt)
    rw [← hv, ← hlow] at hmid
    rw [abs_of_pos (by linarith : 0 < q - w)]
    refine ⟨abs_le.2 ⟨by linarith, by linarith⟩, fun _ he => heven (.inl ?_)⟩
    rcases abs_choice (q - v) with ha | ha <;> rw [ha] at he <;> linarith
  · exact ⟨le_rfl, fun hne => absurd rfl hne⟩
  · obtain ⟨m, e, hs, rfl⟩ : ∃ m e, Scaled m e ∧ w = m * 2 ^ e := by
      refine hw.resolve_left fun hneg => ?_
      have : 0 ≤ v := hv ▸ by positivity
      linarith
    have hmid := h.high_le_add hs (hv ▸ hlt)
    rw [← hv, ← hhigh] at hmid
    rw [abs_of_neg (by linarith : q - m * 2 ^ e < 0)]
    refine ⟨abs_le.2 ⟨by linarith, by linarith⟩, fun _ he => heven (.inr ?_)⟩
    rcases abs_choice (q - v) with ha | ha <;> rw [ha] at he <;> linarith

end Neighbours

/-! The greatest exponent that is left is that of a finite double up to half a place beyond it. -/

section Range
variable {mantissa : Nat} {exponent : Int} {q : ℚ}

theorem lt_beyond (h : Scaled mantissa exponent) (he : exponent ≤ 971)
    (hq : (Decimal.Rounding.of mantissa exponent).Contains q) : q < beyond := by
  obtain ⟨-, hhigh, hinner⟩ := hq.near
  have hpos : (0 : ℚ) < 2 ^ exponent := zpow_pos two_pos _
  have hunit : q / 2 ^ exponent < 2 ^ 53 - 1 / 2 := by
    rcases Nat.lt_or_eq_of_le (Nat.le_sub_one_of_lt h.lt) with hm | hm
    · have hnat : mantissa + 2 ≤ 2 ^ 53 := by omega
      have hcast : (mantissa + 2 : ℚ) ≤ 2 ^ 53 := by exact_mod_cast hnat
      linarith
    · -- the last place of the greatest mantissa is odd
      have hstrict := (hinner.resolve_left (by rw [hm]; decide)).2
      have hcast : (mantissa : ℚ) = 2 ^ 53 - 1 := by
        rw [hm]
        norm_num
      linarith
  rw [div_lt_iff₀ hpos] at hunit
  calc q < (2 ^ 53 - 1 / 2) * 2 ^ exponent := hunit
    _ ≤ (2 ^ 53 - 1 / 2) * 2 ^ (970 + 1 : Int) :=
        mul_le_mul_of_nonneg_left (zpow_le_zpow_right₀ one_le_two he) (by norm_num)
    _ = beyond := by
        rw [beyond, zpow_add_one₀ two_ne_zero]
        ring

theorem beyond_le (h : Scaled mantissa exponent) (he : 972 ≤ exponent)
    (hq : (Decimal.Rounding.of mantissa exponent).Contains q) : beyond ≤ q := by
  have hpos : (0 : ℚ) < 2 ^ exponent := zpow_pos two_pos _
  have hunit : (2 ^ 52 - 1 / 4 : ℚ) ≤ q / 2 ^ exponent := by
    rcases (h.full_of_lt (by omega)).eq_or_lt with rfl | hfull
    · exact hq.near_power (by omega)
    · have hsucc : (2 ^ 52 + 1 : ℚ) ≤ mantissa := by exact_mod_cast hfull
      linarith [hq.near.1]
  rw [le_div_iff₀ hpos] at hunit
  calc beyond = (2 ^ 52 - 1 / 4) * 2 ^ (970 + 1 + 1 : Int) := by
        rw [beyond, zpow_add_one₀ two_ne_zero, zpow_add_one₀ two_ne_zero]
        ring
    _ ≤ (2 ^ 52 - 1 / 4) * 2 ^ exponent :=
        mul_le_mul_of_nonneg_left (zpow_le_zpow_right₀ one_le_two he) (by norm_num)
    _ ≤ q := hunit

end Range

/-! Doubles by what they are unpacked into. -/

theorem unpack_infinity (sign : Sign) :
    (Float.ofModel (.pack (.infinity sign))).toModel.unpack = .infinity sign := by
  cases sign <;> rfl

theorem unpack_zero (sign : Sign) :
    (Float.ofModel (.pack (.zero sign))).toModel.unpack = .zero sign := by
  cases sign <;> rfl

theorem unpack_neg (x : Float) : (-x).toModel.unpack = x.toModel.unpack.neg := by
  change (Float.ofModel (.pack x.toModel.unpack.neg)).toModel.unpack = _
  cases hx : x.toModel.unpack with
  | notANumber => rfl
  | infinity sign => exact unpack_infinity (-sign)
  | zero sign => exact unpack_zero (-sign)
  | finite sign mantissa exponent h =>
    have hf : x.isFinite = true := congrArg UnpackedFloat.isFinite hx
    obtain ⟨sign', ⟨hu, -⟩ | ⟨m, e, hm, hu, hc, -⟩⟩ := unpack_of_isFinite hf
    · cases hx.symm.trans hu
    · cases hx.symm.trans hu
      exact unpack_ofModel_pack hc h

section Doubles
variable {x : Float} {q : ℚ} {sign : Sign} {f : UnpackedFloat}

theorem isFinite_neg (x : Float) : (-x).isFinite = x.isFinite := by
  change (-x).toModel.unpack.isFinite = x.toModel.unpack.isFinite
  rw [unpack_neg]
  cases x.toModel.unpack <;> rfl

theorem isInf_neg (x : Float) : (-x).isInf = x.isInf := by
  change (-x).toModel.unpack.isInf = x.toModel.unpack.isInf
  rw [unpack_neg]
  cases x.toModel.unpack <;> rfl

theorem number_neg (x : Float) : number (-x) = -number x := by
  rw [number, number, unpack_neg]
  cases x.toModel.unpack with
  | finite sign mantissa exponent h =>
    cases sign with
    | positive => rfl
    | negative => exact (neg_neg _).symm
  | _ => exact neg_zero.symm

theorem places_neg (x : Float) : places (-x) = places x := by
  rw [places, places, unpack_neg]
  cases x.toModel.unpack <;> rfl

theorem sign?_neg (x : Float) : sign? (-x) = (sign? x).map (-·) := by
  rw [sign?, sign?, unpack_neg]
  cases x.toModel.unpack <;> rfl

/-- A finite double is not positive, or it has a mantissa and an exponent. -/
theorem number_of_isFinite (hf : x.isFinite = true) :
    number x ≤ 0 ∨ ∃ mantissa exponent, Scaled mantissa exponent ∧
      number x = mantissa * 2 ^ exponent := by
  obtain ⟨sign, ⟨hu, -⟩ | ⟨mantissa, exponent, h, hu, hc, -⟩⟩ := unpack_of_isFinite hf
  · left
    rw [number, hu]
  · rw [number, hu]
    cases sign with
    | positive => exact .inr ⟨mantissa, exponent, hc.toScaled, rfl⟩
    | negative => exact .inl (neg_nonpos.2 (by positivity))

/-- Rounding to the nearest is the same on both sides of zero. -/
theorem IsNearest.neg (h : IsNearest q x) : IsNearest (-q) (-x) := by
  have hdist (y : Float) : |-q - number y| = |q - number (-y)| := by
    rw [number_neg, ← abs_neg]
    congr 1
    ring
  have hself : |-q - number (-x)| = |q - number x| := by rw [hdist, number_neg, number_neg, neg_neg]
  refine ⟨(isFinite_neg x).trans h.finite, fun y hy => ?_, fun y hy hne he => ?_⟩
  · rw [hself, hdist]
    exact h.nearest (-y) ((isFinite_neg y).trans hy)
  · rw [hself, hdist] at he
    rw [places_neg]
    refine h.even (-y) ((isFinite_neg y).trans hy) (fun heq => hne ?_) he
    rw [number_neg, ← heq, number_neg, neg_neg]

theorem IsRounded.neg (h : IsRounded .positive q x) : IsRounded .negative q (-x) where
  sign_eq := by
    rw [sign?_neg, h.sign_eq]
    rfl
  nearest hq := (h.nearest hq).neg
  infinite hq := (isInf_neg x).trans (h.infinite hq)

/-! From the interval of a double to the nearest double. -/

theorem lt_beyond_of_le (hq : q ≤ 2 ^ (-1075 : Int)) : q < beyond :=
  calc q ≤ 2 ^ (-1075 : Int) := hq
    _ ≤ 2 ^ (970 : Int) := zpow_le_zpow_right₀ one_le_two (by decide)
    _ < beyond := by
      rw [beyond]
      exact lt_mul_of_one_lt_left (zpow_pos two_pos _) (by norm_num)

/-- There is no double but zero that is as near to a number as small as this. -/
theorem isNearest_zero (hq0 : 0 ≤ q) (hq : q ≤ 2 ^ (-1075 : Int)) :
    IsNearest q (Float.ofModel (.pack (.zero .positive))) := by
  have hunpack := unpack_zero .positive
  have hnumber : number (Float.ofModel (.pack (.zero .positive))) = 0 := by rw [number, hunpack]
  have hplaces : places (Float.ofModel (.pack (.zero .positive))) = 0 := by rw [places, hunpack]
  refine ⟨congrArg UnpackedFloat.isFinite hunpack, fun y hy => ?_, fun _ _ _ _ => hplaces ▸ rfl⟩
  rw [hnumber, sub_zero, abs_of_nonneg hq0]
  rcases number_of_isFinite hy with hneg | ⟨mantissa, exponent, hs, hv⟩
  · exact (by linarith : q ≤ q - number y).trans (le_abs_self _)
  · have hleast : 2 * 2 ^ (-1075 : Int) ≤ number y := by
      have hone : (1 : ℚ) ≤ mantissa := by exact_mod_cast hs.pos
      calc 2 * (2 : ℚ) ^ (-1075 : Int) = 2 ^ (-1075 + 1 : Int) := by
            rw [zpow_add_one₀ two_ne_zero, mul_comm]
        _ ≤ 2 ^ exponent := zpow_le_zpow_right₀ one_le_two hs.least
        _ ≤ number y := hv ▸ le_mul_of_one_le_left (zpow_nonneg zero_le_two _) hone
    rw [abs_sub_comm]
    exact (by linarith : q ≤ number y - q).trans (le_abs_self _)

theorem isNearest_of_contains {mantissa : Nat} {exponent : Int} (hc : Canonical mantissa exponent)
    (h : 0 < mantissa) (hq : (Decimal.Rounding.of mantissa exponent).Contains q) :
    IsNearest q (Float.ofModel (.pack (.finite .positive mantissa exponent h))) := by
  have hunpack : (Float.ofModel (.pack (.finite .positive mantissa exponent h))).toModel.unpack =
      .finite .positive mantissa exponent h := unpack_ofModel_pack hc h
  have hnumber : number (Float.ofModel (.pack (.finite .positive mantissa exponent h))) =
      mantissa * 2 ^ exponent := by
    rw [number, hunpack]
    rfl
  have hplaces : places (Float.ofModel (.pack (.finite .positive mantissa exponent h))) =
      mantissa := by
    rw [places, hunpack]
  refine ⟨congrArg UnpackedFloat.isFinite hunpack, fun y hy => ?_, fun y hy hne he => ?_⟩
  · rw [hnumber]
    exact (hc.toScaled.abs_sub_le hq (number_of_isFinite hy)).1
  · rw [hnumber] at hne he
    rw [hplaces]
    exact (hc.toScaled.abs_sub_le hq (number_of_isFinite hy)).2 hne he

/-- A mantissa with too great an exponent makes up infinity. -/
theorem ofModel_pack_of_ge {mantissa : Nat} {exponent : Int} (he : 972 ≤ exponent)
    (h : 0 < mantissa) : Float.ofModel (.pack (.finite sign mantissa exponent h)) =
      Float.ofModel (.pack (.infinity sign)) := by
  have hbiased : 2 ^ Format.binary64.exponentBits ≤
      (exponent + Format.binary64.exponentBias + (52 : Nat)).toNat + 1 := by
    rw [exponentBias_binary64]
    change 2048 ≤ _
    omega
  refine ofModel_pack ?_
  rw [UnpackedFloat.pack.eq_def]
  exact if_pos hbiased

/-- What rounds a number is, as a double, the number rounded. -/
theorem Rounds.isRounded (hr : Rounds .positive q f) (hq0 : 0 ≤ q) :
    IsRounded .positive q (Float.ofModel (.pack f)) := by
  rcases le_or_gt q (2 ^ (-1075 : Int)) with hq | hq
  · rw [hr.of_le hq]
    refine ⟨?_, fun _ => isNearest_zero hq0 hq, fun hge => ?_⟩
    · rw [sign?, unpack_zero]
    · exact absurd (lt_beyond_of_le hq) hge.not_gt
  obtain ⟨mantissa, exponent, hs, hc⟩ := exists_contains hq
  rw [hr.of_contains hs hc hs.pos]
  rcases le_or_gt exponent 971 with he | he
  · have hcanonical : Canonical mantissa exponent := ⟨hs, he⟩
    refine ⟨?_, fun _ => isNearest_of_contains hcanonical _ hc, fun hge => ?_⟩
    · rw [sign?, unpack_ofModel_pack hcanonical]
    · exact absurd (lt_beyond hs he hc) hge.not_gt
  · have hunpack := unpack_infinity .positive
    rw [ofModel_pack_of_ge he]
    refine ⟨?_, fun hlt => ?_, fun _ => congrArg UnpackedFloat.isInf hunpack⟩
    · rw [sign?, hunpack]
    · exact absurd (beyond_le hs he hc) hlt.not_ge

end Doubles

end StackCalc.Binary64
