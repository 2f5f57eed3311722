import Mathlib

/-!
The finite doubles as mantissas and exponents, and their bits.
-/
namespace StackCalc.Binary64

open Float.Model (Format UnpackedFloat)
open Float.Model.UnpackedFloat hiding pack unpack

/-- A mantissa and an exponent as rounding leaves them: there are 53 binary places, and only the
smallest exponent leaves the first of them empty. -/
structure Scaled (mantissa : Nat) (exponent : Int) : Prop where
  pos : 0 < mantissa
  lt : mantissa < 2 ^ 53
  least : -1074 ≤ exponent
  full : 2 ^ 52 ≤ mantissa ∨ exponent = -1074

/-- The mantissa and the exponent of a finite double other than zero. -/
structure Canonical (mantissa : Nat) (exponent : Int) : Prop extends Scaled mantissa exponent where
  greatest : exponent ≤ 971

theorem mantissaBits_binary64 : Format.binary64.mantissaBits = 53 := rfl

theorem exponentBias_binary64 : Format.binary64.exponentBias = 1023 := rfl

/-! The fields of a bit pattern. -/

theorem sign_ofBitVec_toBitVec (sign : Sign) : Sign.ofBitVec sign.toBitVec = sign := by
  cases sign <;> rfl

theorem sign_toBitVec_ofBitVec (b : BitVec 1) : (Sign.ofBitVec b).toBitVec = b := by
  revert b
  decide

theorem toNat_one_append (b : BitVec 52) : (1#1 ++ b).toNat = 2 ^ 52 + b.toNat := by
  rw [BitVec.toNat_append, ← Nat.shiftLeft_add_eq_or_of_lt b.isLt]
  rfl

theorem unpackSign_packComponents (sign : Sign) (biased : BitVec 11) (fraction : BitVec 52) :
    unpackSign (packComponents Format.binary64 sign biased fraction) = sign.toBitVec := by
  simp only [packComponents, unpackSign, BitVec.extractLsb]
  ext i hi
  grind

theorem packComponents_unpack (b : BitVec Format.binary64.numBits) :
    packComponents Format.binary64 (Sign.ofBitVec (unpackSign b)) (unpackExponent b)
      (unpackMantissa b) = b := by
  simp only [packComponents, sign_toBitVec_ofBitVec, unpackSign, unpackExponent, unpackMantissa,
    BitVec.extractLsb]
  ext i hi
  grind

/-! The smallest doubles have no exponent; all others have a first place that is not written. -/

section Packing
variable {sign : Sign} {biased : BitVec 11} {fraction : BitVec 52}

theorem pack_subnormal (h : 0 < fraction.toNat) :
    UnpackedFloat.pack Format.binary64 (.finite sign fraction.toNat (-1074) h) =
      packComponents Format.binary64 sign 0#11 fraction := by
  have hlog : fraction.toNat.log2 + 1 ≠ Format.binary64.mantissaBits := by
    have hlt : fraction.toNat.log2 < 52 := (Nat.log2_lt h.ne').2 fraction.isLt
    rw [mantissaBits_binary64]
    omega
  rw [UnpackedFloat.pack]
  simp only
  rw [if_neg (by decide), if_neg hlog, BitVec.ofNat_toNat, BitVec.setWidth_eq]

theorem pack_normal (hmax : biased.toNat < 2047) (h : 0 < (1#1 ++ fraction).toNat) :
    UnpackedFloat.pack Format.binary64
        (.finite sign (1#1 ++ fraction).toNat (biased.toNat - 1075) h) =
      packComponents Format.binary64 sign biased fraction := by
  have hlog : (1#1 ++ fraction).toNat.log2 + 1 = Format.binary64.mantissaBits := by
    have hlt := fraction.isLt
    rw [mantissaBits_binary64, Nat.add_right_cancel_iff, Nat.log2_eq_iff h.ne', toNat_one_append]
    omega
  have hbiased : ((biased.toNat : Int) - 1075 + Format.binary64.exponentBias + (52 : Nat)).toNat =
      biased.toNat := by
    rw [exponentBias_binary64]
    omega
  rw [UnpackedFloat.pack]
  simp only
  rw [hbiased, if_neg (by omega), if_pos hlog, BitVec.ofNat_toNat,
    BitVec.setWidth_eq, BitVec.ofNat_toNat, BitVec.setWidth_append_eq_right]

theorem unpack_subnormal (h : 0 < fraction.toNat) :
    UnpackedFloat.unpack Format.binary64 (packComponents Format.binary64 sign 0#11 fraction) =
      .finite sign fraction.toNat (-1074) h := by
  have hne : fraction ≠ 0#52 := by
    rintro rfl
    exact h.ne rfl
  rw [UnpackedFloat.unpack]
  simp only [unpackSign_packComponents, unpackExponent_packComponents,
    unpackMantissa_packComponents, sign_ofBitVec_toBitVec]
  rw [if_neg (by decide), if_pos trivial, dif_neg hne]
  rfl

theorem unpack_normal (hmin : 0 < biased.toNat) (hmax : biased.toNat < 2047)
    (h : 0 < (1#1 ++ fraction).toNat) :
    UnpackedFloat.unpack Format.binary64 (packComponents Format.binary64 sign biased fraction) =
      .finite sign (1#1 ++ fraction).toNat (biased.toNat - 1075) h := by
  have hne : biased ≠ 0#11 := by
    rintro rfl
    exact hmin.ne rfl
  have hne' : biased ≠ -1#11 := by
    rintro rfl
    exact hmax.ne rfl
  rw [UnpackedFloat.unpack]
  simp only [unpackSign_packComponents, unpackExponent_packComponents,
    unpackMantissa_packComponents, sign_ofBitVec_toBitVec]
  rw [if_neg hne', if_neg hne]
  rfl

/-- A double is of the one kind or of the other. -/
theorem Canonical.fields {mantissa : Nat} {exponent : Int} (h : Canonical mantissa exponent) :
    ∃ fraction : BitVec 52, fraction.toNat = mantissa ∧ exponent = -1074 ∨
      (1#1 ++ fraction).toNat = mantissa ∧ ∃ biased : BitVec 11,
        0 < biased.toNat ∧ biased.toNat < 2047 ∧ exponent = biased.toNat - 1075 := by
  have hlt := h.lt
  by_cases hfull : 2 ^ 52 ≤ mantissa
  · have hleast := h.least
    have hgreatest := h.greatest
    refine ⟨BitVec.ofNat 52 (mantissa - 2 ^ 52), .inr ⟨?_, BitVec.ofNat 11 (exponent + 1075).toNat,
      ?_⟩⟩
    · rw [toNat_one_append, BitVec.toNat_ofNat, Nat.mod_eq_of_lt (by omega)]
      omega
    · rw [BitVec.toNat_ofNat, Nat.mod_eq_of_lt (by omega)]
      omega
  · refine ⟨BitVec.ofNat 52 mantissa, .inl ⟨?_, h.full.resolve_left hfull⟩⟩
    rw [BitVec.toNat_ofNat, Nat.mod_eq_of_lt (by omega)]

theorem unpack_pack {mantissa : Nat} {exponent : Int} (hc : Canonical mantissa exponent)
    (h : 0 < mantissa) :
    UnpackedFloat.unpack Format.binary64
        (UnpackedFloat.pack Format.binary64 (.finite sign mantissa exponent h)) =
      .finite sign mantissa exponent h := by
  obtain ⟨fraction, ⟨rfl, rfl⟩ | ⟨rfl, biased, hmin, hmax, rfl⟩⟩ := hc.fields
  · rw [pack_subnormal, unpack_subnormal]
  · rw [pack_normal hmax, unpack_normal hmin hmax]

/-- What a pattern that is neither infinite nor no number is unpacked into is canonical, and is
packed into the pattern. -/
theorem unpackBits_of_isFinite {b : BitVec Format.binary64.numBits}
    (hf : (UnpackedFloat.unpack Format.binary64 b).isFinite = true) :
    ∃ sign, UnpackedFloat.unpack Format.binary64 b = .zero sign ∧
        UnpackedFloat.pack Format.binary64 (.zero sign) = b ∨
      ∃ mantissa exponent h,
        UnpackedFloat.unpack Format.binary64 b = .finite sign mantissa exponent h ∧
          Canonical mantissa exponent ∧
            UnpackedFloat.pack Format.binary64 (.finite sign mantissa exponent h) = b := by
  obtain ⟨sign, biased, fraction, rfl⟩ : ∃ sign biased fraction,
      b = packComponents Format.binary64 sign biased fraction :=
    ⟨_, _, _, (packComponents_unpack b).symm⟩
  refine ⟨sign, ?_⟩
  have hfraction : fraction.toNat < 2 ^ 52 := fraction.isLt
  have hbiased : biased.toNat < 2 ^ 11 := biased.isLt
  have hone := toNat_one_append fraction
  -- the exponent tells the kinds apart: the smallest, neither finite nor a number, or any other
  by_cases hmin : biased.toNat = 0
  · obtain rfl : biased = 0#11 := BitVec.eq_of_toNat_eq hmin
    by_cases hzero : fraction.toNat = 0
    · obtain rfl : fraction = 0#52 := BitVec.eq_of_toNat_eq hzero
      left
      cases sign <;> exact ⟨rfl, rfl⟩
    · have h : 0 < fraction.toNat := by omega
      exact .inr ⟨_, _, h, unpack_subnormal h, ⟨⟨h, by omega, by omega, .inr rfl⟩, by omega⟩,
        pack_subnormal h⟩
  · by_cases hmax : biased.toNat = 2047
    · obtain rfl : biased = -1#11 := BitVec.eq_of_toNat_eq hmax
      rw [UnpackedFloat.unpack] at hf
      simp only [unpackExponent_packComponents, if_true] at hf
      split at hf <;> cases hf
    · have h : 0 < (1#1 ++ fraction).toNat := by omega
      exact .inr ⟨_, _, h, unpack_normal (by omega) (by omega) h,
        ⟨⟨h, by omega, by omega, .inl (by omega)⟩, by omega⟩, pack_normal (by omega) h⟩

end Packing

/-! Doubles and what they are unpacked into. -/

theorem ofModel_pack {x : Float} {f : UnpackedFloat}
    (h : UnpackedFloat.pack Format.binary64 f = x.toModel.toBits.toBitVec) :
    Float.ofModel (.pack f) = x := by
  have hbits : (Float.Model.pack f).toBits = x.toModel.toBits := congrArg UInt64.ofBitVec h
  have hmodel : Float.Model.pack f = x.toModel := by
    cases hx : x.toModel
    rw [Float.Model.mk.injEq]
    rwa [hx] at hbits
  rw [hmodel]

/-- A finite double is made of what it is unpacked into. -/
theorem unpack_of_isFinite {x : Float} (hf : x.isFinite = true) :
    ∃ sign, x.toModel.unpack = .zero sign ∧ Float.ofModel (.pack (.zero sign)) = x ∨
      ∃ mantissa exponent h, x.toModel.unpack = .finite sign mantissa exponent h ∧
        Canonical mantissa exponent ∧
          Float.ofModel (.pack (.finite sign mantissa exponent h)) = x := by
  obtain ⟨sign, ⟨hu, hp⟩ | ⟨mantissa, exponent, h, hu, hc, hp⟩⟩ := unpackBits_of_isFinite hf
  · exact ⟨sign, .inl ⟨hu, ofModel_pack hp⟩⟩
  · exact ⟨sign, .inr ⟨mantissa, exponent, h, hu, hc, ofModel_pack hp⟩⟩

theorem ofModel_pack_of_infinity {x : Float} {sign : Sign}
    (h : x.toModel.unpack = .infinity sign) : Float.ofModel (.pack (.infinity sign)) = x := by
  refine ofModel_pack ?_
  rw [Float.Model.unpack, UnpackedFloat.unpack] at h
  have hb := packComponents_unpack x.toModel.toBits.toBitVec
  split at h
  next he =>
    split at h
    next hm =>
      cases h
      rw [he, hm] at hb
      exact hb
    next => cases h
  next =>
    split at h
    · split at h <;> cases h
    · cases h

/-- There is only one double that is not a number. -/
theorem ofModel_pack_of_notANumber {x : Float} (h : x.toModel.unpack = .notANumber) :
    Float.ofModel (.pack .notANumber) = x := by
  refine ofModel_pack ?_
  rw [Float.Model.unpack, UnpackedFloat.unpack] at h
  split at h
  next he =>
    split at h
    next => cases h
    next hm => exact (x.toModel.valid.eq_packedNaN he hm).symm
  next =>
    split at h
    · split at h <;> cases h
    · cases h

/-- A double is what it is unpacked into. -/
theorem ofModel_pack_unpack (x : Float) : Float.ofModel (.pack x.toModel.unpack) = x := by
  cases hu : x.toModel.unpack with
  | notANumber => exact ofModel_pack_of_notANumber hu
  | infinity sign => exact ofModel_pack_of_infinity hu
  | _ =>
    have hf : x.isFinite = true := congrArg UnpackedFloat.isFinite hu
    obtain ⟨sign, ⟨hu', hp⟩ | ⟨mantissa, exponent, h, hu', -, hp⟩⟩ := unpack_of_isFinite hf <;>
      rwa [← hu, hu']

section Made
variable {sign : Sign} {mantissa : Nat} {exponent : Int}

theorem unpack_ofModel_pack (hc : Canonical mantissa exponent) (h : 0 < mantissa) :
    (Float.ofModel (.pack (.finite sign mantissa exponent h))).toModel.unpack =
      .finite sign mantissa exponent h :=
  unpack_pack hc h

theorem neg_ofModel_pack (hc : Canonical mantissa exponent) (h : 0 < mantissa) :
    -Float.ofModel (.pack (.finite sign mantissa exponent h)) =
      Float.ofModel (.pack (.finite (-sign) mantissa exponent h)) := by
  change Float.ofModel (.pack (UnpackedFloat.neg _)) = _
  rw [unpack_ofModel_pack hc h, UnpackedFloat.neg]

end Made

end StackCalc.Binary64
