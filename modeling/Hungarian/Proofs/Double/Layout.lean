import Mathlib
import Hungarian.Arithmetic.Double

/-!
# The bits of a number

A number of 64 bits is read as one of four kinds: not a number, an infinity, a zero, or a finite
number with a mantissa and an exponent. Each finite number has exactly one mantissa and exponent, and
its bits below the sign count the finite numbers of its sign by rising magnitude, which is what the
total order compares.
-/

namespace Hungarian.Double

open Float.Model (Format UnpackedFloat)
open Float.Model.UnpackedFloat

structure IsCanonical (mantissa : Nat) (exponent : Int) : Prop where
  mantissa_lt : mantissa < 2 ^ 53
  le_exponent : -1074 ≤ exponent
  exponent_le : exponent ≤ 971
  full : 2 ^ 52 ≤ mantissa ∨ exponent = -1074

def kind (x : Float) : UnpackedFloat := x.toModel.unpack

def ofKind (unpacked : UnpackedFloat) : Float := .ofModel (.pack unpacked)

def WellFormed : UnpackedFloat → Prop
  | .finite _ mantissa exponent _ => IsCanonical mantissa exponent
  | _ => True

def isNegative : UnpackedFloat → Bool
  | .notANumber => false
  | .infinity sign => sign == .negative
  | .zero sign => sign == .negative
  | .finite sign _ _ _ => sign == .negative

def magnitude : UnpackedFloat → Nat
  | .notANumber => 2047 * 2 ^ 52 + 2 ^ 51
  | .infinity _ => 2047 * 2 ^ 52
  | .zero _ => 0
  | .finite _ mantissa exponent _ => (exponent + 1074).toNat * 2 ^ 52 + mantissa

/-- A finite number is a zero or it has a mantissa. -/
@[elab_as_elim]
theorem isFinite_cases {motive : (u : UnpackedFloat) → u.isFinite = true → Prop}
    (zero : ∀ sign, motive (.zero sign) rfl)
    (finite : ∀ sign mantissa exponent hpos, motive (.finite sign mantissa exponent hpos) rfl)
    (u : UnpackedFloat) (h : u.isFinite = true) : motive u h := by
  cases u with
  | notANumber => exact absurd h Bool.false_ne_true
  | infinity => exact absurd h Bool.false_ne_true
  | zero sign => exact zero sign
  | finite sign mantissa exponent hpos => exact finite sign mantissa exponent hpos

/-- The three fields of a number, read as one integer. -/
theorem toNat_packComponents (sign : Sign) (exponent : BitVec 11) (mantissa : BitVec 52) :
    (packComponents Format.binary64 sign exponent mantissa).toNat =
      (if sign == .negative then 2 ^ 63 else 0) + (exponent.toNat * 2 ^ 52 + mantissa.toNat) := by
  have hhigh : (sign.toBitVec ++ exponent).toNat = sign.toBitVec.toNat * 2 ^ 11 + exponent.toNat := by
    rw [BitVec.toNat_append, ← Nat.shiftLeft_add_eq_or_of_lt exponent.isLt, Nat.shiftLeft_eq]
  unfold packComponents
  rw [BitVec.toNat_append, ← Nat.shiftLeft_add_eq_or_of_lt mantissa.isLt, Nat.shiftLeft_eq, hhigh]
  cases sign with
  | negative =>
      change (1 * 2 ^ 11 + exponent.toNat) * 2 ^ 52 + mantissa.toNat =
        2 ^ 63 + (exponent.toNat * 2 ^ 52 + mantissa.toNat)
      omega
  | positive =>
      change (0 * 2 ^ 11 + exponent.toNat) * 2 ^ 52 + mantissa.toNat =
        0 + (exponent.toNat * 2 ^ 52 + mantissa.toNat)
      omega

theorem toNat_append_one (mantissa : BitVec 52) :
    (1#1 ++ mantissa).toNat = 2 ^ 52 + mantissa.toNat := by
  rw [BitVec.toNat_append, ← Nat.shiftLeft_add_eq_or_of_lt mantissa.isLt, Nat.shiftLeft_eq]
  rfl

section Pack

variable {sign : Sign} {mantissa : Nat} {exponent : Int} {hpos : 0 < mantissa}

/-- The exponent field is one below the exponent for a full mantissa, whose highest bit is left
out. -/
theorem pack_finite (h : IsCanonical mantissa exponent) :
    pack Format.binary64 (.finite sign mantissa exponent hpos) =
      if 2 ^ 52 ≤ mantissa then
        packComponents Format.binary64 sign (BitVec.ofNat 11 (exponent + 1075).toNat)
          (BitVec.ofNat 52 mantissa)
      else
        packComponents Format.binary64 sign 0#11 (BitVec.ofNat 52 mantissa) := by
  obtain ⟨hmantissa, hlow, hhigh, hfull⟩ := h
  have hexponent : (exponent + (Format.binary64.exponentBias : Int) +
      (Format.binary64.mantissaBitsWithoutImplicit : Int)) = exponent + 1075 := by
    change exponent + 1023 + 52 = exponent + 1075
    omega
  have hfits : ¬2 ^ Format.binary64.exponentBits ≤ (exponent + 1075).toNat + 1 := by
    change ¬2 ^ 11 ≤ _
    omega
  have hlog : mantissa.log2 + 1 = Format.binary64.mantissaBits ↔ 2 ^ 52 ≤ mantissa := by
    change mantissa.log2 + 1 = 53 ↔ _
    rw [← Nat.le_log2 hpos.ne']
    have hle : mantissa.log2 < 53 := (Nat.log2_lt hpos.ne').mpr hmantissa
    omega
  unfold pack
  dsimp only
  rw [hexponent, if_neg hfits]
  simp only [hlog]

theorem toNat_pack_finite (h : IsCanonical mantissa exponent) :
    (pack Format.binary64 (.finite sign mantissa exponent hpos)).toNat =
      (if sign == .negative then 2 ^ 63 else 0) +
        magnitude (.finite sign mantissa exponent hpos) := by
  obtain ⟨hmantissa, hlow, hhigh, hfull⟩ := h
  rw [pack_finite ⟨hmantissa, hlow, hhigh, hfull⟩, magnitude]
  split
  · rw [toNat_packComponents, BitVec.toNat_ofNat, BitVec.toNat_ofNat]
    omega
  · rw [toNat_packComponents, BitVec.toNat_ofNat, BitVec.toNat_ofNat]
    omega

/-- An exponent field between the lowest and the highest one calls for a full mantissa. -/
theorem unpack_packComponents_full {field : BitVec 11} {digits : BitVec 52}
    (hlow : 0 < field.toNat) (hhigh : field.toNat < 2047) :
    unpack Format.binary64 (packComponents Format.binary64 sign field digits) =
      .finite sign (2 ^ 52 + digits.toNat) (field.toNat - 1075)
        (Nat.add_pos_left (Nat.two_pow_pos 52) _) := by
  have hinfinite : field ≠ -1#11 := BitVec.toNat_ne.mpr hhigh.ne
  have hzero : field ≠ 0#11 := BitVec.toNat_ne.mpr hlow.ne'
  unfold unpack
  simp only [unpackMantissa_packComponents, unpackExponent_packComponents,
    unpackSign_packComponents, Sign.ofBitVec_toBitVec, hinfinite, hzero, if_false,
    toNat_append_one]
  rfl

/-- The lowest exponent field is that of the narrowest grid. -/
theorem unpack_packComponents_narrowest {digits : BitVec 52} (hdigits : 0 < digits.toNat) :
    unpack Format.binary64 (packComponents Format.binary64 sign 0#11 digits) =
      .finite sign digits.toNat (-1074) hdigits := by
  have hzero : digits ≠ 0#52 := BitVec.toNat_ne.mpr hdigits.ne'
  have hinfinite : (0#11) ≠ -1#11 := by decide
  unfold unpack
  simp only [unpackMantissa_packComponents, unpackExponent_packComponents,
    unpackSign_packComponents, Sign.ofBitVec_toBitVec, hinfinite, hzero, if_false, if_true,
    dite_false]
  rfl

/-- Packing loses nothing of a canonical number. -/
theorem unpack_pack_finite (h : IsCanonical mantissa exponent) :
    unpack Format.binary64 (pack Format.binary64 (.finite sign mantissa exponent hpos)) =
      .finite sign mantissa exponent hpos := by
  obtain ⟨hmantissa, hlow, hhigh, hfull⟩ := h
  rw [pack_finite ⟨hmantissa, hlow, hhigh, hfull⟩]
  by_cases hsize : 2 ^ 52 ≤ mantissa
  · have hfield : (BitVec.ofNat 11 (exponent + 1075).toNat).toNat = (exponent + 1075).toNat := by
      rw [BitVec.toNat_ofNat]
      omega
    have hdigits : 2 ^ 52 + (BitVec.ofNat 52 mantissa).toNat = mantissa := by
      rw [BitVec.toNat_ofNat]
      omega
    rw [if_pos hsize, unpack_packComponents_full (by omega) (by omega)]
    congr 1
    omega
  · obtain rfl := hfull.resolve_left hsize
    have hdigits : (BitVec.ofNat 52 mantissa).toNat = mantissa := by
      rw [BitVec.toNat_ofNat]
      omega
    rw [if_neg hsize, unpack_packComponents_narrowest (by omega)]
    congr 1

end Pack

/-- A finite number has a canonical mantissa and exponent. -/
theorem isCanonical_of_unpack {bits : BitVec 64} {sign : Sign} {mantissa : Nat} {exponent : Int}
    {hpos : 0 < mantissa}
    (h : unpack Format.binary64 bits = .finite sign mantissa exponent hpos) :
    IsCanonical mantissa exponent := by
  have hlow := (@unpackMantissa Format.binary64 bits).isLt
  have hhigh := (@unpackExponent Format.binary64 bits).isLt
  change _ < 2 ^ 52 at hlow
  change _ < 2 ^ 11 at hhigh
  unfold unpack at h
  dsimp only at h
  split at h
  · split at h <;> cases h
  · next hinfinite =>
      have hne : (@unpackExponent Format.binary64 bits).toNat ≠ 2047 := fun heq =>
        hinfinite (BitVec.eq_of_toNat_eq heq)
      split at h
      · next hzero =>
          split at h
          · cases h
          · cases h
            rw [hzero]
            exact ⟨by omega, by decide, by decide, .inr rfl⟩
      · next hzero =>
          have hne' : (@unpackExponent Format.binary64 bits).toNat ≠ 0 := fun heq =>
            hzero (BitVec.eq_of_toNat_eq heq)
          cases h
          have hmantissa := toNat_append_one (@unpackMantissa Format.binary64 bits)
          have hbias : ((Format.binary64.exponentBias : Int) +
              (Format.binary64.mantissaBitsWithoutImplicit : Int)) = 1075 := rfl
          rw [hbias]
          constructor <;> omega

theorem wellFormed_kind (x : Float) : WellFormed (kind x) := by
  cases hkind : kind x with
  | finite => exact isCanonical_of_unpack hkind
  | _ => trivial

@[simp]
theorem ofKind_kind (x : Float) : ofKind (kind x) = x :=
  Float.toBits_inj.mp (UInt64.toBitVec_inj.mp (pack_unpack_of_valid x.toModel.valid))

theorem kind_ofKind {unpacked : UnpackedFloat} (h : WellFormed unpacked) :
    kind (ofKind unpacked) = unpacked := by
  cases unpacked with
  | finite => exact unpack_pack_finite h
  | notANumber => rfl
  | infinity sign => cases sign <;> rfl
  | zero sign => cases sign <;> rfl

@[simp]
theorem kind_zero : kind (0 : Float) = .zero .positive := by
  have hzero : (0 : Float) = ofKind (.zero .positive) := by decide +kernel
  rw [hzero]
  exact kind_ofKind trivial

theorem toNat_toBits_ofKind {unpacked : UnpackedFloat} (h : WellFormed unpacked) :
    (ofKind unpacked).toBits.toNat =
      (if isNegative unpacked then 2 ^ 63 else 0) + magnitude unpacked := by
  cases unpacked with
  | finite => exact toNat_pack_finite h
  | notANumber => rfl
  | infinity sign => cases sign <;> rfl
  | zero sign => cases sign <;> rfl

theorem magnitude_lt {unpacked : UnpackedFloat} (h : WellFormed unpacked) :
    magnitude unpacked < 2 ^ 63 := by
  cases unpacked with
  | finite sign mantissa exponent hpos =>
      obtain ⟨hmantissa, hlow, hhigh, -⟩ := h
      change (exponent + 1074).toNat * 2 ^ 52 + mantissa < 2 ^ 63
      omega
  | notANumber => decide
  | infinity sign => exact (by decide : 2047 * 2 ^ 52 < 2 ^ 63)
  | zero sign => exact (by decide : 0 < 2 ^ 63)

def rank (x : Float) : ℤ :=
  if isNegative (kind x) then -1 - magnitude (kind x) else magnitude (kind x)

theorem toNat_orderKey (x : Float) : ((orderKey x).toNat : ℤ) = 2 ^ 63 + rank x := by
  have hbits := toNat_toBits_ofKind (wellFormed_kind x)
  have hless := magnitude_lt (wellFormed_kind x)
  rw [ofKind_kind] at hbits
  have hsign : x.toBits >>> 63 = 1 ↔ isNegative (kind x) = true := by
    rw [← UInt64.toNat_inj, UInt64.toNat_shiftRight, Nat.shiftRight_eq_div_pow]
    change x.toBits.toNat / 2 ^ 63 = 1 ↔ _
    cases hnegative : isNegative (kind x) with
    | false =>
        rw [hnegative, if_neg Bool.false_ne_true] at hbits
        simp only [Bool.false_eq_true, iff_false]
        omega
    | true =>
        rw [hnegative, if_pos rfl] at hbits
        simp only [iff_true]
        omega
  unfold orderKey rank
  dsimp only
  split
  · next hshift =>
      have hnegative := hsign.mp hshift
      rw [if_pos hnegative] at hbits ⊢
      rw [UInt64.toNat_not, hbits]
      change ((2 ^ 64 - 1 - _ : Nat) : ℤ) = _
      omega
  · next hshift =>
      have hnegative := mt hsign.mpr hshift
      rw [if_neg hnegative] at hbits ⊢
      have hor : (x.toBits.toNat ||| 2 ^ 63) = 2 ^ 63 + x.toBits.toNat := by
        rw [Nat.lor_comm, ← Nat.mul_one (2 ^ 63)]
        exact (Nat.two_pow_add_eq_or_of_lt (by omega) 1).symm
      rw [UInt64.toNat_or]
      change ((x.toBits.toNat ||| 2 ^ 63 : Nat) : ℤ) = _
      rw [hor]
      omega

theorem precedes_eq (x y : Float) : CostArithmetic.precedes x y = decide (rank x < rank y) := by
  have hiff : orderKey x < orderKey y ↔ rank x < rank y := by
    have hx := toNat_orderKey x
    have hy := toNat_orderKey y
    rw [UInt64.lt_iff_toNat_lt]
    omega
  exact decide_eq_decide.mpr hiff

end Hungarian.Double
