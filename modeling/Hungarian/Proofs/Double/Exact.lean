import Hungarian.Arithmetic.Exact
import Hungarian.Proofs.Double.Value

/-!
# Exact arithmetic on numbers of 64 bits

Where the result of an operation has 53 bits it is not rounded. A number denotes its value unless it
is the negative zero, so that numbers that denote the same value are the same, and all comparisons
are those of the values.
-/

namespace Hungarian.Double

open Float.Model (Format UnpackedFloat)
open Float.Model.UnpackedFloat

variable {x y : Float} {q r : ℚ} {u v : UnpackedFloat}

section Order

theorem mul_two_zpow_lt {m n : Nat} {e f : Int} (h : IsCanonical m e) (h' : IsCanonical n f)
    (hlt : (e + 1074).toNat * 2 ^ 52 + m < (f + 1074).toNat * 2 ^ 52 + n) :
    (m : ℚ) * 2 ^ e < n * 2 ^ f := by
  obtain ⟨hm, hlow, -, hfull⟩ := h
  obtain ⟨hn, hlow', -, hfull'⟩ := h'
  rcases lt_trichotomy e f with hef | rfl | hef
  · have hn' : 2 ^ 52 ≤ n := by omega
    calc (m : ℚ) * 2 ^ e < 2 ^ 53 * 2 ^ e := by
          refine mul_lt_mul_of_pos_right ?_ (two_zpow_pos e)
          exact_mod_cast hm
      _ = 2 ^ 52 * 2 ^ (e + 1) := by
          rw [zpow_add_one₀ two_ne_zero]
          ring
      _ ≤ 2 ^ 52 * 2 ^ f := by
          refine mul_le_mul_of_nonneg_left ?_ (by positivity)
          exact zpow_le_zpow_right₀ one_le_two (by omega)
      _ ≤ n * 2 ^ f := by
          refine mul_le_mul_of_nonneg_right ?_ (two_zpow_pos f).le
          exact_mod_cast hn'
  · refine mul_lt_mul_of_pos_right ?_ (two_zpow_pos e)
    have hmn : m < n := by omega
    exact_mod_cast hmn
  · omega

theorem valueOf_positive {m : Nat} {e : Int} (hpos : 0 < m) :
    valueOf (.finite .positive m e hpos) = m * 2 ^ e := rfl

theorem valueOf_negative {m : Nat} {e : Int} (hpos : 0 < m) :
    valueOf (.finite .negative m e hpos) = -(m * 2 ^ e) := by
  rw [valueOf, Sign.apply]
  push_cast
  ring

theorem valueOf_finite_lt {sign sign' : Sign} {m n : Nat} {e f : Int} {hm : 0 < m} {hn : 0 < n}
    (hu : IsCanonical m e) (hv : IsCanonical n f)
    (h : level (.finite sign m e hm) < level (.finite sign' n f hn)) :
    valueOf (.finite sign m e hm) < valueOf (.finite sign' n f hn) := by
  cases sign with
  | positive =>
      cases sign' with
      | positive =>
          rw [level_positive, level_positive] at h
          rw [valueOf_positive, valueOf_positive]
          exact mul_two_zpow_lt hu hv (by omega)
      | negative => exact absurd h (level_negative_neg.trans level_positive_pos).le.not_gt
  | negative =>
      cases sign' with
      | positive =>
          rw [valueOf_negative, valueOf_positive]
          exact (neg_lt_zero.mpr (by positivity)).trans (by positivity)
      | negative =>
          rw [level_negative, level_negative] at h
          rw [valueOf_negative, valueOf_negative, neg_lt_neg_iff]
          exact mul_two_zpow_lt hv hu (by omega)

/-- The level counts the finite numbers in the order of their values. -/
theorem valueOf_lt_of_level_lt (hu : WellFormed u) (hv : WellFormed v) (hu' : u.isFinite = true)
    (hv' : v.isFinite = true) (h : level u < level v) : valueOf u < valueOf v := by
  cases u, hu' using isFinite_cases with
  | zero sign =>
      rw [level_zero] at h
      cases v, hv' using isFinite_cases with
      | zero sign' =>
          rw [level_zero] at h
          exact absurd h (lt_irrefl 0)
      | finite sign' n f hpos =>
          cases sign' with
          | negative => exact absurd h level_negative_neg.le.not_gt
          | positive =>
              rw [valueOf_zero, valueOf_positive]
              positivity
  | finite sign m e hpos =>
      cases v, hv' using isFinite_cases with
      | zero sign' =>
          rw [level_zero] at h
          cases sign with
          | positive => exact absurd h level_positive_pos.le.not_gt
          | negative =>
              rw [valueOf_zero, valueOf_negative, neg_lt_zero]
              positivity
      | finite sign' n f hpos' => exact valueOf_finite_lt hu hv h

theorem eq_of_level_eq (hu : WellFormed u) (hv : WellFormed v) (hne : level u ≠ 0)
    (h : level u = level v) : u = v := by
  have hsign : isNegative u = isNegative v := by
    rw [Bool.eq_iff_iff, isNegative_iff_level_neg hne, isNegative_iff_level_neg (h ▸ hne), h]
  have hmagnitude : magnitude u = magnitude v := by
    unfold level at h
    rw [hsign] at h
    split at h <;> omega
  have hbits : (ofKind u).toBits = (ofKind v).toBits := by
    rw [← UInt64.toNat_inj, toNat_toBits_ofKind hu, toNat_toBits_ofKind hv, hsign, hmagnitude]
  rw [← kind_ofKind hu, ← kind_ofKind hv, Float.toBits_inj.mp hbits]

theorem eq_zero_of_level_eq_zero (hu' : u.isFinite = true) (h : level u = 0) :
    valueOf u = 0 := by
  cases u, hu' using isFinite_cases with
  | zero => rfl
  | finite sign m e hpos =>
      cases sign with
      | positive => exact absurd h level_positive_pos.ne'
      | negative => exact absurd h level_negative_neg.ne

theorem valueOf_lt_iff (hu : WellFormed u) (hv : WellFormed v) (hu' : u.isFinite = true)
    (hv' : v.isFinite = true) : valueOf u < valueOf v ↔ level u < level v := by
  refine ⟨fun hlt => ?_, valueOf_lt_of_level_lt hu hv hu' hv'⟩
  rcases lt_trichotomy (level u) (level v) with hless | heq | hgreater
  · exact hless
  · by_cases hzero : level u = 0
    · rw [eq_zero_of_level_eq_zero hu' hzero, eq_zero_of_level_eq_zero hv' (heq ▸ hzero)] at hlt
      exact absurd hlt (lt_irrefl 0)
    · rw [eq_of_level_eq hu hv hzero heq] at hlt
      exact absurd hlt (lt_irrefl _)
  · exact absurd hlt (valueOf_lt_of_level_lt hv hu hv' hu' hgreater).le.not_gt

theorem kind_ne_notANumber (h : x.isFinite = true) : kind x ≠ .notANumber := by
  intro hkind
  replace h : (kind x).isFinite = true := h
  rw [hkind] at h
  exact absurd h Bool.false_ne_true

theorem lt_iff_value (hx : x.isFinite = true) (hy : y.isFinite = true) :
    x < y ↔ value x < value y := by
  rw [lt_iff, value, value, valueOf_lt_iff (wellFormed_kind x) (wellFormed_kind y) hx hy]
  exact ⟨fun h => h.2.2, fun h => ⟨kind_ne_notANumber hx, kind_ne_notANumber hy, h⟩⟩

theorem le_iff_value (hx : x.isFinite = true) (hy : y.isFinite = true) :
    x ≤ y ↔ value x ≤ value y := by
  have hlt := valueOf_lt_iff (wellFormed_kind y) (wellFormed_kind x) hy hx
  rw [le_iff, value, value, ← not_lt, ← not_lt, hlt]
  exact ⟨fun h => h.2.2, fun h => ⟨kind_ne_notANumber hx, kind_ne_notANumber hy, h⟩⟩

theorem level_mem_of_isFinite (h : x.isFinite = true) : level (kind x) ∈
    Set.Ioo (-(2047 * 2 ^ 52 : Nat) : ℤ) (2047 * 2 ^ 52 : Nat) := by
  have hfinite : (kind x).isFinite = true := h
  have hwell := wellFormed_kind x
  generalize kind x = u at hfinite hwell ⊢
  cases u, hfinite using isFinite_cases with
  | zero sign =>
      rw [level_zero]
      constructor <;> norm_num
  | finite sign => exact level_finite_mem sign hwell

/-- What lies between finite numbers is finite. -/
theorem isFinite_of_le_of_le {z : Float} (hx : x.isFinite = true) (hz : z.isFinite = true)
    (hlow : x ≤ y) (hhigh : y ≤ z) : y.isFinite = true := by
  obtain ⟨-, hnumber, hlevel⟩ := le_iff.mp hlow
  obtain ⟨-, -, hlevel'⟩ := le_iff.mp hhigh
  have hx' := (level_mem_of_isFinite hx).1
  have hz' := (level_mem_of_isFinite hz).2
  change (kind y).isFinite = true
  cases hkind : kind y with
  | notANumber => exact absurd hkind hnumber
  | infinity sign =>
      rw [hkind] at hlevel hlevel'
      cases sign with
      | negative =>
          rw [level_infinity_negative] at hlevel
          omega
      | positive =>
          rw [level_infinity_positive] at hlevel'
          omega
  | zero => rfl
  | finite => rfl

end Order

/-- A number stands for its value unless it is the negative zero. -/
structure Denotes (x : Float) (q : ℚ) : Prop where
  isFinite : x.isFinite = true
  value_eq : value x = q
  not_negative_zero : kind x ≠ .zero .negative

namespace Denotes

variable (hx : Denotes x q) (hy : Denotes y r)

include hx

theorem isNegative_iff : isNegative (kind x) = true ↔ level (kind x) < 0 := by
  have hfinite : (kind x).isFinite = true := hx.isFinite
  have hzero := hx.not_negative_zero
  generalize kind x = u at hfinite hzero ⊢
  cases u, hfinite using isFinite_cases with
  | zero sign =>
      cases sign with
      | negative => exact absurd rfl hzero
      | positive => exact iff_of_false Bool.false_ne_true (lt_irrefl 0)
  | finite sign m e hpos =>
      cases sign with
      | negative => exact iff_of_true rfl level_negative_neg
      | positive => exact iff_of_false Bool.false_ne_true level_positive_pos.le.not_gt

include hy

theorem lt_iff : x < y ↔ q < r := by
  rw [lt_iff_value hx.isFinite hy.isFinite, hx.value_eq, hy.value_eq]

theorem rank_lt_iff : rank x < rank y ↔ q < r := by
  have hx' := hx.isNegative_iff
  have hy' := hy.isNegative_iff
  have hlevel : rank x < rank y ↔ level (kind x) < level (kind y) := by
    rw [rank_eq, rank_eq]
    simp only [hx', hy']
    split <;> split <;> omega
  rw [hlevel, ← valueOf_lt_iff (wellFormed_kind x) (wellFormed_kind y) hx.isFinite hy.isFinite,
    ← value, ← value, hx.value_eq, hy.value_eq]

omit hy in
theorem kind_eq_zero (hzero : q = 0) : kind x = .zero .positive := by
  have hfinite : (kind x).isFinite = true := hx.isFinite
  have hvalue : valueOf (kind x) = 0 := hx.value_eq.trans hzero
  have hsign := hx.not_negative_zero
  generalize kind x = u at hfinite hvalue hsign ⊢
  cases u, hfinite using isFinite_cases with
  | zero sign =>
      cases sign with
      | negative => exact absurd rfl hsign
      | positive => rfl
  | finite sign m e hpos => exact absurd hvalue (valueOf_finite_ne_zero hpos)

theorem unique (heq : q = r) : x = y := by
  have hlevel : level (kind x) = level (kind y) := by
    have hlt := valueOf_lt_iff (wellFormed_kind x) (wellFormed_kind y) hx.isFinite hy.isFinite
    have hgt := valueOf_lt_iff (wellFormed_kind y) (wellFormed_kind x) hy.isFinite hx.isFinite
    have hvalue : valueOf (kind x) = valueOf (kind y) :=
      hx.value_eq.trans (heq.trans hy.value_eq.symm)
    rw [hvalue] at hlt hgt
    have hnot := hlt.not.mp (lt_irrefl _)
    have hnot' := hgt.not.mp (lt_irrefl _)
    omega
  have hkind : kind x = kind y := by
    by_cases hzero : level (kind x) = 0
    · have hvalue : q = 0 := hx.value_eq.symm.trans (eq_zero_of_level_eq_zero hx.isFinite hzero)
      rw [hx.kind_eq_zero hvalue, hy.kind_eq_zero (heq ▸ hvalue)]
    · exact eq_of_level_eq (wellFormed_kind x) (wellFormed_kind y) hzero hlevel
  rw [← ofKind_kind x, hkind, ofKind_kind]

end Denotes

section Negation

theorem kind_neg (x : Float) : kind (-x) = (kind x).neg :=
  kind_ofKind (wellFormed_neg (wellFormed_kind x))

theorem value_neg (x : Float) : value (-x) = -value x := by
  rw [value, kind_neg, valueOf_neg, value]

theorem isFinite_neg_iff : (-x).isFinite = true ↔ x.isFinite = true := by
  change (kind (-x)).isFinite = true ↔ (kind x).isFinite = true
  rw [kind_neg]
  cases kind x <;> exact Iff.rfl

/-- A sum is the difference to the opposite number. -/
theorem add_eq_sub (x y : Float) : x + y = x - -y := by
  change ofKind (add Format.binary64 (kind x) (kind y)) =
    ofKind (sub Format.binary64 (kind x) (kind (-y)))
  rw [kind_neg, add_eq_sub_neg]

end Negation

section Operations

/-- A representable result is not rounded. -/
theorem denotes_ofKind (h : Rounds q u) (hq : IsRepresentable q)
    (hzero : q = 0 → u = .zero .positive) : Denotes (ofKind u) q := by
  have hkind : kind (ofKind u) = u := kind_ofKind h.wellFormed
  refine ⟨?_, ?_, ?_⟩
  · change (kind (ofKind u)).isFinite = true
    rw [hkind]
    exact h.isFinite
  · rw [value, hkind, h.exact hq]
  · rw [hkind]
    rintro rfl
    exact absurd (hzero (h.exact hq).symm) (by simp)

theorem IsRepresentable.abs_lt (h : IsRepresentable q) : |q| < 2 ^ (1023 : ℤ) := by
  obtain ⟨count, exponent, rfl, hcount, -, hhigh⟩ := h
  have hcount' : |(count : ℚ)| < 2 ^ (53 : ℤ) := by
    rw [← Int.cast_abs]
    exact_mod_cast hcount
  rw [abs_mul, abs_of_pos (two_zpow_pos exponent)]
  calc |(count : ℚ)| * 2 ^ exponent < 2 ^ (53 : ℤ) * 2 ^ exponent :=
        mul_lt_mul_of_pos_right hcount' (two_zpow_pos exponent)
    _ = 2 ^ (53 + exponent) := (zpow_add₀ two_ne_zero _ _).symm
    _ ≤ 2 ^ (1023 : ℤ) := zpow_le_zpow_right₀ one_le_two (by omega)

/-- A difference is rounded once, as long as it cannot overflow. -/
theorem rounds_kind_sub (hx : x.isFinite = true) (hy : y.isFinite = true)
    (h : |value x - value y| < 2 ^ (1023 : ℤ)) : Rounds (value x - value y) (kind (x - y)) := by
  have hrounds := rounds_sub (wellFormed_kind x) (wellFormed_kind y) hx hy h
  have hkind : kind (x - y) = Float.Model.UnpackedFloat.sub Format.binary64 (kind x) (kind y) :=
    kind_ofKind hrounds.wellFormed
  rw [hkind]
  exact hrounds

theorem rounds_kind_mul (hx : x.isFinite = true) (hy : y.isFinite = true)
    (h : |value x * value y| < 2 ^ (1023 : ℤ)) : Rounds (value x * value y) (kind (x * y)) := by
  have hrounds := rounds_mul (wellFormed_kind x) (wellFormed_kind y) hx hy h
  have hkind : kind (x * y) = Float.Model.UnpackedFloat.mul Format.binary64 (kind x) (kind y) :=
    kind_ofKind hrounds.wellFormed
  rw [hkind]
  exact hrounds

theorem rounds_add (hx : x.isFinite = true) (hy : y.isFinite = true)
    (h : |value x + value y| < 2 ^ (1023 : ℤ)) : Rounds (value x + value y) (kind (x + y)) := by
  have hrounds := rounds_kind_sub hx (isFinite_neg_iff.mpr hy)
  rw [value_neg, sub_neg_eq_add] at hrounds
  rw [add_eq_sub]
  exact hrounds h

/-- What is taken away may be the negative zero. -/
theorem Denotes.sub_of_isFinite (hx : Denotes x q) (hy : y.isFinite = true)
    (h : IsRepresentable (q - value y)) : Denotes (x - y) (q - value y) := by
  have hvalue : valueOf (kind x) - valueOf (kind y) = q - value y :=
    congrArg (· - value y) hx.value_eq
  refine denotes_ofKind ?_ h fun hzero => ?_
  · rw [← hvalue]
    apply rounds_sub (wellFormed_kind x) (wellFormed_kind y) hx.isFinite hy
    rw [hvalue]
    exact h.abs_lt
  · exact sub_eq_zero_positive hx.not_negative_zero hx.isFinite hy (hvalue.trans hzero)

variable (hx : Denotes x q) (hy : Denotes y r)

include hx hy

theorem Denotes.sub (h : IsRepresentable (q - r)) : Denotes (x - y) (q - r) := by
  rw [← hy.value_eq] at h ⊢
  exact hx.sub_of_isFinite hy.isFinite h

theorem Denotes.add (h : IsRepresentable (q + r)) : Denotes (x + y) (q + r) := by
  have hsub := hx.sub_of_isFinite (isFinite_neg_iff.mpr hy.isFinite)
  rw [value_neg, hy.value_eq, sub_neg_eq_add, ← add_eq_sub] at hsub
  exact hsub h

omit hy in
theorem Denotes.isNegative_eq_false (hq : 0 ≤ q) : isNegative (kind x) = false := by
  by_contra hnegative
  have hlevel := hx.isNegative_iff.mp (by simpa using hnegative)
  have hlt := (valueOf_lt_iff (v := .zero .positive) (wellFormed_kind x) trivial hx.isFinite rfl).mpr
    hlevel
  exact absurd (hx.value_eq.symm.trans_lt hlt) hq.not_gt

omit hx hy in
theorem mul_zero_positive (hu : u.isFinite = true) (hpositive : isNegative u = false) :
    mul Format.binary64 u (.zero .positive) = .zero .positive ∧
      mul Format.binary64 (.zero .positive) u = .zero .positive := by
  cases u, hu using isFinite_cases with
  | zero sign =>
      cases sign with
      | negative => exact absurd hpositive (by decide)
      | positive => exact ⟨rfl, rfl⟩
  | finite sign =>
      cases sign with
      | negative => exact absurd hpositive.symm Bool.false_ne_true
      | positive => exact ⟨rfl, rfl⟩

/-- Without negative operands no product is the negative zero. -/
theorem Denotes.mul (hq : 0 ≤ q) (hr : 0 ≤ r) (h : IsRepresentable (q * r)) :
    Denotes (x * y) (q * r) := by
  have hvalue : valueOf (kind x) * valueOf (kind y) = q * r :=
    congrArg₂ (· * ·) hx.value_eq hy.value_eq
  have hmul : x * y = ofKind (Float.Model.UnpackedFloat.mul Format.binary64 (kind x) (kind y)) :=
    rfl
  rw [hmul]
  refine denotes_ofKind ?_ h fun hzero => ?_
  · rw [← hvalue]
    apply rounds_mul (wellFormed_kind x) (wellFormed_kind y) hx.isFinite hy.isFinite
    rw [hvalue]
    exact h.abs_lt
  · rcases mul_eq_zero.mp hzero with hzero | hzero
    · rw [hx.kind_eq_zero hzero]
      exact (mul_zero_positive hy.isFinite (hy.isNegative_eq_false hr)).2
    · rw [hy.kind_eq_zero hzero]
      exact (mul_zero_positive hx.isFinite (hx.isNegative_eq_false hq)).1

end Operations

section Counts

theorem isRepresentable_intCast {count : ℤ} (h : |count| ≤ 2 ^ 53) :
    IsRepresentable (count : ℚ) := by
  rcases h.lt_or_eq with hlt | heq
  · exact ⟨count, 0, by simp, hlt, by omega, by omega⟩
  · rcases eq_or_eq_neg_of_abs_eq heq with rfl | rfl
    · exact ⟨1, 53, by norm_num, by norm_num, by omega, by omega⟩
    · exact ⟨-1, 53, by norm_num, by norm_num, by omega, by omega⟩

theorem denotes_zero : Denotes 0 0 where
  isFinite := by
    change (kind 0).isFinite = true
    rw [kind_zero]
    rfl
  value_eq := by
    rw [value, kind_zero]
    rfl
  not_negative_zero := by
    rw [kind_zero]
    simp

/-- Integers of 53 bits are normalized without a remainder. -/
theorem denotes_normalize {count : ℤ} (h : |count| ≤ 2 ^ 53) :
    Denotes (ofKind (UnpackedFloat.normalize Format.binary64 count 0 .positive)) count := by
  have hrepresentable := isRepresentable_intCast h
  have hrounds := rounds_normalize count 0 .positive
  rw [zpow_zero, mul_one] at hrounds
  refine denotes_ofKind (hrounds hrepresentable.abs_lt) hrepresentable fun hzero => ?_
  rw [Int.cast_eq_zero.mp hzero]
  rfl

theorem ofNat_eq {count : Nat} (h : count < 2 ^ 53) : Float.ofNat count =
    ofKind (UnpackedFloat.normalize Format.binary64 count 0 .positive) *
      ofKind (UnpackedFloat.normalize Format.binary64 1 0 .positive) := by
  have hone : Float.ofBits 0x3FF0000000000000 =
      ofKind (UnpackedFloat.normalize Format.binary64 1 0 .positive) := by decide +kernel
  have hcount : count.toUInt64.toNat = count := by
    change count % 2 ^ 64 = count
    omega
  have hcount' : count.toUInt64.toFloat =
      ofKind (UnpackedFloat.normalize Format.binary64 count.toUInt64.toNat 0 .positive) := rfl
  change Float.ofScientific count false 0 = _
  unfold Float.ofScientific
  rw [dif_pos ⟨h, by decide⟩, ← hone]
  dsimp only
  rw [hcount', hcount]
  rfl

theorem denotes_ofNat {count : Nat} (h : count ≤ 2 ^ 53) : Denotes (Float.ofNat count) count := by
  have habs : |(count : ℤ)| ≤ 2 ^ 53 := by
    rw [abs_of_nonneg (Int.natCast_nonneg count)]
    exact_mod_cast h
  have hcount := denotes_normalize habs
  rcases h.lt_or_eq with hlt | rfl
  · have hone := denotes_normalize (show |(1 : ℤ)| ≤ 2 ^ 53 by norm_num)
    have hproduct := hcount.mul hone (by positivity) (by norm_num) (by
      rw [Int.cast_one, mul_one]
      exact isRepresentable_intCast habs)
    rw [← ofNat_eq hlt, Int.cast_one, mul_one] at hproduct
    exact hproduct
  · have hlast : Float.ofNat (2 ^ 53) =
        ofKind (UnpackedFloat.normalize Format.binary64 (2 ^ 53 : Nat) 0 .positive) := by
      decide +kernel
    rw [hlast]
    exact hcount

theorem Denotes.neg (hx : Denotes x q) (hq : q ≠ 0) : Denotes (-x) (-q) where
  isFinite := isFinite_neg_iff.mpr hx.isFinite
  value_eq := by rw [value_neg, hx.value_eq]
  not_negative_zero := by
    intro hzero
    have hvalue := congrArg valueOf hzero
    rw [valueOf_zero, ← value, value_neg, hx.value_eq, neg_eq_zero] at hvalue
    exact hq hvalue

theorem kind_abs (x : Float) : kind (Float.abs x) = (kind x).abs :=
  kind_ofKind (wellFormed_abs (wellFormed_kind x))

theorem Denotes.abs (hx : Denotes x q) : Denotes (Float.abs x) |q| where
  isFinite := by
    have hfinite : (kind x).isFinite = true := hx.isFinite
    change (kind (Float.abs x)).isFinite = true
    rw [kind_abs]
    cases hkind : kind x <;> rw [hkind] at hfinite <;> exact hfinite
  value_eq := by
    rw [value, kind_abs, ← hx.value_eq, value]
    cases kind x with
    | finite sign m e hpos =>
        rw [valueOf, abs_apply sign m (two_zpow_pos e).le]
        exact valueOf_positive hpos
    | _ => exact abs_zero.symm
  not_negative_zero := by
    intro hzero
    rw [kind_abs] at hzero
    cases hkind : kind x <;> rw [hkind] at hzero <;> cases hzero

theorem denotes_ofInt {count : ℤ} (h : |count| ≤ 2 ^ 53) : Denotes (Float.ofInt count) count := by
  cases count with
  | ofNat count =>
      rw [Int.ofNat_eq_natCast, abs_of_nonneg (Int.natCast_nonneg count)] at h
      exact denotes_ofNat (by exact_mod_cast h)
  | negSucc count =>
      have hle : count + 1 ≤ 2 ^ 53 := by
        rw [Int.abs_eq_natAbs, Int.natAbs_negSucc] at h
        exact_mod_cast h
      have hneg := (denotes_ofNat hle).neg (by positivity)
      have hcast : ((Int.negSucc count : ℤ) : ℚ) = -((count + 1 : Nat) : ℚ) := by
        rw [Int.negSucc_eq]
        push_cast
        ring
      rw [hcast]
      exact hneg

end Counts

section Arithmetic

open CostArithmetic

theorem belowCeiling_of_isFinite (h : x.isFinite = true) : belowCeiling x = true := by
  have hinfinity : infinity = ofKind (.infinity .positive) := by decide +kernel
  have hkind : kind infinity = .infinity .positive := by
    rw [hinfinity]
    exact kind_ofKind trivial
  refine decide_eq_true (lt_iff.mpr ⟨kind_ne_notANumber h, ?_, ?_⟩)
  · rw [hkind]
    simp
  · rw [hkind, level_infinity_positive]
    exact (level_mem_of_isFinite h).2

theorem isNaN_eq_false (h : kind x ≠ .notANumber) : x.isNaN = false := by
  change (kind x).isNaN = false
  cases hkind : kind x with
  | notANumber => exact absurd hkind h
  | _ => rfl

theorem lesser_eq (h : kind x ≠ .notANumber) : lesser x y = if y < x then y else x := by
  change (if (decide (y < x) || x.isNaN) = true then y else x) = _
  rw [isNaN_eq_false h, Bool.or_false]
  simp only [decide_eq_true_eq]

theorem greater_eq (h : kind x ≠ .notANumber) : greater x y = if x < y then y else x := by
  change (if (decide (x < y) || x.isNaN) = true then y else x) = _
  rw [isNaN_eq_false h, Bool.or_false]
  simp only [decide_eq_true_eq]

variable (hx : Denotes x q) (hy : Denotes y r)

include hx hy

theorem Denotes.precedes : precedes x y = precedes q r := by
  rw [precedes_eq]
  exact decide_eq_decide.mpr (hx.rank_lt_iff hy)

theorem Denotes.lesser : Denotes (lesser x y) (lesser q r) := by
  rw [lesser_eq (kind_ne_notANumber hx.isFinite)]
  change Denotes _ (min q r)
  split
  · next hlt => rwa [min_eq_right ((hy.lt_iff hx).mp hlt).le]
  · next hlt => rwa [min_eq_left (not_lt.mp ((hy.lt_iff hx).not.mp hlt))]

theorem Denotes.greater : Denotes (greater x y) (greater q r) := by
  rw [greater_eq (kind_ne_notANumber hx.isFinite)]
  change Denotes _ (max q r)
  split
  · next hlt => rwa [max_eq_right ((hx.lt_iff hy).mp hlt).le]
  · next hlt => rwa [max_eq_left (not_lt.mp ((hx.lt_iff hy).not.mp hlt))]

end Arithmetic

end Hungarian.Double
