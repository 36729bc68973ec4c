import Hungarian.Proofs.Double.Exact

/-!
# Which results are finite

An infinity or what is not a number stays in every sum, difference and product, so that a finite
result tells that all operands are finite. A difference of finite numbers may overflow, but it is a
number. The least and the greatest of a list of numbers are numbers of the list that bound all
others.
-/

namespace Hungarian.Double

open CostArithmetic
open Float.Model (Format UnpackedFloat)
open Float.Model.UnpackedFloat

variable {x y : Float} {u v : UnpackedFloat}

/-! ### Operands of finite results -/

theorem isFinite_of_ofKind (h : (ofKind u).isFinite = true) : u.isFinite = true := by
  replace h : (kind (ofKind u)).isFinite = true := h
  cases u with
  | notANumber => exact absurd h Bool.false_ne_true
  | infinity sign => cases sign <;> exact absurd h Bool.false_ne_true
  | zero sign => rfl
  | finite sign mantissa exponent hpos => rfl

theorem isFinite_of_isFinite_sub {format : Format} (h : (sub format u v).isFinite = true) :
    u.isFinite = true ∧ v.isFinite = true := by
  cases u with
  | notANumber => exact absurd h Bool.false_ne_true
  | infinity sign =>
      cases v with
      | infinity sign' =>
          rw [sub] at h
          split at h <;> exact absurd h Bool.false_ne_true
      | _ => exact absurd h Bool.false_ne_true
  | zero sign =>
      cases v with
      | notANumber => exact absurd h Bool.false_ne_true
      | infinity sign' => exact absurd h Bool.false_ne_true
      | _ => exact ⟨rfl, rfl⟩
  | finite sign mantissa exponent hpos =>
      cases v with
      | notANumber => exact absurd h Bool.false_ne_true
      | infinity sign' => exact absurd h Bool.false_ne_true
      | _ => exact ⟨rfl, rfl⟩

theorem isFinite_of_isFinite_mul {format : Format} (h : (mul format u v).isFinite = true) :
    u.isFinite = true ∧ v.isFinite = true := by
  cases u with
  | notANumber => exact absurd h Bool.false_ne_true
  | infinity sign => cases v <;> exact absurd h Bool.false_ne_true
  | zero sign =>
      cases v with
      | notANumber => exact absurd h Bool.false_ne_true
      | infinity sign' => exact absurd h Bool.false_ne_true
      | _ => exact ⟨rfl, rfl⟩
  | finite sign mantissa exponent hpos =>
      cases v with
      | notANumber => exact absurd h Bool.false_ne_true
      | infinity sign' => exact absurd h Bool.false_ne_true
      | _ => exact ⟨rfl, rfl⟩

theorem isFinite_of_sub (h : (x - y).isFinite = true) : x.isFinite = true ∧ y.isFinite = true :=
  isFinite_of_isFinite_sub (isFinite_of_ofKind h)

theorem isFinite_of_mul (h : (x * y).isFinite = true) : x.isFinite = true ∧ y.isFinite = true :=
  isFinite_of_isFinite_mul (isFinite_of_ofKind h)

theorem isFinite_of_add (h : (x + y).isFinite = true) : x.isFinite = true ∧ y.isFinite = true := by
  rw [add_eq_sub] at h
  exact (isFinite_of_sub h).imp_right isFinite_neg_iff.mp

/-! ### Results that are numbers -/

/-- Only the highest exponent field is left to what is not a number. -/
theorem unpack_packComponents_ne_notANumber (sign : Sign) {exponent : BitVec 11}
    (mantissa : BitVec 52) (hexponent : exponent ≠ -1#11) : unpack Format.binary64
      (packComponents Format.binary64 sign exponent mantissa) ≠ .notANumber := by
  unfold unpack
  simp only [unpackExponent_packComponents]
  rw [if_neg hexponent]
  split_ifs <;> exact UnpackedFloat.noConfusion

/-- A finite number is packed as it is, unless it is too large. -/
theorem pack_finite_cases (sign : Sign) (mantissa : Nat) (exponent : Int) (hpos : 0 < mantissa) :
    pack Format.binary64 (.finite sign mantissa exponent hpos) =
        packedInfinity Format.binary64 sign ∨
      ∃ (field : BitVec 11) (digits : BitVec 52), field ≠ -1#11 ∧
        pack Format.binary64 (.finite sign mantissa exponent hpos) =
          packComponents Format.binary64 sign field digits := by
  unfold pack
  dsimp only
  split_ifs with hlarge hfull
  · exact .inl rfl
  · refine .inr ⟨_, _, fun heq => ?_, rfl⟩
    have hnat := congrArg BitVec.toNat heq
    rw [BitVec.toNat_ofNat] at hnat
    change _ % 2 ^ 11 = 2047 at hnat
    change ¬2 ^ 11 ≤ _ at hlarge
    omega
  · exact .inr ⟨_, _, by decide, rfl⟩

/-- What is packed as a finite number may be an infinity, but it is a number. -/
theorem kind_ofKind_ne_notANumber (h : u ≠ .notANumber) : kind (ofKind u) ≠ .notANumber := by
  cases u with
  | notANumber => exact absurd rfl h
  | infinity sign => cases sign <;> exact UnpackedFloat.noConfusion
  | zero sign => cases sign <;> exact UnpackedFloat.noConfusion
  | finite sign mantissa exponent hpos =>
      change unpack Format.binary64 (pack Format.binary64 _) ≠ _
      rcases pack_finite_cases sign mantissa exponent hpos with hpack | ⟨field, digits, hfield, hpack⟩
      · rw [hpack]
        cases sign <;> exact UnpackedFloat.noConfusion
      · rw [hpack]
        exact unpack_packComponents_ne_notANumber _ _ hfield

/-- Rounding alone never overflows; packing does. -/
theorem isFinite_roundWithAccuracy (format : Format) (sign : Sign) (mantissa : Nat)
    (exponent : Int) (accuracy : Accuracy) :
    (roundWithAccuracy format sign mantissa exponent accuracy).isFinite = true := by
  unfold roundWithAccuracy
  dsimp only
  split_ifs <;> rfl

theorem isFinite_normalize (format : Format) (mantissa exponent : Int) (sign : Sign) :
    (UnpackedFloat.normalize format mantissa exponent sign).isFinite = true := by
  unfold UnpackedFloat.normalize
  split
  · exact isFinite_roundWithAccuracy _ _ _ _ _
  · rfl
  · exact isFinite_roundWithAccuracy _ _ _ _ _

/-- Before it is packed, a difference of finite numbers is finite. -/
theorem isFinite_sub {format : Format} (hu : u.isFinite = true) (hv : v.isFinite = true) :
    (sub format u v).isFinite = true := by
  cases u, hu using isFinite_cases with
  | zero sign =>
      cases v, hv using isFinite_cases with
      | zero sign' => cases sign <;> cases sign' <;> rfl
      | finite => rfl
  | finite sign mantissa exponent hpos =>
      cases v, hv using isFinite_cases with
      | zero => rfl
      | finite => exact isFinite_normalize _ _ _ _

/-- A difference of finite numbers is a number. -/
theorem kind_sub_ne_notANumber (hx : x.isFinite = true) (hy : y.isFinite = true) :
    kind (x - y) ≠ .notANumber := by
  have hfinite : (sub Format.binary64 (kind x) (kind y)).isFinite = true := isFinite_sub hx hy
  refine kind_ofKind_ne_notANumber fun hkind => ?_
  change sub Format.binary64 (kind x) (kind y) = .notANumber at hkind
  rw [hkind] at hfinite
  exact absurd hfinite Bool.false_ne_true

/-! ### Extremes of a list -/

structure Favours (pick : Float → Float → Float) (above : Float → Float → Prop) : Prop where
  refl : ∀ x, kind x ≠ .notANumber → above x x
  trans : ∀ x y z, above x y → above y z → above x z
  pick_cases : ∀ x y, kind x ≠ .notANumber → kind y ≠ .notANumber →
    pick x y = x ∧ above x y ∨ pick x y = y ∧ above y x

theorem favours_greater : Favours greater fun x y => y ≤ x where
  refl _ := le_refl_of_number
  trans _ _ _ h h' := le_trans_of_le h' h
  pick_cases x y hx hy := by
    rw [greater_eq hx]
    by_cases hlt : x < y
    · exact .inr ⟨if_pos hlt, le_of_lt hlt⟩
    · exact .inl ⟨if_neg hlt, le_of_not_lt hx hy hlt⟩

theorem favours_lesser : Favours lesser fun x y => x ≤ y where
  refl _ := le_refl_of_number
  trans _ _ _ := le_trans_of_le
  pick_cases x y hx hy := by
    rw [lesser_eq hx]
    by_cases hlt : y < x
    · exact .inr ⟨if_pos hlt, le_of_lt hlt⟩
    · exact .inl ⟨if_neg hlt, le_of_not_lt hy hx hlt⟩

section Extremes

variable {pick : Float → Float → Float} {above : Float → Float → Prop} {first : Float}
  {costs rest : List Float}

theorem Favours.pick_mem_and_above (h : Favours pick above) (hx : kind x ≠ .notANumber)
    (hy : kind y ≠ .notANumber) :
    pick x y ∈ [x, y] ∧ above (pick x y) x ∧ above (pick x y) y := by
  rcases h.pick_cases x y hx hy with ⟨heq, habove⟩ | ⟨heq, habove⟩
  · rw [heq]
    exact ⟨by simp, h.refl x hx, habove⟩
  · rw [heq]
    exact ⟨by simp, habove, h.refl y hy⟩

/-- What is picked again and again is one of the list that has all others on the other side. -/
theorem Favours.foldl_mem_and_above (h : Favours pick above)
    (hnumbers : ∀ x ∈ first :: rest, kind x ≠ .notANumber) :
    rest.foldl pick first ∈ first :: rest ∧
      ∀ x ∈ first :: rest, above (rest.foldl pick first) x := by
  induction rest generalizing first with
  | nil =>
      refine ⟨List.mem_cons_self, fun x hx => ?_⟩
      rw [List.mem_singleton.mp hx]
      exact h.refl first (hnumbers first List.mem_cons_self)
  | cons second rest ih =>
      obtain ⟨hfirst, hsecond, hrest⟩ : kind first ≠ .notANumber ∧ kind second ≠ .notANumber ∧
          ∀ x ∈ rest, kind x ≠ .notANumber := by
        simpa only [List.forall_mem_cons] using hnumbers
      obtain ⟨hpicked, habove, habove'⟩ := h.pick_mem_and_above hfirst hsecond
      have hnumbers' : ∀ x ∈ pick first second :: rest, kind x ≠ .notANumber := by
        refine List.forall_mem_cons.mpr ⟨?_, hrest⟩
        rcases List.mem_pair.mp hpicked with heq | heq <;> rw [heq] <;> assumption
      obtain ⟨hmem, hall⟩ := ih hnumbers'
      have hbest := hall (pick first second) List.mem_cons_self
      refine ⟨?_, ?_⟩
      · rw [List.foldl_cons]
        rcases List.mem_cons.mp hmem with heq | hmem
        · rw [heq]
          exact List.mem_append_left rest hpicked
        · exact List.mem_cons_of_mem _ (List.mem_cons_of_mem _ hmem)
      · simp only [List.forall_mem_cons]
        exact ⟨h.trans _ _ _ hbest habove, h.trans _ _ _ hbest habove',
          fun x hx => hall x (List.mem_cons_of_mem _ hx)⟩

/-- The greatest of some numbers is one of them, and at least as high as each. -/
theorem greatest?_mem_and_le (hne : costs ≠ []) (hnumbers : ∀ x ∈ costs, kind x ≠ .notANumber) :
    (greatest? costs).getD 0 ∈ costs ∧ ∀ x ∈ costs, x ≤ (greatest? costs).getD 0 := by
  obtain ⟨first, rest, rfl⟩ := List.exists_cons_of_ne_nil hne
  exact favours_greater.foldl_mem_and_above hnumbers

theorem least?_mem_and_le (hne : costs ≠ []) (hnumbers : ∀ x ∈ costs, kind x ≠ .notANumber) :
    (least? costs).getD 0 ∈ costs ∧ ∀ x ∈ costs, (least? costs).getD 0 ≤ x := by
  obtain ⟨first, rest, rfl⟩ := List.exists_cons_of_ne_nil hne
  exact favours_lesser.foldl_mem_and_above hnumbers

end Extremes

end Hungarian.Double
