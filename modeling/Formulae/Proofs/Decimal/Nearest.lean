import Formulae.Decimal.Reading
import Formulae.Proofs.Decimal.Packing
import Mathlib.Data.Nat.Cast.Field
import Mathlib.Tactic.Ring

/-!
# The nearest float

A decimal is read as the float in whose interval it lies (`nearest_eq`). Reading multiplies or
divides by a power of ten and rounds once, and there are three ways to do so. Small mantissas and
powers are floats themselves, and are divided or multiplied as floats (`toFloat_div_powerOfTen`,
`toFloat_mul_powerOfTen`); others are combined as natural numbers of any size
(`ofModel_ofScientific`). All of them come down to a product or a quotient of pairs of a mantissa
and an exponent.
-/

namespace Formulae.Decimal

open Float.Model Float.Model.UnpackedFloat

variable {x : ℚ} {M n : ℕ} {Q k : ℤ}

/-- A negative power is the reciprocal of a power. -/
theorem zpow_eq_inv_pow (b : ℚ) (h : k = -n) : b ^ k = (b ^ n)⁻¹ := by
  rw [h, zpow_neg, zpow_natCast]

/-! ### The size of what is rounded -/

namespace Rounds

theorem lt (h : Rounds x M Q) (hcanonical : Canonical M Q) : x < 2 ^ (53 + Q) := by
  have hM : (M : ℚ) + 1 ≤ 2 ^ 53 := by exact_mod_cast hcanonical.lt
  have hhigh := h.high
  rw [zpow_add₀ two_ne_zero, ← div_lt_iff₀ (by positivity)]
  norm_num
  linarith

theorem le (h : Rounds x M Q) (hcanonical : Canonical M Q) : 2 ^ (Q - 1) ≤ x := by
  have hM : (1 : ℚ) ≤ M := by exact_mod_cast hcanonical.pos
  have hlow := h.low
  have hreach : (quartersBelow M Q : ℚ) ≤ 2 := by exact_mod_cast quartersBelow_le M Q
  rw [zpow_sub₀ two_ne_zero, zpow_one, div_eq_inv_mul, ← le_div_iff₀ (by positivity)]
  linarith

theorem pos (h : Rounds x M Q) (hcanonical : Canonical M Q) : 0 < x :=
  (by positivity : (0 : ℚ) < 2 ^ (Q - 1)).trans_le (h.le hcanonical)

end Rounds

/-- A float lies in its own interval. -/
theorem rounds_self (M : ℕ) (Q : ℤ) : Rounds (M * 2 ^ Q) M Q := by
  have hunit : (M : ℚ) * 2 ^ Q / 2 ^ Q = M := mul_div_cancel_right₀ _ (by positivity)
  have hreach : (0 : ℚ) < quartersBelow M Q := by
    rw [quartersBelow]
    split <;> norm_num
  refine ⟨?_, ?_, .inr ⟨?_, ?_⟩⟩ <;> rw [hunit] <;> linarith

/-! ### Products and quotients -/

section

variable {m₁ m₂ : ℕ} {e₁ e₂ : ℤ} {s₁ s₂ : Sign} {h₁ : 0 < m₁} {h₂ : 0 < m₂}

/-- The product of two floats is the float that its exact value rounds to, if there is more of it
than fits. -/
theorem mul_finite (hcanonical : Canonical M Q)
    (hrounds : Rounds (m₁ * 2 ^ e₁ * (m₂ * 2 ^ e₂)) M Q) (hfine : e₁ + e₂ < Q) :
    UnpackedFloat.mul Format.binary64 (.finite s₁ m₁ e₁ h₁) (.finite s₂ m₂ e₂ h₂) =
      .finite (s₁ * s₂) M Q hcanonical.pos := by
  refine roundWithAccuracy_eq hcanonical hrounds ?_ hfine.le fun _ ↦ .inl hfine
  have hunit : (m₁ * 2 ^ e₁ * (m₂ * 2 ^ e₂) / 2 ^ (e₁ + e₂) : ℚ) = (m₁ * m₂ : ℕ) := by
    rw [zpow_add₀ two_ne_zero]
    push_cast
    field_simp
  rw [hunit]
  exact stands_ofMantissa_exact _

/-- A quotient and its remainder stand for the fraction. -/
theorem stands_div {a b : ℕ} (hb : 0 < b) :
    Stands (ExtendedMantissa.ofMantissaAndAccuracy (a / b) (accuracyOfFraction (a % b) b))
      (a / b : ℚ) := by
  have hpos : (0 : ℚ) < b := by exact_mod_cast hb
  have hsum : (a : ℚ) = b * (a / b : ℕ) + (a % b : ℕ) := by
    exact_mod_cast (Nat.div_add_mod a b).symm
  have hfraction : (a / b : ℚ) = (a / b : ℕ) + (a % b : ℕ) / b := by
    rw [hsum]
    field_simp
  have hlt : ((a % b : ℕ) : ℚ) < b := by exact_mod_cast Nat.mod_lt a hb
  rw [hfraction, accuracyOfFraction]
  generalize a % b = r at hlt
  split
  · next hr =>
    subst hr
    simp [Stands, ExtendedMantissa.ofMantissaAndAccuracy]
  · next hr =>
    have hrpos : (0 : ℚ) < r := by exact_mod_cast Nat.pos_of_ne_zero hr
    have hone : (r / b : ℚ) < 1 := (div_lt_one hpos).2 hlt
    have hzero : (0 : ℚ) < r / b := by positivity
    rcases lt_trichotomy (2 * r) b with hhalf | hhalf | hhalf
    · have : (r / b : ℚ) < 1 / 2 := by
        rw [div_lt_iff₀ hpos]
        have : (2 * r : ℚ) < b := by exact_mod_cast hhalf
        linarith
      rw [Nat.compare_eq_lt.2 hhalf]
      show ((a / b : ℕ) : ℚ) < _ ∧ _ < ((a / b : ℕ) : ℚ) + 1 / 2
      constructor <;> linarith
    · have : (r / b : ℚ) = 1 / 2 := by
        rw [div_eq_iff hpos.ne']
        have : (2 * r : ℚ) = b := by exact_mod_cast hhalf
        linarith
      rw [Nat.compare_eq_eq.2 hhalf, this]
      rfl
    · have : 1 / 2 < (r / b : ℚ) := by
        rw [lt_div_iff₀ hpos]
        have : (b : ℚ) < 2 * r := by exact_mod_cast hhalf
        linarith
      rw [Nat.compare_eq_gt.2 hhalf]
      show ((a / b : ℕ) : ℚ) + 1 / 2 < _ ∧ _ < ((a / b : ℕ) : ℚ) + 1
      constructor <;> linarith

/-- Two pairs have a quotient of about the difference of their exponents. -/
theorem lt_div_of_totalExponent (e₁ e₂ : ℤ) (h₁ : 0 < m₁) (h₂ : 0 < m₂) :
    (2 : ℚ) ^ (totalExponent m₁ e₁ - totalExponent m₂ e₂ - 1) < m₁ * 2 ^ e₁ / (m₂ * 2 ^ e₂) := by
  have hm₁ : (2 : ℚ) ^ m₁.log2 ≤ m₁ := by exact_mod_cast (Nat.le_log2 h₁.ne').1 le_rfl
  have hm₂ : (m₂ : ℚ) < 2 ^ (m₂.log2 + 1) := by
    exact_mod_cast (Nat.log2_lt h₂.ne').1 (Nat.lt_succ_self _)
  have hpos : (0 : ℚ) < m₂ := by exact_mod_cast h₂
  have htwo : (2 : ℚ) ≠ 0 := two_ne_zero
  rw [lt_div_iff₀ (by positivity)]
  calc (2 : ℚ) ^ (totalExponent m₁ e₁ - totalExponent m₂ e₂ - 1) * (m₂ * 2 ^ e₂)
      < 2 ^ (totalExponent m₁ e₁ - totalExponent m₂ e₂ - 1) * (2 ^ (m₂.log2 + 1) * 2 ^ e₂) := by
        gcongr
    _ = 2 ^ m₁.log2 * 2 ^ e₁ := by
        simp only [← zpow_natCast, ← zpow_add₀ htwo, totalExponent]
        congr 1
        push_cast
        ring
    _ ≤ m₁ * 2 ^ e₁ := by gcongr

/-- The exponent at which a quotient is computed is fine enough. -/
theorem targetExponent_le_of_lt {t T : ℤ} (hT : -1074 ≤ T)
    (hlt : (2 : ℚ) ^ (t - 1) < 2 ^ (53 + T)) :
    Format.binary64.targetExponent t ≤ T := by
  rw [zpow_lt_zpow_iff_right₀ one_lt_two] at hlt
  rw [targetExponent_binary64]
  omega

/-- So is the quotient of two floats. -/
theorem div_finite (hcanonical : Canonical M Q)
    (hrounds : Rounds (m₁ * 2 ^ e₁ / (m₂ * 2 ^ e₂)) M Q) :
    UnpackedFloat.div Format.binary64 (.finite s₁ m₁ e₁ h₁) (.finite s₂ m₂ e₂ h₂) =
      .finite (s₁ / s₂) M Q hcanonical.pos := by
  have hsize := lt_div_of_totalExponent e₁ e₂ h₁ h₂
  have hpos : (0 : ℚ) < m₂ := by exact_mod_cast h₂
  set t := totalExponent m₁ e₁ - totalExponent m₂ e₂
  have htarget : Format.binary64.targetExponent t ≤ Q :=
    targetExponent_le_of_lt hcanonical.le_exponent (hsize.trans (hrounds.lt hcanonical))
  set T := min (e₁ - e₂) (Format.binary64.targetExponent t) with hT
  show roundWithAccuracy Format.binary64 (s₁ / s₂) (m₁ <<< (e₁ - e₂ - T).toNat / m₂) T
    (accuracyOfFraction (m₁ <<< (e₁ - e₂ - T).toNat % m₂) m₂) = _
  refine roundWithAccuracy_eq hcanonical hrounds ?_ ((min_le_right _ _).trans htarget) ?_
  · have hunit : (m₁ * 2 ^ e₁ / (m₂ * 2 ^ e₂) / 2 ^ T : ℚ) =
        (m₁ <<< (e₁ - e₂ - T).toNat : ℕ) / m₂ := by
      have hsplit : (2 : ℚ) ^ e₁ = 2 ^ (e₁ - e₂ - T).toNat * (2 ^ e₂ * 2 ^ T) := by
        rw [← zpow_natCast, ← zpow_add₀ two_ne_zero, ← zpow_add₀ two_ne_zero]
        congr 1
        omega
      rw [hsplit, Nat.shiftLeft_eq]
      push_cast
      field_simp
    rw [hunit]
    exact stands_div h₂
  · intro hbelow
    rw [div_lt_iff₀ (by positivity)] at hbelow
    by_cases hQ : Q = -1074
    · exact .inr hQ
    · have hminus := hcanonical.le_exponent
      have hlt : (2 : ℚ) ^ (t - 1) < 2 ^ (53 + (Q - 1)) := by
        refine hsize.trans (hbelow.trans_eq ?_)
        rw [show (53 + (Q - 1) : ℤ) = (52 : ℕ) + Q by push_cast; ring, zpow_add₀ two_ne_zero,
          zpow_natCast]
      have hle := targetExponent_le_of_lt (by omega) hlt
      exact .inl (by omega)

end

/-! ### Decimals of any size -/

theorem mantissa_pos (hcanonical : Canonical M Q) (hrounds : Rounds (n * 10 ^ k) M Q) : 0 < n := by
  have hpos := hrounds.pos hcanonical
  refine Nat.pos_of_ne_zero ?_
  rintro rfl
  simp at hpos

/-- A decimal of the interval of a float is not out of range. -/
theorem exponent_bounds (hcanonical : Canonical M Q) (hrounds : Rounds (n * 10 ^ k) M Q) :
    k ≤ 2048 ∧ -(2048 + n.log2 : ℤ) ≤ k := by
  have hn := mantissa_pos hcanonical hrounds
  have hone : (1 : ℚ) ≤ n := by exact_mod_cast hn
  have hmin := hcanonical.le_exponent
  have hmax := hcanonical.exponent_le
  constructor
  · by_contra hlt
    have hchain : (2 : ℚ) ^ k < 2 ^ (53 + Q) := by
      calc (2 : ℚ) ^ k ≤ 10 ^ k := zpow_le_zpow_left₀ (by omega) (by norm_num) (by norm_num)
        _ ≤ n * 10 ^ k := le_mul_of_one_le_left (by positivity) hone
        _ < 2 ^ (53 + Q) := hrounds.lt hcanonical
    rw [zpow_lt_zpow_iff_right₀ one_lt_two] at hchain
    omega
  · by_contra hlt
    have hlog : (n : ℚ) < 2 ^ (n.log2 + 1) := by
      exact_mod_cast (Nat.log2_lt hn.ne').1 (Nat.lt_succ_self _)
    have hchain : (2 : ℚ) ^ (Q - 1) < 2 ^ ((n.log2 + 1 : ℕ) + k) := by
      calc (2 : ℚ) ^ (Q - 1) ≤ n * 10 ^ k := hrounds.le hcanonical
        _ < 2 ^ (n.log2 + 1) * 10 ^ k := by gcongr
        _ ≤ 2 ^ (n.log2 + 1) * 2 ^ k := by
          gcongr
          rw [← neg_neg k, zpow_neg, zpow_neg _ (-k)]
          refine inv_anti₀ (by positivity) ?_
          exact zpow_le_zpow_left₀ (by omega) (by norm_num) (by norm_num)
        _ = 2 ^ ((n.log2 + 1 : ℕ) + k) := by rw [zpow_add₀ two_ne_zero, zpow_natCast]
    rw [zpow_lt_zpow_iff_right₀ one_lt_two] at hchain
    omega

/-- A decimal is rounded to the float in whose interval it lies. -/
theorem ofScientific_eq (hcanonical : Canonical M Q) (hrounds : Rounds (n * 10 ^ k) M Q) :
    UnpackedFloat.ofScientific Format.binary64 n k =
      .finite .positive M Q hcanonical.pos := by
  have hn := mantissa_pos hcanonical hrounds
  obtain ⟨hle, hge⟩ := exponent_bounds hcanonical hrounds
  rw [UnpackedFloat.ofScientific, dif_neg hn.ne', if_neg (by norm_num; omega),
    if_neg (by norm_num; omega)]
  rcases le_or_gt 0 k with hk | hk
  · rw [if_pos hk]
    obtain ⟨j, rfl⟩ := Int.eq_ofNat_of_zero_le hk
    -- the value is at least one, and the product is computed in units of `2 ^ -53`
    have hfine : (-(53 : ℕ) : ℤ) + 0 < Q := by
      have hchain : (2 : ℚ) ^ (0 : ℤ) < 2 ^ (53 + Q) := by
        refine lt_of_le_of_lt ?_ (hrounds.lt hcanonical)
        rw [zpow_zero, zpow_natCast]
        exact_mod_cast Nat.mul_pos hn (Nat.pow_pos (n := j) (by decide : 0 < 10))
      rw [zpow_lt_zpow_iff_right₀ one_lt_two] at hchain
      omega
    refine mul_finite hcanonical ?_ hfine
    convert hrounds using 1
    rw [Nat.shiftLeft_eq, show Format.binary64.mantissaBits = 53 from rfl]
    push_cast
    rw [Int.toNat_natCast, mul_one, zpow_natCast]
    norm_num
    ring
  · rw [if_neg hk.not_ge]
    refine div_finite hcanonical ?_
    convert hrounds using 1
    have hexponent : k = -((-k).toNat : ℕ) := by omega
    rw [zpow_eq_inv_pow 10 hexponent, zpow_zero, mul_one, mul_one]
    push_cast
    rfl

/-! ### Decimals of small size -/

/-- A natural number with few bits, shifted up until its leading bit is in its place. -/
theorem canonical_shiftLeft (hn : 0 < n) (hlt : n < 2 ^ 53) :
    Canonical (n <<< (52 - n.log2)) (n.log2 - 52) := by
  have hlog : n.log2 < 53 := (Nat.log2_lt hn.ne').2 hlt
  have hbits : 2 ^ 52 ≤ n <<< (52 - n.log2) :=
    calc 2 ^ 52 = 2 ^ n.log2 * 2 ^ (52 - n.log2) := by
          rw [← pow_add, Nat.add_sub_of_le (by omega)]
      _ ≤ n * 2 ^ (52 - n.log2) := Nat.mul_le_mul_right _ ((Nat.le_log2 hn.ne').1 le_rfl)
      _ = n <<< (52 - n.log2) := (Nat.shiftLeft_eq ..).symm
  have hlt53 : n <<< (52 - n.log2) < 2 ^ 53 :=
    calc n <<< (52 - n.log2) = n * 2 ^ (52 - n.log2) := Nat.shiftLeft_eq ..
      _ < 2 ^ (n.log2 + 1) * 2 ^ (52 - n.log2) :=
        Nat.mul_lt_mul_of_pos_right ((Nat.log2_lt hn.ne').1 (Nat.lt_succ_self _)) (by positivity)
      _ = 2 ^ 53 := by
        rw [← pow_add]
        congr 1
        omega
  exact ⟨Nat.shiftLeft_pos_iff.2 hn, hlt53, by omega, by omega, .inl hbits⟩

/-- A natural number with few bits is rounded to itself. -/
theorem round_eq_shiftLeft (hn : 0 < n) (hlt : n < 2 ^ 53) :
    UnpackedFloat.round Format.binary64 .positive n 0 =
      .finite .positive (n <<< (52 - n.log2)) (n.log2 - 52) (canonical_shiftLeft hn hlt).pos := by
  have hcanonical := canonical_shiftLeft hn hlt
  have hlog : n.log2 < 53 := (Nat.log2_lt hn.ne').2 hlt
  have htarget : Format.binary64.targetExponent (totalExponent n 0) = n.log2 - 52 := by
    rw [targetExponent_binary64, totalExponent]
    omega
  rw [UnpackedFloat.round, htarget, decreaseExponent]
  dsimp only
  rw [show ((0 : ℤ) - (n.log2 - 52)).toNat = 52 - n.log2 by omega,
    show (0 : ℤ) - (52 - n.log2 : ℕ) = n.log2 - 52 by omega]
  refine roundWithAccuracy_eq hcanonical (rounds_self _ _) ?_ le_rfl fun hbelow ↦ ?_
  · rw [mul_div_cancel_right₀ _ (by positivity)]
    exact stands_ofMantissa_exact _
  · rw [mul_div_cancel_right₀ _ (by positivity)] at hbelow
    have hbits := hcanonical.normal.resolve_right (by omega)
    exact absurd (by exact_mod_cast hbelow) hbits.not_gt

/-- A natural number with few bits is a float. -/
theorem unpack_toFloat (hn : 0 < n) (hlt : n < 2 ^ 53) :
    ∃ m q, ∃ hm : 0 < m, n.toUInt64.toFloat.toModel.unpack = .finite .positive m q hm ∧
      2 ^ 52 ≤ m ∧ (m * 2 ^ q : ℚ) = n := by
  have hcanonical := canonical_shiftLeft hn hlt
  have hlog : n.log2 < 53 := (Nat.log2_lt hn.ne').2 hlt
  have htoNat : n.toUInt64.toNat = n := by
    rw [Nat.toUInt64_eq, UInt64.toNat_ofNat']
    omega
  have hunpack : n.toUInt64.toFloat.toModel.unpack =
      .finite .positive (n <<< (52 - n.log2)) (n.log2 - 52) hcanonical.pos := by
    show (Float.Model.pack (UnpackedFloat.normalize Format.binary64 n.toUInt64.toNat 0
      .positive)).unpack = _
    rw [htoNat, UnpackedFloat.normalize, Int.compare_eq_gt.2 (by omega)]
    show (Float.Model.pack (UnpackedFloat.round Format.binary64 .positive n 0)).unpack = _
    rw [round_eq_shiftLeft hn hlt, unpack_model_pack_finite hcanonical]
  refine ⟨_, _, hcanonical.pos, hunpack, hcanonical.normal.resolve_right (by omega), ?_⟩
  have hexponent : (n.log2 - 52 : ℤ) = -(52 - n.log2 : ℕ) := by omega
  rw [zpow_eq_inv_pow 2 hexponent, Nat.shiftLeft_eq]
  push_cast
  field_simp

/-- The powers of ten that the library keeps are exact. -/
theorem exactlyRepresentablePowersOfTen_eq :
    ∀ j : Fin Float.exactlyRepresentablePowersOfTen.size,
    Exact.ofFloat Float.exactlyRepresentablePowersOfTen[j] =
      .finite false (10 ^ j.val * 2 ^ 52 / 2 ^ (10 ^ j.val).log2) ((10 ^ j.val).log2 - 52) ∧
    2 ^ 52 ≤ 10 ^ j.val * 2 ^ 52 / 2 ^ (10 ^ j.val).log2 ∧
    2 ^ (10 ^ j.val).log2 ∣ 10 ^ j.val * 2 ^ 52 := by
  decide +kernel

theorem unpack_of_ofFloat {y : Float} {s : Sign} {m : ℕ} {q : ℤ} (hm : 0 < m)
    (h : Exact.ofFloat y = .finite (isMinus s) m q) : y.toModel.unpack = .finite s m q hm := by
  rcases hunpack : y.toModel.unpack with s' | - | s' | ⟨s', m', q', hm'⟩ <;>
    rw [Exact.ofFloat, hunpack] at h
  · cases h
  · cases h
  · obtain ⟨-, rfl, -⟩ := Exact.finite.inj h
    exact absurd hm (Nat.lt_irrefl 0)
  · obtain ⟨hs, rfl, rfl⟩ := Exact.finite.inj h
    rcases s with - | - <;> rcases s' with - | - <;> first | rfl | cases hs

/-- The powers of ten in the table are exact, and their mantissas are full. -/
theorem unpack_powerOfTen {j : ℕ} (hj : j < Float.exactlyRepresentablePowersOfTen.size) :
    ∃ m q, ∃ hm : 0 < m, Float.exactlyRepresentablePowersOfTen[j].toModel.unpack =
      .finite .positive m q hm ∧ 2 ^ 52 ≤ m ∧ (m * 2 ^ q : ℚ) = 10 ^ j := by
  obtain ⟨hexact, hbits, hdvd⟩ := exactlyRepresentablePowersOfTen_eq ⟨j, hj⟩
  have hm := (by positivity : 0 < 2 ^ 52).trans_le hbits
  refine ⟨_, _, hm, unpack_of_ofFloat hm hexact, hbits, ?_⟩
  rw [Nat.cast_div hdvd (by positivity), zpow_sub₀ two_ne_zero, zpow_natCast]
  push_cast
  field_simp

theorem float_mul_eq (a b : Float) : a * b =
    .ofModel (.pack (UnpackedFloat.mul Format.binary64 a.toModel.unpack b.toModel.unpack)) := rfl

theorem float_div_eq (a b : Float) : a / b =
    .ofModel (.pack (UnpackedFloat.div Format.binary64 a.toModel.unpack b.toModel.unpack)) := rfl

/-- A product of two mantissas with all their bits has more bits than a float keeps. -/
theorem exponents_lt_of_rounds {m₁ m₂ : ℕ} {q₁ q₂ : ℤ} (hcanonical : Canonical M Q)
    (hrounds : Rounds (m₁ * 2 ^ q₁ * (m₂ * 2 ^ q₂)) M Q) (hbits₁ : 2 ^ 52 ≤ m₁)
    (hbits₂ : 2 ^ 52 ≤ m₂) : q₁ + q₂ < Q := by
  have hcast₁ : (2 : ℚ) ^ 52 ≤ m₁ := by exact_mod_cast hbits₁
  have hcast₂ : (2 : ℚ) ^ 52 ≤ m₂ := by exact_mod_cast hbits₂
  have hchain : (2 : ℚ) ^ ((104 : ℕ) + (q₁ + q₂)) < 2 ^ (53 + Q) := by
    calc (2 : ℚ) ^ ((104 : ℕ) + (q₁ + q₂)) = 2 ^ 52 * 2 ^ q₁ * (2 ^ 52 * 2 ^ q₂) := by
          rw [zpow_add₀ two_ne_zero, zpow_add₀ two_ne_zero, zpow_natCast]
          ring
      _ ≤ m₁ * 2 ^ q₁ * (m₂ * 2 ^ q₂) := by gcongr
      _ < 2 ^ (53 + Q) := hrounds.lt hcanonical
  rw [zpow_lt_zpow_iff_right₀ one_lt_two] at hchain
  omega

/-! ### The ways to read a decimal -/

section

variable {y : Float} {hM : 0 < M}

/-- A quotient of two exact floats: a decimal with few digits behind the point. -/
theorem toFloat_div_powerOfTen (hy : y.toModel.unpack = .finite .positive M Q hM)
    (hrounds : Rounds (n * 10 ^ k) M Q) (hlt : n < 2 ^ 53)
    (hsize : k.natAbs < Float.exactlyRepresentablePowersOfTen.size) (hk : k < 0) :
    n.toUInt64.toFloat / Float.exactlyRepresentablePowersOfTen[k.natAbs] = y := by
  have hcanonical := canonical_of_float hy
  obtain ⟨m₁, q₁, h₁, hunpack₁, -, hvalue₁⟩ := unpack_toFloat (mantissa_pos hcanonical hrounds) hlt
  obtain ⟨m₂, q₂, h₂, hunpack₂, -, hvalue₂⟩ := unpack_powerOfTen hsize
  have hquotient : Rounds (m₁ * 2 ^ q₁ / (m₂ * 2 ^ q₂)) M Q := by
    have hexponent : k = -(k.natAbs : ℕ) := by omega
    rwa [hvalue₁, hvalue₂, div_eq_mul_inv, ← zpow_eq_inv_pow 10 hexponent]
  rw [float_div_eq, hunpack₁, hunpack₂, div_finite hcanonical hquotient]
  exact ofModel_pack_finite hy

/-- A product of two exact floats: a decimal with few zeros behind its digits. -/
theorem toFloat_mul_powerOfTen (hy : y.toModel.unpack = .finite .positive M Q hM)
    (hrounds : Rounds (n * 10 ^ k) M Q) (hlt : n < 2 ^ 53)
    (hsize : k.natAbs < Float.exactlyRepresentablePowersOfTen.size) (hk : 0 ≤ k) :
    n.toUInt64.toFloat * Float.exactlyRepresentablePowersOfTen[k.natAbs] = y := by
  have hcanonical := canonical_of_float hy
  obtain ⟨m₁, q₁, h₁, hunpack₁, hbits₁, hvalue₁⟩ :=
    unpack_toFloat (mantissa_pos hcanonical hrounds) hlt
  obtain ⟨m₂, q₂, h₂, hunpack₂, hbits₂, hvalue₂⟩ := unpack_powerOfTen hsize
  have hproduct : Rounds (m₁ * 2 ^ q₁ * (m₂ * 2 ^ q₂)) M Q := by
    rwa [hvalue₁, hvalue₂, ← zpow_natCast, Int.natAbs_of_nonneg hk]
  have hfine := exponents_lt_of_rounds hcanonical hproduct hbits₁ hbits₂
  rw [float_mul_eq, hunpack₁, hunpack₂, mul_finite hcanonical hproduct hfine]
  exact ofModel_pack_finite hy

/-- Natural numbers of any size: every decimal, with one rounding at the end. -/
theorem ofModel_ofScientific (hy : y.toModel.unpack = .finite .positive M Q hM)
    (hrounds : Rounds (n * 10 ^ k) M Q) : Float.ofModel (Float.Model.ofScientific n k) = y := by
  show Float.ofModel (.pack (UnpackedFloat.ofScientific Format.binary64 n k)) = y
  rw [ofScientific_eq (canonical_of_float hy) hrounds]
  exact ofModel_pack_finite hy

/-- An exponent is handed over as its sign and its size. -/
theorem exponent_of_natAbs (k : ℤ) :
    (if decide (k < 0) = true then Int.negOfNat k.natAbs else .ofNat k.natAbs) = k := by
  rw [Int.negOfNat_eq, Int.ofNat_eq_natCast]
  by_cases hk : k < 0
  · rw [if_pos (decide_eq_true hk), Int.ofNat_natAbs_of_nonpos hk.le, neg_neg]
  · rw [if_neg (by simpa using hk), Int.natAbs_of_nonneg (not_lt.1 hk)]

/-- **Reading a decimal gives the float in whose interval it lies**, whichever way it is read. -/
theorem nearest_eq (hy : y.toModel.unpack = .finite .positive M Q hM)
    (hrounds : Rounds (n * 10 ^ k) M Q) : nearest n k = y := by
  rw [nearest, Float.ofScientific]
  split
  · next hsmall =>
    have hsize : k.natAbs < Float.exactlyRepresentablePowersOfTen.size :=
      Nat.lt_succ_of_le hsmall.2
    dsimp only
    split
    · next hk =>
      exact toFloat_div_powerOfTen hy hrounds hsmall.1 hsize (of_decide_eq_true hk)
    · next hk =>
      exact toFloat_mul_powerOfTen hy hrounds hsmall.1 hsize
        (not_lt.1 fun hneg ↦ hk (decide_eq_true hneg))
  · rw [exponent_of_natAbs]
    exact ofModel_ofScientific hy hrounds

end

end Formulae.Decimal
