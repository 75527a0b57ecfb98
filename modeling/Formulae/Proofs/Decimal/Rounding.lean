import Formulae.Decimal.Shortest
import Mathlib.Algebra.Order.Field.Power
import Mathlib.Algebra.Order.Ring.Rat
import Mathlib.Tactic.FieldSimp
import Mathlib.Tactic.Linarith
import Mathlib.Tactic.Positivity

/-!
# Rounding

What the rounding of floats computes, in terms of the rational number that is rounded. A mantissa
with a round bit and a sticky bit stands for the rational numbers between two neighbours, or for one
of four points (`Stands`). Shifting keeps that, so the last shift leaves the bits that decide.

A finite float `M · 2 ^ Q` is the one nearest to the rational numbers of its **interval**
(`Rounds`). The interval is cut at the middle between neighbours, and so its lower half is shorter
where the float is a power of two. Rounding such a number gives back `M` and `Q`
(`roundWithAccuracy_eq`); below a power of two this takes a carry and one shift more.
-/

namespace Formulae.Decimal

open Float.Model Float.Model.UnpackedFloat

/-- The exponent of a float with this total exponent: low enough for 53 bits, and bounded below. -/
theorem targetExponent_binary64 (t : ℤ) : Format.binary64.targetExponent t = max (t - 53) (-1074) :=
  rfl

/-! ### Mantissas with two more bits -/

/-- An extended mantissa says this much about the number that it stands for. -/
def Stands (em : ExtendedMantissa) (x : ℚ) : Prop :=
  match em.roundBit, em.stickyBit with
  | false, false => x = em.mantissa
  | false, true => em.mantissa < x ∧ x < em.mantissa + 1 / 2
  | true, false => x = em.mantissa + 1 / 2
  | true, true => em.mantissa + 1 / 2 < x ∧ x < em.mantissa + 1

namespace Stands

variable {em : ExtendedMantissa} {x : ℚ}

/-- The number lies within the unit above its mantissa. -/
theorem bounds (h : Stands em x) : (em.mantissa : ℚ) ≤ x ∧ x < em.mantissa + 1 := by
  obtain ⟨m, - | -, - | -⟩ := em <;> simp only [Stands] at h <;> constructor <;> linarith

/-- One bit less halves the number, and what is shifted out is remembered. -/
theorem shiftRightOne (h : Stands em x) : Stands em.shiftRightOne (x / 2) := by
  obtain ⟨m, roundBit, stickyBit⟩ := em
  -- the bit that is shifted out becomes the round bit
  have hm : (m : ℚ) = 2 * (m / 2 : ℕ) + (m % 2 : ℕ) := by exact_mod_cast (Nat.div_add_mod m 2).symm
  rcases Nat.mod_two_eq_zero_or_one m with hbit | hbit <;>
    rcases roundBit with - | - <;> rcases stickyBit with - | - <;>
      simp only [Stands, ExtendedMantissa.shiftRightOne, hbit, hm, bne_self_eq_false,
        Nat.reduceBNe, Bool.or_self, Bool.or_true, Bool.or_false, Nat.cast_zero,
        Nat.cast_one] at h ⊢ <;>
        first | linarith | constructor <;> linarith

theorem shiftRight (h : Stands em x) (n : ℕ) : Stands (em >>> n) (x / 2 ^ n) := by
  show Stands (n.repeat ExtendedMantissa.shiftRightOne em) _
  induction n with
  | zero => rwa [pow_zero, div_one]
  | succ n ih =>
    rw [pow_succ, ← div_div]
    exact ih.shiftRightOne

/-- A number that is nearest to `x`, and even if there are two, is what the mantissa is rounded
to. -/
theorem roundedMantissa_eq (h : Stands em x) {m : ℕ} (hlow : (m : ℚ) - 1 / 2 ≤ x)
    (hhigh : x ≤ m + 1 / 2) (htie : m % 2 = 0 ∨ (m : ℚ) - 1 / 2 < x ∧ x < m + 1 / 2) :
    em.roundedMantissa = m := by
  obtain ⟨n, roundBit, stickyBit⟩ := em
  have hcast (a b : ℕ) (hlt : (a : ℚ) < b + 1) : a ≤ b := by
    exact Nat.lt_succ_iff.1 (by exact_mod_cast hlt)
  rcases roundBit with - | - <;> rcases stickyBit with - | - <;> simp only [Stands] at h
  · show n = m
    exact Nat.le_antisymm (hcast _ _ (by linarith)) (hcast _ _ (by linarith))
  · show n = m
    exact Nat.le_antisymm (hcast _ _ (by linarith)) (hcast _ _ (by linarith))
  · -- the two neighbours are equally near
    show n + n % 2 = m
    have hle : n ≤ m := hcast _ _ (by linarith)
    have hge : m ≤ n + 1 := hcast _ _ (by push_cast; linarith)
    have heven : m % 2 = 0 := by
      refine htie.resolve_right ?_
      rintro ⟨hl, hr⟩
      have h1 : n + 1 ≤ m := hcast _ _ (by push_cast; linarith)
      have h2 : m ≤ n := hcast _ _ (by linarith)
      omega
    omega
  · show n + 1 = m
    exact Nat.le_antisymm (hcast _ _ (by push_cast; linarith)) (hcast _ _ (by push_cast; linarith))

end Stands

/-! ### Intervals -/

/-- A mantissa and an exponent as a finite float has them. -/
structure Canonical (M : ℕ) (Q : ℤ) : Prop where
  pos : 0 < M
  lt : M < 2 ^ 53
  le_exponent : -1074 ≤ Q
  exponent_le : Q ≤ 971
  normal : 2 ^ 52 ≤ M ∨ Q = -1074

/-- How far the interval of `M · 2 ^ Q` reaches below it, in quarters of `2 ^ Q`. -/
def quartersBelow (M : ℕ) (Q : ℤ) : ℕ :=
  if narrowBelow M Q then 1 else 2

/-- A number lies in the interval of the float `M · 2 ^ Q`, whose ends belong to it if the mantissa
is even. -/
structure Rounds (x : ℚ) (M : ℕ) (Q : ℤ) : Prop where
  low : M - quartersBelow M Q / 4 ≤ x / 2 ^ Q
  high : x / 2 ^ Q ≤ M + 1 / 2
  tie : M % 2 = 0 ∨ M - quartersBelow M Q / 4 < x / 2 ^ Q ∧ x / 2 ^ Q < M + 1 / 2

variable {x : ℚ} {M m : ℕ} {Q T e : ℤ}

/-- Units of one exponent counted in units of a smaller one. -/
theorem div_two_zpow_of_le (x : ℚ) (hle : e ≤ T) : x / 2 ^ e = x / 2 ^ T * 2 ^ (T - e).toNat := by
  have hsplit : (2 : ℚ) ^ T = 2 ^ e * 2 ^ (T - e).toNat := by
    rw [← zpow_natCast, ← zpow_add₀ two_ne_zero]
    congr 1
    omega
  rw [hsplit]
  field_simp

/-- The exponent that a number asks for is found from any finer approximation of it. -/
theorem targetExponent_eq (hle : e ≤ T) (hT : -1074 ≤ T) (hlow : m ≤ x / 2 ^ e)
    (hhigh : x / 2 ^ e < m + 1) (hlt : x / 2 ^ T < 2 ^ 53)
    (hnormal : 2 ^ 52 ≤ x / 2 ^ T ∨ T = -1074) :
    Format.binary64.targetExponent (totalExponent m e) = T := by
  rw [div_two_zpow_of_le x hle] at hlow hhigh
  have hn : e + (T - e).toNat = T := by omega
  generalize (T - e).toNat = n at hlow hhigh hn
  have hpos : (0 : ℚ) < 2 ^ n := by positivity
  have hlog : m.log2 < 53 + n := by
    rcases Nat.eq_zero_or_pos m with rfl | hm
    · rw [Nat.log2_zero]
      omega
    · refine (Nat.log2_lt hm.ne').2 ?_
      have hmul : (m : ℚ) < 2 ^ 53 * 2 ^ n :=
        hlow.trans_lt (mul_lt_mul_of_pos_right hlt hpos)
      rw [pow_add]
      exact_mod_cast hmul
  rw [targetExponent_binary64, totalExponent]
  rcases hnormal with hnormal | rfl
  · have hm : 2 ^ (52 + n) ≤ m := by
      have hmul : (2 : ℚ) ^ 52 * 2 ^ n < m + 1 :=
        (mul_le_mul_of_nonneg_right hnormal hpos.le).trans_lt hhigh
      rw [pow_add]
      exact Nat.lt_succ_iff.1 (by exact_mod_cast hmul)
    have hlog' : 52 + n ≤ m.log2 := (Nat.le_log2 (Nat.two_pow_pos _ |>.trans_le hm).ne').2 hm
    omega
  · omega

theorem shiftToTargetExponent_eq (htarget : Format.binary64.targetExponent (totalExponent m e) = T)
    (hle : e ≤ T) (accuracy : Accuracy) :
    shiftToTargetExponent Format.binary64 m e accuracy =
      (ExtendedMantissa.ofMantissaAndAccuracy m accuracy >>> (T - e).toNat, T) := by
  rw [shiftToTargetExponent, htarget, shiftToExponent]
  exact congrArg (Prod.mk _) (by omega)

/-- Rounding is a shift to the exponent that the number asks for, and then a shift to the exponent
that the rounded mantissa asks for. -/
theorem roundWithAccuracy_of_shifts {sign : Sign} {accuracy : Accuracy} {N : ℕ}
    (htarget : Format.binary64.targetExponent (totalExponent m e) = T) (heT : e ≤ T)
    (hN : (ExtendedMantissa.ofMantissaAndAccuracy m accuracy >>> (T - e).toNat).roundedMantissa = N)
    (htarget' : Format.binary64.targetExponent (totalExponent N T) = Q) (hTQ : T ≤ Q)
    (hM : (ExtendedMantissa.ofMantissaAndAccuracy N .exact >>> (Q - T).toNat).mantissa = M)
    (hpos : 0 < M) :
    roundWithAccuracy Format.binary64 sign m e accuracy = .finite sign M Q hpos := by
  subst hN hM
  rw [roundWithAccuracy, shiftToTargetExponent_eq htarget heT]
  dsimp only
  rw [shiftToTargetExponent_eq htarget' hTQ]
  exact dif_neg hpos.ne'

theorem stands_ofMantissa_exact (m : ℕ) :
    Stands (ExtendedMantissa.ofMantissaAndAccuracy m .exact) m :=
  rfl

/-- A canonical number is in its place already. -/
theorem Canonical.targetExponent (h : Canonical M Q) :
    Format.binary64.targetExponent (totalExponent M Q) = Q := by
  have hunit : (M : ℚ) * 2 ^ Q / 2 ^ Q = M := mul_div_cancel_right₀ _ (by positivity)
  refine targetExponent_eq (x := M * 2 ^ Q) le_rfl h.le_exponent hunit.ge ?_ ?_ ?_
  · rw [hunit]
    exact lt_add_one _
  · rw [hunit]
    exact_mod_cast h.lt
  · rw [hunit]
    exact h.normal.imp_left fun hM ↦ by exact_mod_cast hM

@[simp]
theorem mantissa_ofMantissaAndAccuracy (m : ℕ) (accuracy : Accuracy) :
    (ExtendedMantissa.ofMantissaAndAccuracy m accuracy).mantissa = m := by
  rcases accuracy with - | (- | - | -) <;> rfl

theorem quartersBelow_le (M : ℕ) (Q : ℤ) : quartersBelow M Q ≤ 2 := by
  rw [quartersBelow]
  split <;> omega

/-- Below a power of two, the float is the carry of the largest mantissa of finer units. -/
theorem Rounds.of_lt (hcanonical : Canonical M Q) (h : Rounds x M Q) (hlt : x / 2 ^ Q < 2 ^ 52)
    (hQ : Q ≠ -1074) : M = 2 ^ 52 ∧ 2 ^ 53 - 1 / 2 ≤ x / 2 ^ (Q - 1) := by
  have hM : M = 2 ^ 52 := by
    have hlow := h.low
    have hreach : (quartersBelow M Q : ℚ) ≤ 2 := by exact_mod_cast quartersBelow_le M Q
    have hlt' : (M : ℚ) < 2 ^ 52 + 1 := by linarith
    exact Nat.le_antisymm (Nat.lt_succ_iff.1 (by exact_mod_cast hlt'))
      (hcanonical.normal.resolve_right hQ)
  refine ⟨hM, ?_⟩
  have hreach : quartersBelow M Q = 1 := by
    have hnarrow : narrowBelow M Q = true := by
      have := hcanonical.le_exponent
      simp only [narrowBelow, hM, Bool.and_eq_true, decide_eq_true_eq]
      exact ⟨by decide, by omega⟩
    rw [quartersBelow, if_pos hnarrow]
  have hlow := h.low
  rw [hreach, hM] at hlow
  have hunit : x / 2 ^ (Q - 1) = x / 2 ^ Q * 2 := by
    rw [div_two_zpow_of_le x (by omega : Q - 1 ≤ Q), show (Q - (Q - 1)).toNat = 1 by omega, pow_one]
  rw [hunit]
  push_cast at hlow
  linarith

section

variable {sign : Sign} {accuracy : Accuracy}

/-- An approximation is an approximation in larger units, too. -/
theorem Stands.shiftTo
    (h : Stands (ExtendedMantissa.ofMantissaAndAccuracy m accuracy) (x / 2 ^ e)) (hle : e ≤ T) :
    Stands (ExtendedMantissa.ofMantissaAndAccuracy m accuracy >>> (T - e).toNat) (x / 2 ^ T) := by
  have hshift := h.shiftRight (T - e).toNat
  rwa [div_two_zpow_of_le x hle, mul_div_cancel_right₀ _ (by positivity)] at hshift

variable (hcanonical : Canonical M Q) (hrounds : Rounds x M Q)
  (hstands : Stands (ExtendedMantissa.ofMantissaAndAccuracy m accuracy) (x / 2 ^ e))

include hrounds hstands

/-- A number below the power of two that it is rounded to: the bits run over, and one more shift
restores the mantissa. -/
theorem roundWithAccuracy_of_lt (hlt : e < Q) (hbelow : x / 2 ^ Q < 2 ^ 52) (hQ : Q ≠ -1074) :
    roundWithAccuracy Format.binary64 sign m e accuracy = .finite sign M Q hcanonical.pos := by
  obtain ⟨hlow, hhigh⟩ := hstands.bounds
  rw [mantissa_ofMantissaAndAccuracy] at hlow hhigh
  obtain ⟨rfl, hxlow⟩ := hrounds.of_lt hcanonical hbelow hQ
  have hle : e ≤ Q - 1 := by omega
  have hminus := hcanonical.le_exponent
  have hunit : x / 2 ^ (Q - 1) < 2 ^ 53 := by
    rw [div_two_zpow_of_le x (by omega : Q - 1 ≤ Q), show (Q - (Q - 1)).toNat = 1 by omega]
    linarith
  have htarget : Format.binary64.targetExponent (totalExponent m e) = Q - 1 :=
    targetExponent_eq hle (by omega) hlow hhigh hunit (.inl (by linarith))
  have hN := (hstands.shiftTo hle).roundedMantissa_eq (m := 2 ^ 53)
    (by push_cast; exact hxlow) (by push_cast; linarith) (.inl (by norm_num))
  have htarget' : Format.binary64.targetExponent (totalExponent (2 ^ 53) (Q - 1)) = Q := by
    have hsame : totalExponent (2 ^ 53) (Q - 1) = totalExponent (2 ^ 52) Q := by
      simp only [totalExponent, Nat.log2_two_pow]
      omega
    rw [hsame, hcanonical.targetExponent]
  refine roundWithAccuracy_of_shifts htarget hle hN htarget' (by omega) ?_ _
  rw [show (Q - (Q - 1)).toNat = 1 by omega]
  rfl

/-- Any other number: the first shift leaves the mantissa of the float. -/
theorem roundWithAccuracy_of_le (hle : e ≤ Q) (hnormal : 2 ^ 52 ≤ x / 2 ^ Q ∨ Q = -1074) :
    roundWithAccuracy Format.binary64 sign m e accuracy = .finite sign M Q hcanonical.pos := by
  obtain ⟨hlow, hhigh⟩ := hstands.bounds
  rw [mantissa_ofMantissaAndAccuracy] at hlow hhigh
  have hMlt : (M : ℚ) + 1 ≤ 2 ^ 53 := by exact_mod_cast hcanonical.lt
  have hxlow := hrounds.low
  have hxhigh := hrounds.high
  have hreach : (quartersBelow M Q : ℚ) ≤ 2 := by exact_mod_cast quartersBelow_le M Q
  have htarget : Format.binary64.targetExponent (totalExponent m e) = Q :=
    targetExponent_eq hle hcanonical.le_exponent hlow hhigh (by linarith) hnormal
  have hN := (hstands.shiftTo hle).roundedMantissa_eq (m := M) (by linarith) hxhigh
    (hrounds.tie.imp_right fun htie ↦ ⟨by linarith, htie.2⟩)
  refine roundWithAccuracy_of_shifts htarget hle hN hcanonical.targetExponent le_rfl ?_ _
  rw [show (Q - Q).toNat = 0 by omega]
  rfl

/-- A number of the interval of a float is rounded to the float, from any approximation that is
fine enough. -/
theorem roundWithAccuracy_eq (hle : e ≤ Q) (hfine : x / 2 ^ Q < 2 ^ 52 → e < Q ∨ Q = -1074) :
    roundWithAccuracy Format.binary64 sign m e accuracy = .finite sign M Q hcanonical.pos := by
  by_cases hQ : Q = -1074
  · exact roundWithAccuracy_of_le hcanonical hrounds hstands hle (.inr hQ)
  · rcases lt_or_ge (x / 2 ^ Q) (2 ^ 52) with hbelow | hnormal
    · have hlt := (hfine hbelow).resolve_right hQ
      exact roundWithAccuracy_of_lt hcanonical hrounds hstands hlt hbelow hQ
    · exact roundWithAccuracy_of_le hcanonical hrounds hstands hle (.inl hnormal)

end

end Formulae.Decimal
