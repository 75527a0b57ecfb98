import Formulae.Proofs.Decimal.Nearest
import Mathlib.Tactic.LinearCombination

/-!
# The shortest decimal

The decimal that is written for a float lies in the interval of the float (`rounds_shortest`), so it
is read as that float. A point that the search accepts lies there by the test that it passed; what
has to be shown is that the search succeeds. On the last of its grids two neighbours are so close
that they cannot stand on both sides of an interval, and the value stands between them.
-/

namespace Formulae.Decimal

/-! ### Grids -/

variable {m n : ℕ} {q k : ℤ}

/-- A unit is a quotient of powers. -/
theorem unit_div (q k : ℤ) : ((unit q k).1 / (unit q k).2 : ℚ) = 2 ^ q / 10 ^ k := by
  have hpow (b : ℚ) (hb : b ≠ 0) (i : ℤ) : b ^ i = b ^ i.toNat / b ^ (-i).toNat := by
    rw [← zpow_natCast, ← zpow_natCast, ← zpow_sub₀ hb]
    congr 1
    omega
  rw [hpow 2 two_ne_zero q, hpow 10 (by norm_num) k]
  simp only [unit, Nat.pow_eq]
  push_cast
  field_simp

/-- A point of a grid, in units of the exponent and counted in quarters of them. -/
theorem grid_eq (n : ℕ) (q k : ℤ) :
    (n * 10 ^ k / 2 ^ q : ℚ) = n * (unit (q - 2) k).2 / (4 * (unit (q - 2) k).1) := by
  have hu : (0 : ℚ) < (unit (q - 2) k).1 := by exact_mod_cast unit_fst_pos (q - 2) k
  have hd : (0 : ℚ) < (unit (q - 2) k).2 := by exact_mod_cast unit_snd_pos (q - 2) k
  have hunit := unit_div (q - 2) k
  rw [zpow_sub₀ two_ne_zero, div_eq_div_iff hd.ne' (by positivity)] at hunit
  rw [div_eq_div_iff (by positivity) (by positivity)]
  have hfour : (2 : ℚ) ^ q / 2 ^ (2 : ℤ) = 2 ^ q / 4 := by norm_num
  rw [hfour] at hunit
  linear_combination 4 * n * hunit

/-- A point passes the test of the search exactly if it lies in the interval. -/
def ReadsBack (m : ℕ) (q k : ℤ) (n : ℕ) : Prop :=
  let (u, d) := unit (q - 2) k
  (4 * m - quartersBelow m q) * u ≤ n * d ∧ n * d ≤ (4 * m + 2) * u ∧
    (m % 2 = 0 ∨ (4 * m - quartersBelow m q) * u < n * d ∧ n * d < (4 * m + 2) * u)

theorem ReadsBack.rounds (hm : 0 < m) (h : ReadsBack m q k n) : Rounds (n * 10 ^ k) m q := by
  obtain ⟨hlow, hhigh, htie⟩ := h
  have hu : (0 : ℚ) < (unit (q - 2) k).1 := by exact_mod_cast unit_fst_pos (q - 2) k
  have hle : quartersBelow m q ≤ 4 * m := by
    have := quartersBelow_le m q
    omega
  have hcast : ((4 * m - quartersBelow m q : ℕ) : ℚ) = 4 * m - quartersBelow m q := by
    push_cast [Nat.cast_sub hle]
    rfl
  constructor
  · rw [grid_eq, le_div_iff₀ (by positivity)]
    have hlow' : ((4 * m - quartersBelow m q : ℕ) * (unit (q - 2) k).1 : ℚ) ≤
        n * (unit (q - 2) k).2 := by exact_mod_cast hlow
    rw [hcast] at hlow'
    linarith
  · rw [grid_eq, div_le_iff₀ (by positivity)]
    have hhigh' : (n * (unit (q - 2) k).2 : ℚ) ≤ (4 * m + 2) * (unit (q - 2) k).1 := by
      exact_mod_cast hhigh
    linarith
  · refine htie.imp_right fun ⟨hl, hr⟩ ↦ ⟨?_, ?_⟩
    · rw [grid_eq, lt_div_iff₀ (by positivity)]
      have hl' : ((4 * m - quartersBelow m q : ℕ) * (unit (q - 2) k).1 : ℚ) <
          n * (unit (q - 2) k).2 := by exact_mod_cast hl
      rw [hcast] at hl'
      linarith
    · rw [grid_eq, div_lt_iff₀ (by positivity)]
      have hr' : (n * (unit (q - 2) k).2 : ℚ) < (4 * m + 2) * (unit (q - 2) k).1 := by
        exact_mod_cast hr
      linarith

/-- The test of the search. -/
theorem readsBack_iff : ReadsBack m q k n ↔
    (let (u, d) := unit (q - 2) k
    let low := (4 * m - if narrowBelow m q then 1 else 2) * u
    let high := (4 * m + 2) * u
    if m % 2 == 0 then low ≤ n * d && n * d ≤ high else low < n * d && n * d < high) = true := by
  rw [ReadsBack, quartersBelow]
  dsimp only
  generalize (4 * m - if narrowBelow m q then 1 else 2) * (unit (q - 2) k).1 = low
  generalize (4 * m + 2) * (unit (q - 2) k).1 = high
  generalize n * (unit (q - 2) k).2 = point
  rcases Nat.mod_two_eq_zero_or_one m with hm | hm <;> simp [hm]
  omega

/-- The value on a grid, cut off. -/
def gridFloor (m : ℕ) (q k : ℤ) : ℕ :=
  4 * m * (unit (q - 2) k).1 / (unit (q - 2) k).2

theorem readsBack_of_pointOn? (h : pointOn? m q k = some n) : ReadsBack m q k n := by
  rw [pointOn?] at h
  dsimp only at h
  split at h
  · cases h
  · next hbelow _ =>
    cases h
    exact readsBack_iff.2 hbelow
  · next _ habove =>
    cases h
    exact readsBack_iff.2 habove
  · next hbelow habove =>
    cases h
    split
    · exact readsBack_iff.2 hbelow
    · exact readsBack_iff.2 habove

theorem not_readsBack_of_pointOn? (h : pointOn? m q k = none) :
    ¬ ReadsBack m q k (gridFloor m q k) ∧ ¬ ReadsBack m q k (gridFloor m q k + 1) := by
  rw [pointOn?] at h
  dsimp only at h
  split at h
  · next hbelow habove =>
    rw [readsBack_iff, readsBack_iff]
    exact ⟨ne_true_of_eq_false hbelow, ne_true_of_eq_false habove⟩
  all_goals cases h

theorem quartersBelow_pos (m : ℕ) (q : ℤ) : 0 < quartersBelow m q := by
  rw [quartersBelow]
  split <;> omega

/-- A grid that is finer than the interval is long has a point in the interval. -/
theorem exists_pointOn? (hm : 0 < m)
    (hfine : (unit (q - 2) k).2 < (2 + quartersBelow m q) * (unit (q - 2) k).1) :
    ∃ n, pointOn? m q k = some n := by
  rw [← Option.isSome_iff_exists, Option.isSome_iff_ne_none]
  intro hnone
  obtain ⟨hbelow, habove⟩ := not_readsBack_of_pointOn? hnone
  have hu := unit_fst_pos (q - 2) k
  have hreach : 0 < quartersBelow m q * (unit (q - 2) k).1 :=
    Nat.mul_pos (quartersBelow_pos m q) hu
  have hle : quartersBelow m q * (unit (q - 2) k).1 ≤ 4 * m * (unit (q - 2) k).1 :=
    Nat.mul_le_mul_right _ ((quartersBelow_le m q).trans (by omega))
  have hfloor : gridFloor m q k * (unit (q - 2) k).2 ≤ 4 * m * (unit (q - 2) k).1 :=
    Nat.div_mul_le_self _ _
  have hceil : 4 * m * (unit (q - 2) k).1 <
      gridFloor m q k * (unit (q - 2) k).2 + (unit (q - 2) k).2 :=
    Nat.lt_div_mul_add (unit_snd_pos (q - 2) k)
  simp only [ReadsBack, add_mul, one_mul, Nat.sub_mul] at hbelow habove hfine
  -- the two neighbours of the value stand on the two sides of the interval
  generalize 4 * m * (unit (q - 2) k).1 = value at *
  generalize gridFloor m q k * (unit (q - 2) k).2 = below at *
  generalize quartersBelow m q * (unit (q - 2) k).1 = reach at *
  omega

/-! ### The search -/

/-- The search answers with a point of the interval if its last grid has one. -/
theorem rounds_firstPoint (hm : 0 < m) (tries : ℕ) {k : ℤ}
    (hlast : ∃ n, pointOn? m q (k - tries) = some n) :
    Rounds ((firstPoint m q (tries + 1) k).1 * 10 ^ (firstPoint m q (tries + 1) k).2) m q := by
  induction tries generalizing k with
  | zero =>
    obtain ⟨n, hn⟩ := hlast
    rw [Nat.cast_zero, sub_zero] at hn
    rw [firstPoint, hn]
    exact (readsBack_of_pointOn? hn).rounds hm
  | succ tries ih =>
    rw [firstPoint]
    split
    · next n hn => exact (readsBack_of_pointOn? hn).rounds hm
    · refine ih ?_
      rwa [show k - 1 - tries = k - (tries + 1 : ℕ) by push_cast; ring]

/-! ### The last grid -/

theorem pow_length_digits_le (hn : 0 < n) : 10 ^ ((digits n).length - 1) ≤ n := by
  by_contra! hlt
  have hlength : 0 < (digits n).length := Nat.length_toDigits_pos
  rcases Nat.eq_zero_or_pos ((digits n).length - 1) with hzero | hpos
  · rw [hzero] at hlt
    omega
  · have hle := (Nat.length_toDigits_le_iff (by decide) hpos).2 hlt
    change (digits n).length ≤ _ at hle
    omega

theorem lt_pow_length_digits (n : ℕ) : n < 10 ^ (digits n).length :=
  (Nat.length_toDigits_le_iff (by decide) Nat.length_toDigits_pos).1 le_rfl

/-- The leading digit of a value has at most its size. -/
theorem pow_leadingExponent_le (hm : 0 < m) (q : ℤ) :
    (10 : ℚ) ^ leadingExponent m q ≤ m * 2 ^ q := by
  have hu := unit_fst_pos q 0
  have hd := unit_snd_pos q 0
  have hdq : (0 : ℚ) < (unit q 0).2 := by exact_mod_cast hd
  have hunit := unit_div q 0
  rw [zpow_zero, div_one] at hunit
  have hmu := Nat.mul_pos hm hu
  rw [← hunit, ← mul_div_assoc, leadingExponent]
  dsimp only
  split
  · next hle =>
    -- the whole part has as many digits as the value has before the point
    have hpow := pow_length_digits_le (Nat.div_pos hle hd)
    set length := (digits (m * (unit q 0).1 / (unit q 0).2)).length with hlength
    have hlength : 0 < length := Nat.length_toDigits_pos
    rw [show (length - 1 : ℤ) = (length - 1 : ℕ) by omega, zpow_natCast, le_div_iff₀ hdq]
    exact_mod_cast (Nat.le_div_iff_mul_le hd).1 hpow
  · next hlt =>
    -- and the reciprocal, rounded up, has no more digits than there are places
    set ceiling := ((unit q 0).2 + m * (unit q 0).1 - 1) / (m * (unit q 0).1) with hceiling
    have hpow := lt_pow_length_digits (ceiling - 1)
    set places := (digits (ceiling - 1)).length
    rw [zpow_neg, zpow_natCast, le_div_iff₀ hdq, inv_mul_le_iff₀ (by positivity)]
    have hround : (unit q 0).2 ≤ ceiling * (m * (unit q 0).1) := by
      have hceil := Nat.lt_div_mul_add (a := (unit q 0).2 + m * (unit q 0).1 - 1) hmu
      rw [← hceiling] at hceil
      omega
    have hmul : (unit q 0).2 ≤ 10 ^ places * (m * (unit q 0).1) :=
      hround.trans (Nat.mul_le_mul_right _ (by omega))
    exact_mod_cast hmul

/-- The last grid of the search is finer than the interval is long: a float has less than sixteen
digits before the last one. -/
theorem fine_of_leadingExponent (h : Canonical m q) :
    (unit (q - 2) (leadingExponent m q - 16)).2 <
      (2 + quartersBelow m q) * (unit (q - 2) (leadingExponent m q - 16)).1 := by
  have hlead := pow_leadingExponent_le h.pos q
  set k := leadingExponent m q - 16 with hk
  have hu := unit_fst_pos (q - 2) k
  have hgrid := grid_eq 1 q k
  rw [Nat.cast_one, one_mul, one_mul, div_eq_div_iff (by positivity) (by positivity)] at hgrid
  have hsixteen : 10 ^ 16 * (unit (q - 2) k).2 ≤ 4 * m * (unit (q - 2) k).1 := by
    have hsplit : (10 : ℚ) ^ leadingExponent m q = 10 ^ 16 * 10 ^ k := by
      rw [← zpow_natCast, ← zpow_add₀ (by norm_num)]
      congr 1
      omega
    rw [hsplit] at hlead
    have hpow : (0 : ℚ) < 2 ^ q := by positivity
    have hmul : (10 ^ 16 * (unit (q - 2) k).2 * 2 ^ q : ℚ) ≤
        4 * m * (unit (q - 2) k).1 * 2 ^ q := by
      calc (10 ^ 16 * (unit (q - 2) k).2 * 2 ^ q : ℚ)
          = 10 ^ 16 * 10 ^ k * (4 * (unit (q - 2) k).1) := by linear_combination -10 ^ 16 * hgrid
        _ ≤ m * 2 ^ q * (4 * (unit (q - 2) k).1) := by gcongr
        _ = 4 * m * (unit (q - 2) k).1 * 2 ^ q := by ring
    exact_mod_cast le_of_mul_le_mul_right hmul hpow
  by_contra! hle
  have hbits : 10 ^ 16 * (2 + quartersBelow m q) ≤ 4 * m := by
    refine Nat.le_of_mul_le_mul_right ?_ hu
    calc 10 ^ 16 * (2 + quartersBelow m q) * (unit (q - 2) k).1
        = 10 ^ 16 * ((2 + quartersBelow m q) * (unit (q - 2) k).1) := by rw [mul_assoc]
      _ ≤ 10 ^ 16 * (unit (q - 2) k).2 := Nat.mul_le_mul_left _ hle
      _ ≤ 4 * m * (unit (q - 2) k).1 := hsixteen
  have hlt := h.lt
  rw [quartersBelow] at hbits
  split at hbits
  · next hnarrow =>
    -- a power of two has a shorter interval, but also a smaller mantissa
    have hm : m = 2 ^ 52 := by
      simp only [narrowBelow, Bool.and_eq_true, beq_iff_eq] at hnarrow
      exact hnarrow.1
    omega
  · omega

/-- **The shortest decimal is read as the float.** It lies in the float's interval. -/
theorem rounds_shortest (h : Canonical m q) :
    Rounds ((shortest m q).1 * 10 ^ (shortest m q).2) m q := by
  refine rounds_firstPoint h.pos 17 (exists_pointOn? h.pos ?_)
  have hfine := fine_of_leadingExponent h
  rwa [show leadingExponent m q + 1 - (17 : ℕ) = leadingExponent m q - 16 by push_cast; ring]

end Formulae.Decimal
