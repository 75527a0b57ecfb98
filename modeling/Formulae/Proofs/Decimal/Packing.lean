import Formulae.Proofs.Decimal.Rounding

/-!
# Packing

A float is a pattern of bits, and arithmetic takes it apart and packs the result again. Between the
finite floats and the canonical pairs of a mantissa and an exponent this loses nothing in either
direction.

A pattern is unpacked by its exponent, of which there are three kinds: all ones, all zeros, and the
others, which have a leading bit that is not written. What the rest of the file says about
unpacking follows from one equation for each kind.
-/

namespace Formulae.Decimal

open Float.Model Float.Model.UnpackedFloat

/-! ### Parts of a pattern -/

section

variable (b : BitVec Format.binary64.numBits)

/-- The mantissa is written in the 52 lowest bits. -/
theorem toNat_unpackMantissa : (unpackMantissa b).toNat = b.toNat % 2 ^ 52 := by
  simp [unpackMantissa, BitVec.extractLsb]

/-- The exponent is written in the 11 bits above the mantissa. -/
theorem toNat_unpackExponent : (unpackExponent b).toNat = b.toNat / 2 ^ 52 % 2 ^ 11 := by
  simp [unpackExponent, BitVec.extractLsb, Nat.shiftRight_eq_div_pow]

theorem toNat_unpackMantissa_lt : (unpackMantissa b).toNat < 2 ^ 52 :=
  (unpackMantissa b).isLt

theorem toNat_unpackExponent_lt : (unpackExponent b).toNat < 2 ^ 11 :=
  (unpackExponent b).isLt

/-- The sign is the bit above both. -/
theorem toNat_unpackSign : (unpackSign b).toNat = b.toNat / 2 ^ 63 := by
  have hlt : b.toNat < 2 ^ 64 := b.isLt
  show (b.extractLsb 63 63).toNat = _
  rw [BitVec.extractLsb_toNat, Nat.shiftRight_eq_div_pow]
  omega

end

/-- A bit is a sign, -/
@[simp]
theorem toBitVec_ofBitVec (b : BitVec 1) : (Sign.ofBitVec b).toBitVec = b := by
  revert b
  decide

/-- and a sign is a bit. -/
@[simp]
theorem ofBitVec_toBitVec (s : Sign) : Sign.ofBitVec s.toBitVec = s := by
  rcases s with - | - <;> rfl

/-- Bits in front of `w` others count for `2 ^ w` each. -/
theorem toNat_append_eq {v w : ℕ} (a : BitVec v) (b : BitVec w) :
    (a ++ b).toNat = a.toNat * 2 ^ w + b.toNat := by
  rw [BitVec.toNat_append, ← Nat.shiftLeft_add_eq_or_of_lt b.isLt, Nat.shiftLeft_eq]

theorem toNat_packComponents (s : Sign) (e : BitVec 11) (m : BitVec 52) :
    (packComponents Format.binary64 s e m).toNat =
      (s.toBitVec.toNat * 2 ^ 11 + e.toNat) * 2 ^ 52 + m.toNat := by
  rw [← toNat_append_eq, ← toNat_append_eq]
  rfl

/-- A pattern is made of its three parts. -/
theorem packComponents_unpack (b : BitVec Format.binary64.numBits) :
    packComponents Format.binary64 (Sign.ofBitVec (unpackSign b)) (unpackExponent b)
      (unpackMantissa b) = b := by
  apply BitVec.eq_of_toNat_eq
  have hsign := toNat_unpackSign b
  have hlt : b.toNat < 2 ^ 64 := b.isLt
  rw [toNat_packComponents, toBitVec_ofBitVec, toNat_unpackExponent, toNat_unpackMantissa, hsign]
  omega

/-- The sign of a pattern is the one it was made with. For the other two parts the library has this
already. -/
@[simp]
theorem unpackSign_packComponents (s : Sign) (e : BitVec 11) (m : BitVec 52) :
    unpackSign (packComponents Format.binary64 s e m) = s.toBitVec := by
  apply BitVec.eq_of_toNat_eq
  have he := e.isLt
  have hm := m.isLt
  rw [toNat_unpackSign, toNat_packComponents]
  omega

/-! ### Unpacking -/

variable {s : Sign} {m : ℕ} {q : ℤ} {hm : 0 < m} {b : BitVec Format.binary64.numBits}

/-- The greatest exponent is kept for the infinities and for what is no number. -/
theorem unpack_of_ones (h : unpackExponent b = -1#11) :
    UnpackedFloat.unpack Format.binary64 b = .infinity (Sign.ofBitVec (unpackSign b)) ∨
      UnpackedFloat.unpack Format.binary64 b = .notANumber := by
  by_cases hmantissa : unpackMantissa b = 0#52
  · exact .inl ((if_pos h).trans (if_pos hmantissa))
  · exact .inr ((if_pos h).trans (if_neg hmantissa))

/-- The least exponent stands for zero and for the floats whose leading bit is written. -/
theorem unpack_of_zeros (h : unpackExponent b = 0#11) :
    UnpackedFloat.unpack Format.binary64 b =
      if hzero : unpackMantissa b = 0#52 then .zero (Sign.ofBitVec (unpackSign b))
      else .finite (Sign.ofBitVec (unpackSign b)) (unpackMantissa b).toNat (-1074)
        ((BitVec.toNat_pos _).2 ((BitVec.pos_iff_ne_zero _).2 hzero)) := by
  have hones : unpackExponent b ≠ -1#11 := h ▸ by decide
  have hexponent : ((unpackExponent b).toNat - ((1023 : ℕ) + (52 : ℕ)) + 1 : ℤ) = -1074 := by
    rw [h]
    rfl
  rw [← hexponent]
  exact (if_neg hones).trans (if_pos h)

/-- Under any other exponent a one is read in front of the mantissa. -/
theorem unpack_of_others (hzeros : unpackExponent b ≠ 0#11) (hones : unpackExponent b ≠ -1#11) :
    ∃ hpos, UnpackedFloat.unpack Format.binary64 b = .finite (Sign.ofBitVec (unpackSign b))
      (2 ^ 52 + (unpackMantissa b).toNat) ((unpackExponent b).toNat - 1075) hpos := by
  have hlead : (1#1 ++ unpackMantissa b).toNat = 2 ^ 52 + (unpackMantissa b).toNat :=
    toNat_append_eq _ _
  rw [← hlead]
  exact ⟨_, (if_neg hones).trans (if_neg hzeros)⟩

/-- The two kinds of patterns that are finite floats other than zero: with the least exponent, and
with a leading bit that is not written. -/
theorem unpack_eq_finite_iff :
    unpack Format.binary64 b = .finite s m q hm ↔ Sign.ofBitVec (unpackSign b) = s ∧
      (unpackExponent b = 0#11 ∧ (unpackMantissa b).toNat = m ∧ q = -1074 ∨
        unpackExponent b ≠ 0#11 ∧ unpackExponent b ≠ -1#11 ∧
          2 ^ 52 + (unpackMantissa b).toNat = m ∧ q = (unpackExponent b).toNat - 1075) := by
  by_cases hzeros : unpackExponent b = 0#11
  · rw [unpack_of_zeros hzeros]
    by_cases hmantissa : unpackMantissa b = 0#52
    · rw [dif_pos hmantissa]
      constructor
      · intro h
        cases h
      · rintro ⟨-, ⟨-, rfl, -⟩ | ⟨hexponent, -⟩⟩
        · exact absurd (congrArg BitVec.toNat hmantissa) hm.ne'
        · exact absurd hzeros hexponent
    · rw [dif_neg hmantissa, UnpackedFloat.finite.injEq]
      simp only [hzeros, true_and, ne_eq, not_true_eq_false, false_and, or_false, eq_comm (b := q)]
  · by_cases hones : unpackExponent b = -1#11
    · constructor
      · intro h
        rcases unpack_of_ones hones with hunpack | hunpack <;> rw [hunpack] at h <;> cases h
      · rintro ⟨-, ⟨hexponent, -⟩ | ⟨-, hexponent, -⟩⟩
        · exact absurd hexponent hzeros
        · exact absurd hones hexponent
    · obtain ⟨hpos, hunpack⟩ := unpack_of_others hzeros hones
      rw [hunpack, UnpackedFloat.finite.injEq]
      simp only [hzeros, hones, false_and, false_or, ne_eq, not_false_eq_true, true_and,
        eq_comm (b := q)]

theorem canonical_of_unpack (h : UnpackedFloat.unpack Format.binary64 b = .finite s m q hm) :
    Canonical m q := by
  have hmantissa := toNat_unpackMantissa_lt b
  have hexponent := toNat_unpackExponent_lt b
  obtain ⟨-, ⟨-, rfl, rfl⟩ | ⟨hzero, hones, rfl, rfl⟩⟩ := unpack_eq_finite_iff.1 h
  · exact ⟨hm, by omega, by omega, by omega, .inr rfl⟩
  · have hpos : 0 < (unpackExponent b).toNat := by
      rwa [BitVec.toNat_pos, BitVec.pos_iff_ne_zero]
    have hlt : (unpackExponent b).toNat ≠ 2047 := fun heq ↦ hones (BitVec.eq_of_toNat_eq heq)
    exact ⟨hm, by omega, by omega, by omega, .inl (by omega)⟩

/-! ### Packing -/

/-- The pattern of a zero has nothing but a sign. -/
theorem pack_unpack_zero (h : UnpackedFloat.unpack Format.binary64 b = .zero s) :
    UnpackedFloat.pack Format.binary64 (.zero s) = b := by
  by_cases hzeros : unpackExponent b = 0#11
  · rw [unpack_of_zeros hzeros] at h
    by_cases hmantissa : unpackMantissa b = 0#52
    · rw [dif_pos hmantissa] at h
      cases h
      have hparts := packComponents_unpack b
      rwa [hzeros, hmantissa] at hparts
    · rw [dif_neg hmantissa] at h
      cases h
  · by_cases hones : unpackExponent b = -1#11
    · rcases unpack_of_ones hones with hunpack | hunpack <;> rw [hunpack] at h <;> cases h
    · obtain ⟨hpos, hunpack⟩ := unpack_of_others hzeros hones
      rw [hunpack] at h
      cases h

/-- A canonical pair is packed by whether it has all its bits. -/
theorem pack_finite (h : Canonical m q) :
    UnpackedFloat.pack Format.binary64 (.finite s m q hm) =
      packComponents Format.binary64 s
        (if 2 ^ 52 ≤ m then BitVec.ofNat 11 (q + 1075).toNat else 0#11) (BitVec.ofNat 52 m) := by
  have hbias : (q + (1023 : ℕ) + (52 : ℕ) : ℤ) = q + 1075 := by omega
  have hle := h.exponent_le
  have hlog : m.log2 + 1 = 53 ↔ 2 ^ 52 ≤ m := by
    have hlt : m.log2 < 53 := (Nat.log2_lt hm.ne').2 h.lt
    rw [← Nat.le_log2 hm.ne']
    omega
  -- the exponent of a canonical pair is not too great, so this is no infinity
  have hsmall : ¬ 2 ^ 11 ≤ (q + (1023 : ℕ) + (52 : ℕ) : ℤ).toNat + 1 := by omega
  refine (if_neg hsmall).trans ?_
  show (if m.log2 + 1 = 53 then
      packComponents Format.binary64 s (BitVec.ofNat 11 (q + (1023 : ℕ) + (52 : ℕ) : ℤ).toNat)
        (BitVec.ofNat 52 m)
    else packComponents Format.binary64 s 0#11 (BitVec.ofNat 52 m)) = _
  rw [if_congr hlog rfl rfl, hbias]
  split <;> rfl

/-- A finite pattern is packed again from what it is unpacked to, -/
theorem pack_unpack_finite (h : UnpackedFloat.unpack Format.binary64 b = .finite s m q hm) :
    UnpackedFloat.pack Format.binary64 (.finite s m q hm) = b := by
  rw [pack_finite (canonical_of_unpack h)]
  have hmantissa : BitVec.ofNat 52 m = unpackMantissa b := by
    apply BitVec.eq_of_toNat_eq
    have hlt := toNat_unpackMantissa_lt b
    obtain ⟨-, ⟨-, rfl, -⟩ | ⟨-, -, rfl, -⟩⟩ := unpack_eq_finite_iff.1 h <;>
      rw [BitVec.toNat_ofNat] <;> omega
  have hexponent : (if 2 ^ 52 ≤ m then BitVec.ofNat 11 (q + 1075).toNat else 0#11) =
      unpackExponent b := by
    have hlt := toNat_unpackMantissa_lt b
    obtain ⟨-, ⟨hzero, rfl, -⟩ | ⟨-, -, rfl, rfl⟩⟩ := unpack_eq_finite_iff.1 h
    · rw [if_neg (by omega), hzero]
    · rw [if_pos (by omega), show ((unpackExponent b).toNat - 1075 + 1075 : ℤ).toNat =
        (unpackExponent b).toNat by omega, BitVec.ofNat_toNat, BitVec.setWidth_eq]
  obtain ⟨rfl, -⟩ := unpack_eq_finite_iff.1 h
  rw [hmantissa, hexponent, packComponents_unpack]

/-- and a canonical pair is unpacked again from what it is packed to. -/
theorem unpack_pack_finite (h : Canonical m q) :
    UnpackedFloat.unpack Format.binary64 (UnpackedFloat.pack Format.binary64 (.finite s m q hm)) =
      .finite s m q hm := by
  have hm53 := h.lt
  have hq := h.le_exponent
  have hq' := h.exponent_le
  have hmantissa : (BitVec.ofNat Format.binary64.mantissaBitsWithoutImplicit m).toNat =
      m % 2 ^ 52 :=
    BitVec.toNat_ofNat m 52
  rw [pack_finite h, unpack_eq_finite_iff, unpackSign_packComponents, unpackExponent_packComponents,
    unpackMantissa_packComponents, ofBitVec_toBitVec, hmantissa]
  refine ⟨rfl, ?_⟩
  split
  · next hle =>
    -- the exponent lies strictly between all zeros and all ones
    have hexponent : (BitVec.ofNat 11 (q + 1075).toNat).toNat = (q + 1075).toNat := by
      rw [BitVec.toNat_ofNat]
      omega
    refine .inr ⟨fun hzero ↦ ?_, fun hones ↦ ?_, by omega, by rw [hexponent]; omega⟩
    · rw [hzero] at hexponent
      simp at hexponent
      omega
    · rw [hones] at hexponent
      simp at hexponent
      omega
  · next hlt =>
    exact .inl ⟨rfl, by omega, h.normal.resolve_left hlt⟩

/-! ### Floats -/

variable {x : Float}

theorem canonical_of_float (h : x.toModel.unpack = .finite s m q hm) : Canonical m q :=
  canonical_of_unpack h

/-- A float is determined by its pattern. -/
theorem ofModel_eq_of_toBitVec {y : Float.Model}
    (h : y.toBits.toBitVec = x.toModel.toBits.toBitVec) : Float.ofModel y = x := by
  obtain ⟨⟨bits⟩, hvalid⟩ := y
  obtain ⟨⟨⟨bits'⟩, hvalid'⟩⟩ := x
  cases h
  rfl

/-- A finite float is what it is packed from. -/
theorem ofModel_pack_finite (h : x.toModel.unpack = .finite s m q hm) :
    Float.ofModel (.pack (.finite s m q hm)) = x :=
  ofModel_eq_of_toBitVec (pack_unpack_finite h)

/-- So is a zero, with its sign. -/
theorem ofModel_pack_zero (h : x.toModel.unpack = .zero s) :
    Float.ofModel (.pack (.zero s)) = x :=
  ofModel_eq_of_toBitVec (pack_unpack_zero h)

theorem unpack_model_pack_finite (h : Canonical m q) :
    (Float.Model.pack (.finite s m q hm)).unpack = .finite s m q hm :=
  unpack_pack_finite h

end Formulae.Decimal
