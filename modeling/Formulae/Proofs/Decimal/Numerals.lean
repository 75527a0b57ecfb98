import Formulae.Decimal.Layout
import Formulae.Lexeme
import Formulae.Proofs.Decimal.Shortest

/-!
# Written numbers are read back

A finite number without sign is written as a **numeral** of digits and at most one point, and the
numeral is read as that number (`exists_numeral`). It has no point, or one between two digits, or
one behind a zero in front, and each of these is written for its own powers of ten
(`exists_numeral_whole`, `exists_numeral_between`, `exists_numeral_front`). A sign stands in front
of a numeral, and what it does is a multiplication by `-1`, which is exact.

The scanner takes a whole numeral, if what comes after it cannot continue a name
(`takeNumeral_append`): everything that continues a numeral would continue a name as well.
-/

namespace Formulae

/-- Nothing stands here that could be part of the same token as a name or a number before it. -/
def Delimited (rest : List Char) : Prop :=
  ∀ c ∈ rest.head?, isNameChar c = false

theorem delimited_nil : Delimited [] :=
  nofun

/-- What is no part of a name delimits what is in front of it. -/
theorem delimited_cons {c : Char} {rest : List Char} (hc : isNameChar c = false) :
    Delimited (c :: rest) := by
  rintro _ ⟨⟩
  exact hc

theorem isNameChar_of_isDigit {c : Char} (h : c.isDigit) : isNameChar c = true := by
  have hbounds : 48 ≤ c.toNat ∧ c.toNat ≤ 57 := by
    simpa [Char.isDigit, UInt32.le_iff_toNat_le] using h
  have hblank : isBlank c = false := by
    simp [isBlank]
    omega
  have hglyph : Glyph.ofChar? c = none := by
    unfold Glyph.ofChar?
    split <;> first | rfl | exact absurd hbounds (by decide)
  rw [isNameChar, hblank, hglyph]
  rfl

/-- Digits, and a point with more digits behind it if there are any. -/
structure Numeral where
  whole : List Char
  fraction : List Char
  whole_ne_nil : whole ≠ []
  isDigit_whole : ∀ c ∈ whole, c.isDigit
  isDigit_fraction : ∀ c ∈ fraction, c.isDigit

namespace Numeral

/-- The point and the digits behind it. -/
def tail (fraction : List Char) : List Char :=
  if fraction.isEmpty then [] else '.' :: fraction

/-- The numeral as a text. -/
def chars (numeral : Numeral) : List Char :=
  numeral.whole ++ tail numeral.fraction

/-- The number that is written, exactly. -/
def exact (numeral : Numeral) : ℚ :=
  Decimal.natural (numeral.whole ++ numeral.fraction) * 10 ^ (-numeral.fraction.length : ℤ)

/-- The number nearest to the numeral. -/
def value (numeral : Numeral) : Float :=
  Decimal.nearest (Decimal.natural (numeral.whole ++ numeral.fraction)) (-numeral.fraction.length)

variable {numeral : Numeral} {ds rest : List Char}

/-- A run of characters of one kind ends where another kind starts. -/
theorem takeWhile_append {p : Char → Bool} (hds : ∀ c ∈ ds, p c)
    (hrest : ∀ c ∈ rest.head?, p c = false) : (ds ++ rest).takeWhile p = ds := by
  rw [List.takeWhile_append_of_pos hds]
  rcases rest with - | ⟨c, rest⟩
  · exact List.append_nil ds
  · rw [List.takeWhile_cons_of_neg (by simp [hrest c rfl]), List.append_nil]

theorem dropWhile_append {p : Char → Bool} (hds : ∀ c ∈ ds, p c)
    (hrest : ∀ c ∈ rest.head?, p c = false) : (ds ++ rest).dropWhile p = rest := by
  rw [List.dropWhile_append_of_pos hds]
  rcases rest with - | ⟨c, rest⟩
  · rfl
  · rw [List.dropWhile_cons_of_neg (by simp [hrest c rfl])]

/-- A run of digits is taken up to what is no digit. -/
theorem takeDigits_append (hds : ∀ c ∈ ds, c.isDigit)
    (hrest : ∀ c ∈ rest.head?, c.isDigit = false) :
    takeDigits (ds ++ rest) = (ds, rest) := by
  rw [takeDigits, List.span_eq_takeWhile_dropWhile, takeWhile_append hds hrest,
    dropWhile_append hds hrest]

/-- The digits in front of a fraction end with it, or with what ends the numeral. -/
theorem head?_tail_append (fraction : List Char) (hrest : ∀ c ∈ rest.head?, c.isDigit = false) :
    ∀ c ∈ (tail fraction ++ rest).head?, c.isDigit = false := by
  rw [tail]
  split
  · exact hrest
  · rintro _ ⟨⟩
    rfl

theorem not_isDigit_of_delimited (h : Delimited rest) : ∀ c ∈ rest.head?, c.isDigit = false := by
  intro c hc
  by_contra hdigit
  have hname := isNameChar_of_isDigit (Bool.of_not_eq_false hdigit)
  rw [h c hc] at hname
  cases hname

/-- A fraction is taken whole, and none is found where there is none. -/
theorem takeFraction_tail_append (hds : ∀ c ∈ ds, c.isDigit) (hrest : Delimited rest) :
    takeFraction (tail ds ++ rest) = (tail ds, rest) := by
  rcases ds with - | ⟨d, ds⟩
  · show takeFraction rest = ([], rest)
    unfold takeFraction
    split
    · -- a point would continue a name
      cases hrest '.' rfl
    · rfl
  · show takeFraction ('.' :: (d :: ds ++ rest)) = ('.' :: d :: ds, rest)
    rw [takeFraction, takeDigits_append hds (not_isDigit_of_delimited hrest)]

/-- An exponent would begin with a letter. -/
theorem takeExponent_of_delimited (hrest : Delimited rest) : takeExponent rest = ([], rest) := by
  rcases rest with - | ⟨c, rest⟩
  · rfl
  · have hmark : ¬ (c = 'e' ∨ c = 'E') := by
      rintro (rfl | rfl) <;> cases hrest _ rfl
    unfold takeExponent
    exact if_neg hmark

/-- The scanner takes the whole of a numeral. -/
theorem takeNumeral_append (hrest : Delimited rest) :
    takeNumeral (numeral.chars ++ rest) = (numeral.chars, rest) := by
  have hend := head?_tail_append numeral.fraction (not_isDigit_of_delimited hrest)
  have hwhole : numeral.whole.isEmpty = false := by
    simpa using numeral.whole_ne_nil
  rw [chars, List.append_assoc, takeNumeral, takeDigits_append numeral.isDigit_whole hend]
  dsimp only
  rw [takeFraction_tail_append numeral.isDigit_fraction hrest]
  dsimp only
  rw [hwhole, takeExponent_of_delimited hrest]
  simp

/-- The reader finds the parts of a numeral where they were put. -/
theorem numeral?_chars (numeral : Numeral) :
    Decimal.numeral? numeral.chars = some numeral.value := by
  have hend : ∀ c ∈ (tail numeral.fraction ++ []).head?, c.isDigit = false :=
    head?_tail_append numeral.fraction nofun
  rw [List.append_nil] at hend
  have hwhole : numeral.whole.isEmpty = false := by
    simpa using numeral.whole_ne_nil
  have htake := takeWhile_append numeral.isDigit_whole hend
  have hdrop := dropWhile_append numeral.isDigit_whole hend
  rw [Decimal.numeral?, chars]
  dsimp only
  rw [htake, hdrop, hwhole, value, tail]
  rcases hfraction : numeral.fraction with - | ⟨d, ds⟩
  · simp
  · have hds : ∀ c ∈ d :: ds, c.isDigit := hfraction ▸ numeral.isDigit_fraction
    have htake' : (d :: ds ++ []).takeWhile Char.isDigit = d :: ds := takeWhile_append hds nofun
    have hdrop' : (d :: ds ++ []).dropWhile Char.isDigit = [] := dropWhile_append hds nofun
    rw [List.append_nil] at htake' hdrop'
    rw [List.isEmpty_cons, if_neg Bool.false_ne_true]
    simp [htake', hdrop']

theorem exists_chars_eq_cons (numeral : Numeral) :
    ∃ c cs, numeral.chars = c :: cs ∧ c.isDigit = true := by
  obtain ⟨c, cs, hwhole⟩ := List.exists_cons_of_ne_nil numeral.whole_ne_nil
  refine ⟨c, cs ++ tail numeral.fraction, ?_, numeral.isDigit_whole c ?_⟩
  · rw [chars, hwhole, List.cons_append]
  · rw [hwhole]
    exact List.mem_cons_self

/-- A numeral is read as the number nearest to it. -/
theorem read_chars (numeral : Numeral) : Decimal.read numeral.chars = .ok numeral.value := by
  have hmagnitude : Decimal.magnitude? numeral.chars = some numeral.value := by
    rw [Decimal.magnitude?, numeral?_chars, Option.some_or]
  obtain ⟨c, cs, hchars, hdigit⟩ := numeral.exists_chars_eq_cons
  rw [hchars] at hmagnitude ⊢
  have hminus : c ≠ '-' := by
    rintro rfl
    cases hdigit
  have hplus : c ≠ '+' := by
    rintro rfl
    cases hdigit
  simp [Decimal.read, hminus, hplus, hmagnitude]

end Numeral

/-! ### The text of a number -/

namespace Decimal

open Float.Model Float.Model.UnpackedFloat

theorem isDigit_digits (n : ℕ) : ∀ c ∈ digits n, c.isDigit :=
  fun _ hc ↦ Nat.isDigit_of_mem_toDigits (by decide) (by decide) hc

theorem isDigit_zeros (n : ℕ) : ∀ c ∈ List.replicate n '0', c.isDigit := by
  intro c hc
  rw [List.eq_of_mem_replicate hc]
  rfl

theorem digits_ne_nil (n : ℕ) : digits n ≠ [] :=
  Nat.toDigits_ne_nil

/-- Digits are read as the number they are the digits of. -/
theorem natural_digits (n : ℕ) : natural (digits n) = n :=
  natural_toDigits n

/-- A whole number: its digits, and the zeros that they do not show. -/
theorem exists_numeral_whole (n j : ℕ) : ∃ numeral : Numeral,
    (positionalText n j "").toList = numeral.chars ∧ numeral.exact = n * 10 ^ (j : ℤ) := by
  refine ⟨⟨digits n ++ List.replicate j '0', [], by simp [digits_ne_nil], ?_, nofun⟩, ?_, ?_⟩
  · exact List.forall_mem_append.2 ⟨isDigit_digits n, isDigit_zeros j⟩
  · rw [positionalText, if_pos (Int.natCast_nonneg j), Int.toNat_natCast]
    simp [zeros, Numeral.chars, Numeral.tail]
  · have hnatural : natural (digits n ++ List.replicate j '0' ++ []) = 10 ^ j * n := by
      rw [List.append_nil, natural, Nat.ofDigitChars_append, Nat.ofDigitChars_replicate_zero]
      exact congrArg _ (natural_digits n)
    rw [Numeral.exact, hnatural, zpow_natCast]
    simp [mul_comm]

/-- Digits behind the point are shown one by one. If there are more digits than places, the point
stands between the digits, and else a zero is put in front of it. -/
theorem positionalText_neg {n places : ℕ} (hpos : 0 < places) :
    positionalText n (-places) "" =
      if places < (digits n).length then
        String.ofList ((digits n).take ((digits n).length - places)) ++ "." ++
          String.ofList ((digits n).drop ((digits n).length - places))
      else "0." ++ zeros (places - (digits n).length) ++ String.ofList (digits n) := by
  rw [positionalText, neg_neg, Int.toNat_natCast, if_neg (by omega)]

/-- The point between the digits. -/
theorem exists_numeral_between {n places : ℕ} (hpos : 0 < places)
    (hlt : places < (digits n).length) : ∃ numeral : Numeral,
    (positionalText n (-places) "").toList = numeral.chars ∧
      numeral.exact = n * 10 ^ (-places : ℤ) := by
  rw [positionalText_neg hpos, if_pos hlt]
  set split := (digits n).length - places with hsplit
  have hlength : ((digits n).drop split).length = places := by
    rw [List.length_drop]
    omega
  refine ⟨⟨(digits n).take split, (digits n).drop split, ?_, ?_, ?_⟩, ?_, ?_⟩
  · rw [ne_eq, List.take_eq_nil_iff]
    rintro (hzero | hnil)
    · omega
    · exact digits_ne_nil n hnil
  · exact fun c hc ↦ isDigit_digits n c (List.mem_of_mem_take hc)
  · exact fun c hc ↦ isDigit_digits n c (List.mem_of_mem_drop hc)
  · have hfraction : ((digits n).drop split).isEmpty = false := by
      rw [List.isEmpty_eq_false_iff, ← List.length_pos_iff, hlength]
      exact hpos
    simp [Numeral.chars, Numeral.tail, hfraction]
  · rw [Numeral.exact, List.take_append_drop, natural_digits, hlength]

/-- The point in front of the digits, and zeros between them if there are more places. -/
theorem exists_numeral_front {n places : ℕ} (hpos : 0 < places)
    (hle : (digits n).length ≤ places) : ∃ numeral : Numeral,
    (positionalText n (-places) "").toList = numeral.chars ∧
      numeral.exact = n * 10 ^ (-places : ℤ) := by
  rw [positionalText_neg hpos, if_neg hle.not_gt]
  set gap := places - (digits n).length with hgap
  refine ⟨⟨['0'], List.replicate gap '0' ++ digits n, by simp, by simp, ?_⟩, ?_, ?_⟩
  · exact List.forall_mem_append.2 ⟨isDigit_zeros gap, isDigit_digits n⟩
  · simp [zeros, Numeral.chars, Numeral.tail, digits_ne_nil]
  · have hnatural : natural (['0'] ++ (List.replicate gap '0' ++ digits n)) = n := by
      show natural (List.replicate (gap + 1) '0' ++ digits n) = n
      rw [natural, Nat.ofDigitChars_append, Nat.ofDigitChars_replicate_zero, Nat.mul_zero]
      exact natural_digits n
    have hlength : (List.replicate gap '0' ++ digits n).length = places := by
      rw [List.length_append, List.length_replicate]
      omega
    rw [Numeral.exact, hnatural, hlength]

/-- Digits around a point are a numeral of the value that is written. -/
theorem exists_numeral_positionalText (n : ℕ) (k : ℤ) : ∃ numeral : Numeral,
    (positionalText n k "").toList = numeral.chars ∧ numeral.exact = n * 10 ^ k := by
  rcases le_or_gt 0 k with hk | hk
  · lift k to ℕ using hk
    exact exists_numeral_whole n k
  · obtain ⟨places, rfl⟩ : ∃ places : ℕ, k = -places := ⟨(-k).toNat, by omega⟩
    have hpos : 0 < places := by omega
    rcases lt_or_ge places (digits n).length with hlt | hle
    · exact exists_numeral_between hpos hlt
    · exact exists_numeral_front hpos hle

variable {x : Float} {s : Sign} {M : ℕ} {Q : ℤ} {hM : 0 < M}

/-- A float other than zero is written as its sign and the shortest digits that are read as it. -/
theorem numberText_finite (h : x.toModel.unpack = .finite s M Q hM) :
    numberText x =
      signText (isMinus s) ++ positionalText (shortest M Q).1 (shortest M Q).2 "" := by
  have hexact : Exact.ofFloat x = .finite (isMinus s) M Q := by
    rw [Exact.ofFloat, h]
  rw [numberText, text, hexact]
  split
  · next heq => cases heq
  · next heq => cases heq
  · next heq =>
    cases heq
    exact absurd hM (Nat.lt_irrefl 0)
  · next heq =>
    cases heq
    rfl

theorem numberText_zero (h : x.toModel.unpack = .zero s) :
    numberText x = signText (isMinus s) ++ "0" := by
  rw [numberText, text, Exact.ofFloat, h]
  rfl

/-- The float of the same size without sign. -/
theorem nearest_shortest {n : ℕ} {k : ℤ} (hcanonical : Canonical M Q)
    (hvalue : (n * 10 ^ k : ℚ) = (shortest M Q).1 * 10 ^ (shortest M Q).2) :
    nearest n k = .ofModel (.pack (.finite .positive M Q hcanonical.pos)) := by
  refine nearest_eq (unpack_model_pack_finite hcanonical) ?_
  rw [hvalue]
  exact rounds_shortest hcanonical

/-- The unpacked `-1`. -/
theorem unpack_negOne : (-1.0 : Float).toModel.unpack =
    .finite .negative (2 ^ 52) (-52) (by decide) :=
  unpack_of_ofFloat (by decide) (by decide +kernel)

/-- The sign of a float is a factor of `-1`. -/
theorem negOne_mul_finite (h : x.toModel.unpack = .finite .negative M Q hM) :
    x = -1.0 * .ofModel (.pack (.finite .positive M Q hM)) := by
  have hcanonical := canonical_of_float h
  have hrounds : Rounds ((2 ^ 52 : ℕ) * 2 ^ (-52 : ℤ) * (M * 2 ^ Q)) M Q := by
    have hone : ((2 ^ 52 : ℕ) * 2 ^ (-52 : ℤ) : ℚ) = 1 := by norm_num
    rw [hone, one_mul]
    exact rounds_self M Q
  rw [float_mul_eq, unpack_negOne, unpack_model_pack_finite hcanonical,
    mul_finite hcanonical hrounds (by omega)]
  exact (ofModel_pack_finite h).symm

/-- The numeral of both zeros. -/
def zeroNumeral : Numeral where
  whole := ['0']
  fraction := []
  whole_ne_nil := List.cons_ne_nil _ _
  isDigit_whole := List.forall_mem_singleton.2 rfl
  isDigit_fraction := nofun

/-- **A finite number is read back.** It is written as the numeral of a number, or of its
opposite. -/
theorem exists_numeral (hx : x.isFinite) : ∃ numeral : Numeral,
    (numberText x).toList = numeral.chars ∧ x = numeral.value ∨
      (numberText x).toList = '-' :: numeral.chars ∧ x = -1.0 * numeral.value := by
  rcases hunpack : x.toModel.unpack with s | - | s | ⟨s, M, Q, hM⟩
  · rw [Float.isFinite, Float.Model.isFinite, hunpack] at hx
    cases hx
  · rw [Float.isFinite, Float.Model.isFinite, hunpack] at hx
    cases hx
  · have hvalue : zeroNumeral.value = .ofModel (.pack (.zero .positive)) := by decide +kernel
    have htoList := congrArg String.toList (numberText_zero hunpack)
    have hx : x = .ofModel (.pack (.zero s)) := (ofModel_pack_zero hunpack).symm
    refine ⟨zeroNumeral, ?_⟩
    rw [hvalue]
    cases s with
    | positive => exact .inl ⟨htoList, hx⟩
    | negative => exact .inr ⟨htoList, hx.trans (by decide +kernel)⟩
  · have hcanonical := canonical_of_float hunpack
    obtain ⟨numeral, htext, hvalue⟩ :=
      exists_numeral_positionalText (shortest M Q).1 (shortest M Q).2
    have hnearest : numeral.value = .ofModel (.pack (.finite .positive M Q hM)) :=
      nearest_shortest hcanonical hvalue
    have htoList := congrArg String.toList (numberText_finite hunpack)
    rw [String.toList_append, htext] at htoList
    refine ⟨numeral, ?_⟩
    rw [hnearest]
    cases s with
    | positive => exact .inl ⟨htoList, (ofModel_pack_finite hunpack).symm⟩
    | negative => exact .inr ⟨htoList, negOne_mul_finite hunpack⟩

end Decimal

end Formulae
