import Formulae.Proofs.Decimal.Numerals
import Formulae.Proofs.Scanning.Longest
import Formulae.Proofs.Scanning.Steps

/-!
# The lexicon

The words that formulas are written with: numerals, names, the spellings of the glyphs, and runs of
blanks. Their languages are put together from kinds of characters with the operations on languages,
as the rules of the scanner are written down, and without the scanner.

Words of different kinds begin with different characters. Numerals are the only ones of which a part
may be missing, and a part that may be missing begins with a character that cannot continue the part
before it. The scanner may therefore take every part as far as it goes, and comes to the longest
numeral there is (`longest_takeNumeral`). Every numeral is read as a number (`exists_read`).
-/

namespace Formulae

/-! ### Kinds of characters -/

/-- All spellings of a glyph. -/
def Glyph.spellings : Glyph → List Char
  | star => ['*', '×']
  | slash => ['/', '÷']
  | glyph => [glyph.char]

namespace Lexicon

/-- A character that spells a glyph, and is no part of any other word. -/
def IsReserved (c : Char) : Prop :=
  ∃ glyph : Glyph, c ∈ glyph.spellings

/-- A character of names. -/
def IsLetter (c : Char) : Prop :=
  isBlank c = false ∧ ¬ IsReserved c

/-- A digit or a point. A number begins with one of these, and a name does not. -/
def IsDigitOrPoint (c : Char) : Prop :=
  c.isDigit = true ∨ c = '.'

/-- The mark of an exponent. -/
def IsMark (c : Char) : Prop :=
  c = 'e' ∨ c = 'E'

/-- The sign of an exponent. -/
def IsSign (c : Char) : Prop :=
  c = '+' ∨ c = '-'

/-! ### Words -/

/-- One digit or more. -/
def digits : Language Char :=
  runOf (·.isDigit = true)

/-- A point, and digits behind it. -/
def fraction : Language Char :=
  oneOf (· = '.') * digits

/-- A mark, a sign or none, and digits. -/
def exponent : Language Char :=
  oneOf IsMark * (1 + oneOf IsSign) * digits

/-- Numbers have digits before the point, or a point that digits follow. -/
def numeral : Language Char :=
  digits * (1 + fraction) * (1 + exponent) + fraction * (1 + exponent)

/-- A name begins with a letter that is no digit and no point, and goes on with any letters. -/
def name : Language Char :=
  oneOf (fun c ↦ IsLetter c ∧ ¬ IsDigitOrPoint c) * (1 + runOf IsLetter)

/-- A run of blanks. -/
def blanks : Language Char :=
  runOf (isBlank · = true)

end Lexicon

/-- The words that a text is cut into. -/
def lexicon : Language Char :=
  Lexicon.numeral + Lexicon.name + oneOf Lexicon.IsReserved + Lexicon.blanks

/-- The words that a token is read from. -/
def Token.words : Token → Language Char
  | .number value => {word | word ∈ Lexicon.numeral ∧ Decimal.read word = .ok value}
  | .identifier name => {word | word ∈ Lexicon.name ∧ String.ofList word = name}
  | .glyph g => oneOf (· ∈ g.spellings)

namespace Lexicon

/-! ### The kinds exclude each other -/

variable {c : Char} {cs rest word : List Char}

/-- The scanner reads a glyph from its spellings, and from nothing else. -/
theorem mem_spellings_iff {glyph : Glyph} : c ∈ glyph.spellings ↔ Glyph.ofChar? c = some glyph := by
  constructor
  · have hread : ∀ c ∈ glyph.spellings, Glyph.ofChar? c = some glyph := by
      cases glyph <;> simp [Glyph.spellings, Glyph.char, Glyph.ofChar?]
    exact hread c
  · unfold Glyph.ofChar?
    split <;> rintro ⟨⟩ <;> decide

theorem not_isReserved_iff : ¬ IsReserved c ↔ Glyph.ofChar? c = none := by
  simp only [IsReserved, mem_spellings_iff, Option.eq_none_iff_forall_ne_some, not_exists, ne_eq]

/-- The letters are the characters with which the scanner continues a name. -/
theorem isLetter_iff : IsLetter c ↔ isNameChar c = true := by
  rw [IsLetter, not_isReserved_iff, isNameChar, Bool.and_eq_true, Bool.not_eq_true',
    Option.isNone_iff_eq_none]

theorem isNameStart_iff_isLetter : isNameStart c = true ↔ IsLetter c ∧ ¬ IsDigitOrPoint c := by
  rw [isNameStart_iff, isLetter_iff, IsDigitOrPoint]

/-- Names may have digits and points in them, behind their first character. -/
theorem isLetter_of_isDigitOrPoint (h : IsDigitOrPoint c) : IsLetter c := by
  rw [isLetter_iff]
  rcases h with h | rfl
  · exact isNameChar_of_isDigit h
  · decide

/-- Signs are glyphs, so they are no letters. -/
theorem not_isSign_of_isDigitOrPoint (h : IsDigitOrPoint c) : ¬ IsSign c := by
  have hletter := isLetter_of_isDigitOrPoint h
  rintro (rfl | rfl)
  · exact hletter.2 ⟨.plus, by decide⟩
  · exact hletter.2 ⟨.minus, by decide⟩

theorem not_isDigitOrPoint_of_isMark (h : IsMark c) : ¬ IsDigitOrPoint c := by
  rcases h with rfl | rfl <;> rintro (hdigit | hpoint)
  all_goals first | cases hdigit | cases hpoint

/-- What is not blank begins a glyph, a number or a name. -/
theorem kind_of_not_blank (hblank : isBlank c = false) :
    IsReserved c ∨ IsDigitOrPoint c ∨ IsLetter c ∧ ¬ IsDigitOrPoint c := by
  rw [IsLetter]
  tauto

/-- No glyph is spelt with a blank. -/
theorem isBlank_of_isReserved (h : IsReserved c) : isBlank c = false := by
  obtain ⟨glyph, h⟩ := h
  rw [mem_spellings_iff] at h
  unfold Glyph.ofChar? at h
  split at h <;> first | rfl | cases h

/-! ### How the words begin -/

theorem begins_digits : Begins (·.isDigit = true) digits :=
  begins_runOf _

theorem begins_fraction : Begins (· = '.') fraction :=
  (begins_oneOf _).mul _

theorem begins_exponent : Begins IsMark exponent :=
  ((begins_oneOf _).mul _).mul _

/-- A numeral begins with a digit, or with the point of its fraction. -/
theorem begins_numeral : Begins IsDigitOrPoint numeral :=
  ((begins_digits.mul _).mul _).add (begins_fraction.mul _)

theorem begins_name : Begins (fun c ↦ IsLetter c ∧ ¬ IsDigitOrPoint c) name :=
  (begins_oneOf _).mul _

theorem begins_blanks : Begins (isBlank · = true) blanks :=
  begins_runOf _

/-! ### Numerals -/

/-- The scanner takes all the digits there are. -/
theorem longest_takeDigits (cs : List Char) :
    Longest (·.isDigit = true) (1 + digits) cs (takeDigits cs).1 (takeDigits cs).2 := by
  rw [takeDigits, List.span_eq_takeWhile_dropWhile]
  exact .takeWhile Char.isDigit cs

/-- A fraction without digits is none. -/
theorem longest_takeFraction (cs : List Char) :
    Longest IsDigitOrPoint (1 + fraction) cs (takeFraction cs).1 (takeFraction cs).2 := by
  unfold takeFraction
  split
  · next cs =>
    have hpoint : Longest (fun _ ↦ False) (oneOf (· = '.')) ('.' :: cs) ['.'] cs := .one rfl
    have h : Longest IsDigitOrPoint (1 + fraction) _ _ _ :=
      hpoint.optional_mul (longest_takeDigits cs) begins_digits (fun _ _ ↦ not_false)
        ⟨'.', rfl, .inr rfl⟩ nofun fun _ ↦ .inl
    rcases htake : takeDigits cs with ⟨- | ⟨d, ds⟩, rest⟩ <;> rw [htake] at h <;> exact h
  · next hne =>
    refine (begins_fraction.absent fun c hc ↦ ?_).longest
    obtain ⟨rest, rfl⟩ := List.head?_eq_some_iff.1 hc
    rintro rfl
    exact hne rest rfl

/-- The sign and the digits of an exponent, as they are looked for behind the mark. -/
theorem exists_takeExponent_cons {mark : Char} (hmark : IsMark mark) (cs : List Char) :
    ∃ sign rest, Longest IsSign (1 + oneOf IsSign) cs sign rest ∧
      takeExponent (mark :: cs) = match takeDigits rest with
        | ([], _) => ([], mark :: cs)
        | (ds, rest) => (mark :: sign ++ ds, rest) := by
  have hopens := begins_oneOf IsSign
  have htest : mark = 'e' ∨ mark = 'E' := hmark
  have hsome {c : Char} (hc : IsSign c) (rest : List Char) :
      Longest IsSign (1 + oneOf IsSign) (c :: rest) [c] rest :=
    (Longest.one hc).optional ⟨c, rfl, hc⟩
  unfold takeExponent
  simp only [if_pos htest]
  rcases cs with - | ⟨c, rest⟩
  · exact ⟨[], [], hopens.absent_nil.longest, rfl⟩
  · by_cases hplus : c = '+'
    · subst hplus
      exact ⟨['+'], rest, hsome (.inl rfl) rest, rfl⟩
    · by_cases hminus : c = '-'
      · subst hminus
        exact ⟨['-'], rest, hsome (.inr rfl) rest, rfl⟩
      · refine ⟨[], c :: rest, (hopens.absent ?_).longest, ?_⟩
        · rintro _ ⟨⟩ (rfl | rfl)
          · exact hplus rfl
          · exact hminus rfl
        · split <;> simp_all

/-- An exponent without digits is none, even if it has a mark and a sign. -/
theorem longest_takeExponent (cs : List Char) :
    Longest (fun _ ↦ True) (1 + exponent) cs (takeExponent cs).1 (takeExponent cs).2 := by
  rcases cs with - | ⟨mark, cs⟩
  · exact begins_exponent.absent_nil.longest
  · by_cases hmark : IsMark mark
    · obtain ⟨sign, rest, hsign, htake⟩ := exists_takeExponent_cons hmark cs
      have hstem := (Longest.one (p := fun _ ↦ False) hmark).mul hsign fun _ _ _ _ ↦ not_false
      have hsign' (c : Char) (hdigit : c.isDigit = true) : ¬ (False ∨ IsSign c) := by
        rw [false_or]
        exact not_isSign_of_isDigitOrPoint (.inl hdigit)
      have h : Longest (fun _ ↦ True) (1 + exponent) _ _ _ :=
        hstem.optional_mul (longest_takeDigits rest) begins_digits hsign' ⟨mark, rfl, trivial⟩
          (fun _ _ ↦ trivial) fun _ _ ↦ trivial
      rw [htake]
      rcases htake : takeDigits rest with ⟨- | ⟨d, ds⟩, rest⟩ <;> rw [htake] at h <;> exact h
    · have htake : takeExponent (mark :: cs) = ([], mark :: cs) := if_neg hmark
      rw [htake]
      exact (begins_exponent.absent_cons hmark cs).longest

/-- A numeral without its exponent. -/
def mantissa : Language Char :=
  digits * (1 + fraction) + fraction

/-- Both kinds of numerals are a mantissa with an exponent or without one. -/
theorem numeral_eq : numeral = mantissa * (1 + exponent) :=
  (add_mul _ _ _).symm

/-- Digits and a fraction may each be missing, but not both. -/
theorem optional_mantissa_eq : 1 + mantissa = (1 + digits) * (1 + fraction) := by
  rw [mantissa, add_mul, one_mul, add_assoc, add_comm fraction]

theorem begins_mantissa : Begins IsDigitOrPoint mantissa :=
  (begins_digits.mul _).add begins_fraction

/-- The digits and the fraction that the scanner takes for a number. -/
private theorem longest_mantissa (cs : List Char) :
    Longest IsDigitOrPoint (1 + mantissa) cs
      ((takeDigits cs).1 ++ (takeFraction (takeDigits cs).2).1)
      (takeFraction (takeDigits cs).2).2 := by
  have hhead : ∀ v ∈ 1 + fraction, ∀ c ∈ v.head?, ¬ c.isDigit = true := by
    intro v hv c hc hdigit
    cases begins_fraction.head_optional hv hc
    cases hdigit
  rw [optional_mantissa_eq]
  exact ((longest_takeDigits cs).mul (longest_takeFraction _) hhead).mono fun c hc ↦
    hc.elim .inl id

/-- The scanner takes the longest numeral, though it never goes back. -/
theorem longest_takeNumeral (cs : List Char) :
    Longest (fun _ ↦ True) (1 + numeral) cs (takeNumeral cs).1 (takeNumeral cs).2 := by
  have hmantissa := longest_mantissa cs
  have hexponent := longest_takeExponent (takeFraction (takeDigits cs).2).2
  have hhead : ∀ v ∈ 1 + exponent, ∀ c ∈ v.head?, ¬ IsDigitOrPoint c := fun v hv c hc ↦
    not_isDigitOrPoint_of_isMark (begins_exponent.head_optional hv hc)
  unfold takeNumeral
  dsimp only
  rw [numeral_eq]
  split
  · -- without a mantissa there is no numeral, whatever follows
    next hboth =>
    rw [Bool.and_eq_true, List.isEmpty_iff, List.isEmpty_iff] at hboth
    rw [hboth.1, hboth.2, List.append_nil] at hmantissa
    exact ((hmantissa.absent begins_mantissa.nil_notMem).mul _).longest
  · next hboth =>
    have hne : (takeDigits cs).1 ++ (takeFraction (takeDigits cs).2).1 ≠ [] := by
      simpa using hboth
    have h := ((hmantissa.required hne).mul hexponent hhead).mono (q := fun _ ↦ True)
      fun _ _ ↦ trivial
    refine h.optional ?_
    obtain ⟨c, rest, hcons⟩ := List.exists_cons_of_ne_nil hne
    exact ⟨c, by rw [hcons]; rfl, trivial⟩

/-- A point without a digit behind it is no numeral. -/
theorem takeNumeral_stray (hrest : ∀ d ∈ rest.head?, d.isDigit = false) :
    takeNumeral ('.' :: rest) = ([], '.' :: rest) := by
  have hnone {cs : List Char} (hcs : ∀ d ∈ cs.head?, d.isDigit = false) :
      takeDigits ([] ++ cs) = ([], cs) :=
    Numeral.takeDigits_append (fun _ hd ↦ absurd hd List.not_mem_nil) hcs
  have hrest' : takeDigits rest = ([], rest) := hnone hrest
  have hpoint : takeDigits ('.' :: rest) = ([], '.' :: rest) := hnone <| by
    rintro _ ⟨⟩
    rfl
  simp [takeNumeral, takeFraction, hrest', hpoint]

/-- The exponent may be missing. -/
theorem mem_numeral_of_mem_mantissa (h : word ∈ mantissa) : word ∈ numeral := by
  rw [numeral_eq]
  exact Language.mem_mul.2 ⟨word, h, [], nil_mem_optional exponent, List.append_nil word⟩

/-- A digit is a numeral, and so is a point with a digit behind it. -/
theorem stray_of_absent (hbegins : IsDigitOrPoint c) (habsent : Absent numeral (c :: rest)) :
    c = '.' ∧ ∀ d ∈ rest.head?, d.isDigit = false := by
  rcases hbegins with hdigit | rfl
  · have hmem : [c] ∈ mantissa := .inl <|
      Language.mem_mul.2 ⟨[c], by simpa [digits] using hdigit, [], nil_mem_optional fraction, rfl⟩
    exact absurd ⟨rest, rfl⟩ (habsent [c] (mem_numeral_of_mem_mantissa hmem))
  · refine ⟨rfl, fun d hd ↦ Bool.eq_false_iff.2 fun hdigit ↦ ?_⟩
    obtain ⟨later, rfl⟩ := List.head?_eq_some_iff.1 hd
    have hmem : ['.', d] ∈ mantissa := .inr <|
      Language.mem_mul.2 ⟨['.'], ⟨'.', rfl, rfl⟩, [d], by simpa [digits] using hdigit, rfl⟩
    exact absurd ⟨later, rfl⟩ (habsent ['.', d] (mem_numeral_of_mem_mantissa hmem))

/-! ### Every numeral is a number -/

variable {sign ds f e : List Char}

/-- The sign and the digits of an exponent are read as an integer. -/
theorem exists_exponent? (hsign : sign ∈ 1 + oneOf IsSign) (hds : ds ∈ digits) :
    ∃ e, Decimal.exponent? (sign ++ ds) = some e := by
  obtain ⟨hne, hall⟩ := hds
  have hall' : ds.all Char.isDigit = true := List.all_eq_true.2 hall
  rcases mem_optional.1 hsign with rfl | ⟨c, rfl | rfl, rfl⟩
  · obtain ⟨d, ds, rfl⟩ := List.exists_cons_of_ne_nil hne
    obtain ⟨hplus, hminus⟩ := not_or.1 <|
      not_isSign_of_isDigitOrPoint (.inl (hall d List.mem_cons_self))
    simp [Decimal.exponent?, hplus, hminus, hall']
  · simp [Decimal.exponent?, hne, hall']
  · simp [Decimal.exponent?, hne, hall']

theorem exists_exponent (h : word ∈ exponent) :
    ∃ mark rest e, word = mark :: rest ∧ IsMark mark ∧ Decimal.exponent? rest = some e := by
  obtain ⟨_, hstem, ds, hds, rfl⟩ := Language.mem_mul.1 h
  obtain ⟨_, ⟨mark, hmark, rfl⟩, sign, hsign, rfl⟩ := Language.mem_mul.1 hstem
  obtain ⟨e, he⟩ := exists_exponent? hsign hds
  exact ⟨mark, sign ++ ds, e, rfl, hmark, he⟩

/-- What may follow a mantissa does not go on with digits. -/
theorem not_isDigit_of_mem_optional_exponent (he : e ∈ 1 + exponent) :
    ∀ c ∈ e.head?, c.isDigit = false :=
  fun _ hc ↦ Bool.eq_false_iff.2 fun hdigit ↦
    not_isDigitOrPoint_of_isMark (begins_exponent.head_optional he hc) (.inl hdigit)

/-- Numerals without a fraction. -/
theorem exists_numeral?_of_digits (hds : ds ∈ digits) (he : e ∈ 1 + exponent) :
    ∃ value, Decimal.numeral? (ds ++ e) = some value := by
  obtain ⟨hne, hall⟩ := hds
  have hend := not_isDigit_of_mem_optional_exponent he
  unfold Decimal.numeral?
  dsimp only
  rw [Numeral.takeWhile_append hall hend, Numeral.dropWhile_append hall hend]
  rcases mem_optional.1 he with rfl | he
  · simp [hne]
  · obtain ⟨mark, rest, k, rfl, rfl | rfl, hk⟩ := exists_exponent he <;> simp [hne, hk]

/-- Numerals with a fraction, which may be all that they have. -/
theorem exists_numeral?_of_fraction (hds : ds ∈ 1 + digits) (hf : f ∈ fraction)
    (he : e ∈ 1 + exponent) : ∃ value, Decimal.numeral? (ds ++ f ++ e) = some value := by
  obtain ⟨_, ⟨_, rfl, rfl⟩, fs, ⟨hne, hall⟩, rfl⟩ := Language.mem_mul.1 hf
  have hdigits : ∀ c ∈ ds, c.isDigit = true := all_of_mem_optional_runOf hds
  have hpoint : ∀ c ∈ ('.' :: (fs ++ e)).head?, c.isDigit = false := by
    rintro _ ⟨⟩
    rfl
  have hend := not_isDigit_of_mem_optional_exponent he
  have htake := Numeral.takeWhile_append hall hend
  have hdrop := Numeral.dropWhile_append hall hend
  unfold Decimal.numeral?
  dsimp only
  rw [List.append_assoc, List.append_assoc, List.singleton_append,
    Numeral.takeWhile_append hdigits hpoint, Numeral.dropWhile_append hdigits hpoint]
  rcases mem_optional.1 he with rfl | he
  · rw [List.append_nil] at htake hdrop
    simp [htake, hdrop, hne]
  · obtain ⟨mark, rest, k, rfl, rfl | rfl, hk⟩ := exists_exponent he <;>
      simp [htake, hdrop, hne, hk]

theorem exists_numeral? (h : word ∈ numeral) : ∃ value, Decimal.numeral? word = some value := by
  rw [numeral_eq] at h
  obtain ⟨m, hm, e, he, rfl⟩ := Language.mem_mul.1 h
  obtain ⟨ds, hds, f, hf, rfl⟩ : m ∈ (1 + digits) * (1 + fraction) := by
    rw [← optional_mantissa_eq]
    exact mem_optional.2 (.inr hm)
  rcases mem_optional.1 hf with rfl | hf
  · have hne : ds ≠ [] := by
      rintro rfl
      exact begins_mantissa.nil_notMem hm
    show ∃ value, Decimal.numeral? (ds ++ [] ++ e) = some value
    rw [List.append_nil]
    exact exists_numeral?_of_digits ((mem_optional.1 hds).resolve_left hne) he
  · exact exists_numeral?_of_fraction hds hf he

/-- Every numeral is read as a number. -/
theorem exists_read (h : word ∈ numeral) : ∃ value, Decimal.read word = .ok value := by
  obtain ⟨value, hvalue⟩ := exists_numeral? h
  obtain ⟨c, hc, hbegins⟩ := begins_numeral word h
  obtain ⟨rest, rfl⟩ := List.head?_eq_some_iff.1 hc
  obtain ⟨hplus, hminus⟩ := not_or.1 (not_isSign_of_isDigitOrPoint hbegins)
  refine ⟨value, ?_⟩
  simp [Decimal.read, hminus, hplus, Decimal.magnitude?, hvalue]

end Lexicon

end Formulae
