import Formulae.Proofs.Decimal.Numerals
import Formulae.Proofs.Grammar.Derivation
import Formulae.Proofs.Scanning.Steps

/-!
# Spelling

How a row is written. `Spells touches cs row` says that the characters are scanned as the row, when
they stand directly behind a lexeme (`touches`) or behind something else. Places are left out of it,
as rows leave them out, so the spelling of a whole is put together from the spellings of its parts,
the last one first.

The scanner takes the longest token there is. A name and a numeral are therefore only known to end
where something stands that could not be part of them (`Delimited`); a glyph ends by itself.
-/

namespace Formulae

/-! ### Spellings of rows -/

/-- `Spells touches cs row`: the characters are scanned as the row. A lexeme at their very beginning
touches the one before it as `touches` says. -/
inductive Spells : Bool → List Char → List Piece → Prop where
  | nil {touches : Bool} : Spells touches [] []
  | blank {touches : Bool} {c : Char} {cs : List Char} {row : List Piece}
      (hblank : isBlank c = true) (hrest : Spells false cs row) : Spells touches (c :: cs) row
  | token {touches : Bool} {spelling cs : List Char} {token : Token} {row : List Piece}
      (hblank : ∀ c ∈ spelling.head?, isBlank c = false)
      (hfirst : firstToken? (spelling ++ cs) = some (token, spelling))
      (hrest : Spells true cs row) : Spells touches (spelling ++ cs) (⟨token, touches⟩ :: row)

namespace Spells

variable {touches : Bool} {cs rest : List Char} {pieces : List Piece}

/-- Lexemes as a row, behind another lexeme or nothing. -/
private def rowAfter (previous? : Option Lexeme) (lexemes : List Lexeme) : List Piece :=
  List.zipWith (fun previous? lexeme ↦ ⟨lexeme.token, previous?.any (·.touches lexeme)⟩)
    (previous? :: lexemes.map some) lexemes

/-- A spelling is scanned at every place. The lexeme before it stops there, or before that if the
spelling does not touch it. -/
theorem exists_scanFrom (h : Spells touches cs pieces) (previous? : Option Lexeme) (place : Place)
    (hstop : ∀ previous ∈ previous?, previous.stop ≤ place.offset)
    (htouches : previous?.any (·.stop == place.offset) = touches) :
    ∃ lexemes, scanFrom place cs = .ok lexemes ∧ rowAfter previous? lexemes = pieces := by
  induction h generalizing previous? place with
  | nil => exact ⟨[], scanFrom_nil place, rfl⟩
  | @blank touches c cs row hblank hrest ih =>
    have hoffset : (place.after [c]).offset = place.offset + c.utf8Size := rfl
    have hpos := c.utf8Size_pos
    -- behind a blank nothing stops where the next lexeme starts
    rw [scanFrom_blank hblank]
    refine ih previous? _ (fun previous hprevious ↦ ?_) ?_
    · exact (hstop previous hprevious).trans (by omega)
    · rw [Option.any_eq_false]
      intro previous hprevious
      have hle := hstop previous hprevious
      simp only [beq_eq_false_iff_ne, ne_eq]
      omega
  | @token touches spelling cs token row hblank hfirst hrest ih =>
    -- the lexeme is the one that comes before the others, and stops where they are scanned
    let lexeme : Lexeme := ⟨token, String.ofList spelling, place⟩
    have hstop' : lexeme.stop = (place.after spelling).offset := (place.offset_after spelling).symm
    obtain ⟨lexemes, hscan, hrow⟩ := ih (some lexeme) (place.after spelling)
      (fun previous hprevious ↦ by cases hprevious; exact hstop'.le)
      (by rw [Option.any_some, hstop', beq_self_eq_true])
    refine ⟨lexeme :: lexemes, ?_, ?_⟩
    · rw [scanFrom_token hblank hfirst, hscan]
      rfl
    · rw [← hrow, ← htouches]
      rfl

/-- What spells a row is scanned as lexemes of that row. -/
theorem exists_scan {text : String} (h : Spells false text.toList pieces) :
    ∃ lexemes, scan text = .ok lexemes ∧ row lexemes = pieces :=
  h.exists_scanFrom none {} nofun rfl

end Spells

/-! ### Names -/

/-- A name begins like a number, with a digit or a point. -/
def BeginsNumber (name : String) : Prop :=
  ∃ c ∈ name.toList.head?, c.isDigit = true ∨ c = '.'

/-- A part of a name: characters of names, and at least one. -/
structure IsNamePart (name : String) : Prop where
  ne_nil : name.toList ≠ []
  isNameChar : ∀ c ∈ name.toList, isNameChar c = true

/-- A name that may stand in a formula. -/
structure IsIdentifier (name : String) : Prop extends IsNamePart name where
  not_beginsNumber : ¬ BeginsNumber name

/-- A name together with the fact that it may stand in a formula. -/
structure Identifier where
  text : String
  isIdentifier : IsIdentifier text

theorem IsIdentifier.isNameStart_head {name : String} (h : IsIdentifier name) {c : Char}
    (hc : c ∈ name.toList.head?) : isNameStart c = true :=
  isNameStart_iff.2 ⟨h.isNameChar c (List.mem_of_mem_head? hc),
    fun hnumber ↦ h.not_beginsNumber ⟨c, hc, hnumber⟩⟩

/-- A text is a name if it begins like one and has only characters of names. -/
theorem IsIdentifier.of_cons {c : Char} {cs : List Char} (hc : isNameStart c = true)
    (hcs : ∀ d ∈ cs, isNameChar d = true) : IsIdentifier (String.ofList (c :: cs)) := by
  obtain ⟨hname, hnumber⟩ := isNameStart_iff.1 hc
  refine ⟨⟨?_, ?_⟩, ?_⟩
  · rw [String.toList_ofList]
    exact List.cons_ne_nil c cs
  · rw [String.toList_ofList]
    exact List.forall_mem_cons.2 ⟨hname, hcs⟩
  · rw [BeginsNumber, String.toList_ofList]
    rintro ⟨_, ⟨⟩, hbegins⟩
    exact hnumber hbegins

theorem IsIdentifier.of_toList {c : Char} {cs : List Char} {name : String}
    (hname : name.toList = c :: cs) (hc : isNameStart c = true)
    (hcs : ∀ d ∈ cs, isNameChar d = true) : IsIdentifier name := by
  rw [← String.ofList_toList (s := name), hname]
  exact .of_cons hc hcs

/-- The token in front of a text is a name only if it may stand in a formula. -/
theorem isIdentifier_of_firstToken? {cs spelling : List Char} {name : String}
    (h : firstToken? cs = some (.identifier name, spelling)) : IsIdentifier name := by
  unfold firstToken? at h
  split at h
  · cases h
  · next c rest =>
    split at h
    · cases h
    · split at h
      · next hstart =>
        cases h
        exact .of_cons hstart fun d hd ↦ List.all_eq_true.1 List.all_takeWhile d hd
      · unfold firstNumber? at h
        split at h
        · cases h
        · obtain ⟨value, -, hvalue⟩ := Option.map_eq_some_iff.1 h
          cases hvalue

/-- So is every name that is scanned. -/
theorem isIdentifier_of_scanFrom {place : Place} {cs : List Char} {lexemes : List Lexeme}
    (hscan : scanFrom place cs = .ok lexemes) {lexeme : Lexeme} (hlexeme : lexeme ∈ lexemes)
    {name : String} (htoken : lexeme.token = .identifier name) : IsIdentifier name := by
  induction place, cs using scanFrom.induct generalizing lexemes with
  | case1 place =>
    cases (scanFrom_nil place).symm.trans hscan
    cases hlexeme
  | case2 place c rest hblank ih =>
    rw [scanFrom_blank hblank] at hscan
    exact ih hscan hlexeme
  | case3 place c rest hblank token spelling hfirst ih =>
    rw [scanFrom_taken (Bool.of_not_eq_true hblank) hfirst] at hscan
    rcases hrest : scanFrom (place.after spelling) ((c :: rest).drop spelling.length) with r | later
    · rw [hrest] at hscan
      cases hscan
    · rw [hrest] at hscan
      cases hscan
      rcases List.mem_cons.1 hlexeme with rfl | hlater
      · obtain rfl : token = .identifier name := htoken
        exact isIdentifier_of_firstToken? hfirst
      · exact ih hrest hlater
  | case4 place c rest hblank hfirst =>
    cases (scanFrom_stray (Bool.of_not_eq_true hblank) hfirst).symm.trans hscan

namespace Spells

/-! ### Tokens -/

variable {touches : Bool} {rest : List Char} {pieces : List Piece}

/-- A glyph needs nothing behind it. -/
theorem glyph (glyph : Glyph) (h : Spells true rest pieces) :
    Spells touches (glyph.char :: rest) (⟨.glyph glyph, touches⟩ :: pieces) := by
  show Spells touches ([glyph.char] ++ rest) _
  refine token ?_ ?_ h
  · rintro _ ⟨⟩
    cases glyph <;> decide
  · rw [List.singleton_append, firstToken?, Glyph.ofChar?_char]

/-- A space parts what is on both sides. -/
theorem space (h : Spells false rest pieces) : Spells touches (' ' :: rest) pieces :=
  blank (by decide) h

/-- A name has to be delimited by what follows. -/
theorem identifier {name : String} (hname : IsIdentifier name) (hrest : Delimited rest)
    (h : Spells true rest pieces) :
    Spells touches (name.toList ++ rest) (⟨.identifier name, touches⟩ :: pieces) := by
  refine token (fun c hc ↦ isBlank_of_isNameChar (hname.isNameChar c (List.mem_of_mem_head? hc)))
    ?_ h
  obtain ⟨c, cs, hcons⟩ := List.exists_cons_of_ne_nil hname.ne_nil
  have hstart : isNameStart c = true := hname.isNameStart_head (by rw [hcons]; rfl)
  have hchars : ∀ d ∈ c :: cs, isNameChar d = true := hcons ▸ hname.isNameChar
  have hglyph := ofChar?_of_isNameChar (hchars c List.mem_cons_self)
  have htake : (cs ++ rest).takeWhile isNameChar = cs :=
    Numeral.takeWhile_append (fun d hd ↦ hchars d (List.mem_cons_of_mem c hd)) hrest
  have hofList : String.ofList (c :: cs) = name := by rw [← hcons, String.ofList_toList]
  rw [hcons, List.cons_append, firstToken?, hglyph]
  dsimp only
  rw [if_pos hstart, htake, hofList]

/-- So has a numeral. -/
theorem number (numeral : Numeral) (hrest : Delimited rest) (h : Spells true rest pieces) :
    Spells touches (numeral.chars ++ rest) (⟨.number numeral.value, touches⟩ :: pieces) := by
  obtain ⟨c, cs, hchars, hdigit⟩ := numeral.exists_chars_eq_cons
  have hname := isNameChar_of_isDigit hdigit
  have hstart : isNameStart c = false := by simp [isNameStart, hdigit]
  have hnumber : firstNumber? (numeral.chars ++ rest) =
      some (.number numeral.value, numeral.chars) := by
    rw [firstNumber?, numeral.takeNumeral_append hrest]
    rw [hchars]
    show (Decimal.read (c :: cs)).toOption.map _ = _
    rw [← hchars, numeral.read_chars]
    rfl
  refine token ?_ ?_ h
  · rw [hchars]
    rintro _ ⟨⟩
    exact isBlank_of_isNameChar hname
  · rw [hchars] at hnumber ⊢
    rw [List.cons_append, firstToken?, ofChar?_of_isNameChar hname]
    dsimp only
    rw [hstart]
    exact hnumber

end Spells

end Formulae
