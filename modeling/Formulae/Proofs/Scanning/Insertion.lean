import Formulae.Proofs.Scanning.Partition

/-!
# Inserted blanks

Blanks that are inserted into a text change no lexeme of it, unless they are inserted into one. They
move the lexemes behind them (`Lexeme.moved`), and that is all they do (`scan_insert`).

What carries this is that no word but a run of blanks contains a blank. A token in front of the
blanks could only become longer by going on across them, so it stays the longest one. The same is
true of every glyph that is no sign (`Lexicon.Separates`): whatever is put behind a text with such a
character in front leaves the tokens of the text as they were.
-/

namespace Formulae

open Lexicon

/-! ### Characters that no word goes on with -/

namespace Lexicon

variable {word : List Char} {d : Char}

theorem isLetter_of_isMark (h : IsMark d) : IsLetter d := by
  rw [isLetter_iff]
  obtain rfl | rfl := h <;> decide

theorem writtenIn_exponent : WrittenIn (fun c ↦ IsLetter c ∨ IsSign c) exponent := by
  have hmark : WrittenIn (fun c ↦ IsLetter c ∨ IsSign c) (oneOf IsMark) :=
    writtenIn_oneOf fun _ h ↦ .inl (isLetter_of_isMark h)
  have hsign : WrittenIn (fun c ↦ IsLetter c ∨ IsSign c) (oneOf IsSign) :=
    writtenIn_oneOf fun _ h ↦ .inr h
  exact (hmark.mul hsign.optional).mul
    (writtenIn_runOf fun _ h ↦ .inl (isLetter_of_isDigitOrPoint (.inl h)))

/-- A numeral has nothing but letters and signs in it. -/
theorem writtenIn_numeral : WrittenIn (fun c ↦ IsLetter c ∨ IsSign c) numeral := by
  have hdigits : WrittenIn (fun c ↦ IsLetter c ∨ IsSign c) digits :=
    writtenIn_runOf fun _ h ↦ .inl (isLetter_of_isDigitOrPoint (.inl h))
  have hpoint : WrittenIn (fun c ↦ IsLetter c ∨ IsSign c) (oneOf (· = '.')) :=
    writtenIn_oneOf fun _ h ↦ .inl (isLetter_of_isDigitOrPoint (.inr h))
  have hfraction : WrittenIn (fun c ↦ IsLetter c ∨ IsSign c) fraction := hpoint.mul hdigits
  have hexponent := writtenIn_exponent.optional
  exact ((hdigits.mul hfraction.optional).mul hexponent).add (hfraction.mul hexponent)

theorem writtenIn_name : WrittenIn IsLetter name :=
  (writtenIn_oneOf fun _ h ↦ h.1).mul (writtenIn_runOf fun _ h ↦ h).optional

/-- A character with which no word goes on: it is a word by itself, or all words with it are
blank. -/
def Separates (d : Char) : Prop :=
  ∀ word ∈ lexicon, d ∈ word → word = [d] ∨ ∀ c ∈ word, isBlank c = true

/-- What is neither a letter nor a sign separates words. A sign may be part of a numeral, behind its
mark. -/
theorem separates_of_not_isLetter (hletter : ¬ IsLetter d) (hsign : ¬ IsSign d) : Separates d := by
  rintro word (((hword | hword) | ⟨c, hc, rfl⟩) | hword) hd
  · exact absurd (writtenIn_numeral word hword d hd) (not_or.2 ⟨hletter, hsign⟩)
  · exact absurd (writtenIn_name word hword d hd) hletter
  · exact .inl (by rw [List.mem_singleton.1 hd])
  · exact .inr hword.2

theorem separates_of_isBlank (hd : isBlank d = true) : Separates d := by
  refine separates_of_not_isLetter (fun hletter ↦ ?_) ?_
  · rw [hletter.1] at hd
    cases hd
  · rintro (rfl | rfl) <;> cases hd

/-- Glyphs that are no signs separate words. -/
theorem separates_char (glyph : Glyph) (hplus : glyph ≠ .plus) (hminus : glyph ≠ .minus) :
    Separates glyph.char := by
  refine separates_of_not_isLetter (fun hletter ↦ hletter.2 ⟨glyph, ?_⟩) ?_
  · exact mem_spellings_iff.2 glyph.ofChar?_char
  · have hread := glyph.ofChar?_char
    rintro (hchar | hchar) <;> rw [hchar] at hread
    · exact hplus (Option.some.inj hread).symm
    · exact hminus (Option.some.inj hread).symm

end Lexicon

variable {place : Place} {text left right rest after blanks inserted word : List Char}
variable {token : Token} {lexeme : Lexeme} {lexemes : List Lexeme}

/-- A word that begins with a token and goes on with a character that separates words is none. -/
theorem Token.IsFirst.notMem_lexicon {d : Char} (h : token.IsFirst word (word ++ rest))
    (hd : Separates d) (more : List Char) : word ++ after ++ d :: more ∉ lexicon := by
  intro hmem
  obtain ⟨c, cs, rfl⟩ := List.exists_cons_of_ne_nil h.ne_nil
  have hc : isBlank c = false := h.isBlank_head
  rcases hd _ hmem (by simp) with heq | hall
  · simp at heq
  · rw [hall c (by simp)] at hc
    cases hc

/-- A first token stays the first one when something is inserted somewhere behind it that begins
with a character that separates words. -/
theorem Token.IsFirst.insert (h : token.IsFirst word (word ++ (after ++ rest)))
    (hinserted : ∀ d ∈ inserted.head?, Separates d) :
    token.IsFirst word (word ++ (after ++ (inserted ++ rest))) := by
  rcases inserted with - | ⟨d, inserted⟩
  · exact h
  refine ⟨h.ne_nil, h.mem_words, List.prefix_append word _, fun u hu hstands ↦ ?_⟩
  have hshort (hu' : u <+: word ++ after) : u.length ≤ word.length := by
    refine h.length_le u hu (hu'.trans ?_)
    rw [← List.append_assoc]
    exact List.prefix_append _ rest
  rw [← List.append_assoc] at hstands
  rcases List.prefix_or_prefix_of_prefix hstands (List.prefix_append _ _) with hu' | ⟨more, rfl⟩
  · exact hshort hu'
  · rcases more with - | ⟨m, more⟩
    · exact hshort (by rw [List.append_nil])
    · -- a longer word would go on with what is inserted
      rw [List.prefix_append_right_inj, List.cons_append] at hstands
      rw [(List.cons_prefix_cons.1 hstands).1] at hu
      exact absurd hu (h.notMem_lexicon (hinserted d rfl) more)

/-! ### Lexemes that are moved -/

namespace Lexeme

/-- The lexeme with blanks inserted in front of it. -/
def behind (blanks : List Char) (lexeme : Lexeme) : Lexeme :=
  { lexeme with place := lexeme.place.after blanks }

/-- The lexeme of a text, once blanks are inserted at an offset of it. -/
def moved (offset : ℕ) (blanks : List Char) (lexeme : Lexeme) : Lexeme :=
  if offset ≤ lexeme.start then lexeme.behind blanks else lexeme

variable {offset : ℕ}

theorem start_behind : (lexeme.behind blanks).start =
    lexeme.start + (String.ofList blanks).utf8ByteSize :=
  Place.offset_after lexeme.place blanks

theorem stop_behind : (lexeme.behind blanks).stop =
    lexeme.stop + (String.ofList blanks).utf8ByteSize := by
  show (lexeme.behind blanks).start + _ = _
  rw [start_behind, Nat.add_right_comm]
  rfl

theorem moved_of_le (h : offset ≤ lexeme.start) :
    lexeme.moved offset blanks = lexeme.behind blanks :=
  if_pos h

theorem moved_of_lt (h : lexeme.start < offset) : lexeme.moved offset blanks = lexeme :=
  if_neg (Nat.not_le.2 h)

end Lexeme

/-! ### Partitions of a text with blanks in it -/

namespace Partition

/-- Blanks in front of a text move all of its lexemes. -/
theorem behind (h : Partition place text rest lexemes) (blanks : List Char) :
    Partition (place.after blanks) text rest (lexemes.map (·.behind blanks)) where
  stands _ hmem := by
    obtain ⟨lexeme, hlexeme, rfl⟩ := List.mem_map.1 hmem
    obtain ⟨before, after, happend, hplace, hfirst⟩ := h.stands lexeme hlexeme
    refine ⟨before, after, happend, ?_, hfirst⟩
    rw [Place.after_comm, ← hplace]
    rfl
  ordered := by
    refine List.pairwise_map.2 (h.ordered.imp fun hle ↦ ?_)
    rw [Lexeme.stop_behind, Lexeme.start_behind]
    exact Nat.add_le_add_right hle _
  blank before c after happend hcovers := by
    refine h.blank before c after happend fun lexeme hlexeme hcover ↦ ?_
    refine hcovers _ (List.mem_map_of_mem hlexeme) ?_
    rw [Lexeme.Covers, Lexeme.start_behind, Lexeme.stop_behind, Place.after_comm,
      Place.offset_after]
    exact ⟨Nat.add_le_add_right hcover.1 _, Nat.add_lt_add_right hcover.2 _⟩

/-- Blanks behind a text change nothing about it. -/
theorem insert_rest (h : Partition place text rest lexemes)
    (hblanks : ∀ c ∈ blanks, isBlank c = true) :
    Partition place text (blanks ++ rest) lexemes where
  stands lexeme hlexeme := by
    obtain ⟨before, after, happend, hplace, hfirst⟩ := h.stands lexeme hlexeme
    exact ⟨before, after, happend, hplace, hfirst.insert fun c hc ↦
      separates_of_isBlank (hblanks c (List.mem_of_mem_head? hc))⟩
  ordered := h.ordered
  blank := h.blank

/-- The lexemes on the two sides of an offset that lies in none of them. -/
theorem exists_sides {offset : ℕ} (h : Partition place text rest lexemes)
    (hapart : ∀ lexeme ∈ lexemes, lexeme.stop ≤ offset ∨ offset ≤ lexeme.start) :
    ∃ here later, lexemes = here ++ later ∧ (∀ lexeme ∈ here, lexeme.stop ≤ offset) ∧
      ∀ lexeme ∈ later, offset ≤ lexeme.start := by
  have hordered := h.ordered
  clear h
  induction lexemes with
  | nil => exact ⟨[], [], rfl, nofun, nofun⟩
  | cons lexeme lexemes ih =>
    obtain ⟨hlexeme, hapart⟩ := List.forall_mem_cons.1 hapart
    obtain ⟨hnext, hordered⟩ := List.pairwise_cons.1 hordered
    rcases hlexeme with hstop | hstart
    · obtain ⟨here, later, rfl, hhere, hlater⟩ := ih hapart hordered
      exact ⟨lexeme :: here, later, rfl, List.forall_mem_cons.2 ⟨hstop, hhere⟩, hlater⟩
    · refine ⟨[], lexeme :: lexemes, rfl, nofun, List.forall_mem_cons.2 ⟨hstart, fun l hl ↦ ?_⟩⟩
      exact (hstart.trans (Nat.le_add_right _ _)).trans (hnext l hl)

/-- **Blanks that cut no lexeme in two move the lexemes behind them.** -/
theorem insert (h : Partition place (left ++ right) rest lexemes)
    (hblanks : ∀ c ∈ blanks, isBlank c = true)
    (hapart : ∀ lexeme ∈ lexemes,
      lexeme.stop ≤ (place.after left).offset ∨ (place.after left).offset ≤ lexeme.start) :
    Partition place (left ++ (blanks ++ right)) rest
      (lexemes.map (·.moved (place.after left).offset blanks)) := by
  obtain ⟨here, later, rfl, hhere, hlater⟩ := h.exists_sides hapart
  have hleft := (h.of_append_left hhere hlater).insert_rest hblanks
  have hright := (h.of_append hhere hlater).behind blanks
  have hmoved : (here ++ later).map (·.moved (place.after left).offset blanks) =
      here ++ ([] ++ later.map (·.behind blanks)) := by
    have hfixed : here.map (·.moved (place.after left).offset blanks) = here := by
      refine (List.map_congr_left fun l hl ↦ Lexeme.moved_of_lt ?_).trans (List.map_id here)
      exact Nat.lt_of_lt_of_le (h.start_lt_stop (List.mem_append_left later hl)) (hhere l hl)
    rw [List.map_append, hfixed, List.nil_append]
    exact congrArg _ (List.map_congr_left fun l hl ↦ Lexeme.moved_of_le (hlater l hl))
  rw [hmoved]
  rw [← List.append_assoc] at hleft
  exact hleft.append ((Partition.blanks hblanks _ _).append hright)

/-- A lexeme starts behind a beginning of the text exactly if its column is behind it. -/
theorem le_start_iff (h : Partition place (left ++ right) rest lexemes)
    (hlexeme : lexeme ∈ lexemes) :
    (place.after left).offset ≤ lexeme.start ↔ (place.after left).column ≤ lexeme.column := by
  obtain ⟨before, after, happend, hplace, -⟩ := h.stands lexeme hlexeme
  have hbefore : before <+: left ++ right := ⟨_, by rw [← happend, List.append_assoc]⟩
  rw [Lexeme.start, Lexeme.column, hplace,
    place.offset_le_iff (List.prefix_append left right) hbefore]
  exact (Nat.add_le_add_iff_left (n := place.column)).symm

end Partition

theorem offset_after_toList (text : String) :
    (({} : Place).after text.toList).offset = text.utf8ByteSize := by
  rw [Place.offset_after, String.ofList_toList]
  exact Nat.zero_add _

/-- **Inserted blanks move the lexemes behind them**, and change no lexeme of the text. -/
theorem scan_insert {left right blanks : String} (hscan : scan (left ++ right) = .ok lexemes)
    (hblanks : ∀ c ∈ blanks.toList, isBlank c = true)
    (hapart : ∀ lexeme ∈ lexemes,
      lexeme.stop ≤ left.utf8ByteSize ∨ left.utf8ByteSize ≤ lexeme.start) :
    scan (left ++ blanks ++ right) =
      .ok (lexemes.map (·.moved left.utf8ByteSize blanks.toList)) := by
  rw [scan, String.toList_append] at hscan
  rw [← offset_after_toList] at hapart ⊢
  rw [scan, String.toList_append, String.toList_append, List.append_assoc]
  exact ((partition_of_scanFrom hscan).insert hblanks hapart).scanFrom_eq_ok

end Formulae
