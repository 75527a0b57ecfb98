import Formulae.Proofs.Scanning.Lexicon

/-!
# The first token

The scanner looks at a text from the left and never goes back. It nevertheless takes the longest
word of the lexicon that stands in front of the text, and the token that is read from it
(`firstToken?_eq_some_iff`): the first character tells of which kind the word is, and each kind is
taken as far as it goes. There is nothing to take in front of a point that no digit follows, and
nowhere else (`firstToken?_eq_none_iff`).
-/

namespace Formulae

namespace Lexicon

variable {c : Char} {cs rest word : List Char}

/-- The scanner reads every numeral that it takes. -/
theorem firstNumber?_eq (cs : List Char) :
    firstNumber? cs = none ∧ (takeNumeral cs).1 = [] ∨
      ∃ value, firstNumber? cs = some (.number value, (takeNumeral cs).1) ∧
        (takeNumeral cs).1 ∈ (Token.number value).words ∧ (takeNumeral cs).1 ≠ [] := by
  have hlongest := longest_takeNumeral cs
  rcases htake : takeNumeral cs with ⟨- | ⟨c, word⟩, rest⟩
  · left
    rw [firstNumber?, htake]
    exact ⟨rfl, rfl⟩
  · right
    rw [htake] at hlongest
    have hmem := (hlongest.required (List.cons_ne_nil c word)).mem
    obtain ⟨value, hvalue⟩ := exists_read hmem
    refine ⟨value, ?_, ⟨hmem, hvalue⟩, List.cons_ne_nil c word⟩
    rw [firstNumber?, htake]
    dsimp only
    rw [hvalue]
    rfl

/-- A glyph is a word by itself. -/
theorem longest_reserved (hc : IsReserved c) (rest : List Char) :
    Longest (fun _ ↦ True) (1 + lexicon) (c :: rest) [c] rest := by
  have hletter : ¬ IsLetter c := fun hletter ↦ hletter.2 hc
  have hnumeral := begins_numeral.absent_cons (mt isLetter_of_isDigitOrPoint hletter) rest
  have hname := begins_name.absent_cons (fun hname ↦ hletter hname.1) rest
  have hblanks := begins_blanks.absent_cons (Bool.eq_false_iff.1 (isBlank_of_isReserved hc)) rest
  have hglyph : Longest (fun _ ↦ True) (oneOf IsReserved) (c :: rest) [c] rest := .one hc
  have h := (Longest.add_right (hnumeral.add hname) hglyph).add_left hblanks
  exact h.optional ⟨c, rfl, trivial⟩

/-- A name goes as far as its characters do. -/
theorem longest_name (hletter : IsLetter c) (hbegins : ¬ IsDigitOrPoint c) (rest : List Char) :
    Longest (fun _ ↦ True) name (c :: rest) (c :: rest.takeWhile isNameChar)
      (rest.dropWhile isNameChar) := by
  have hkind : (isNameChar · = true) = IsLetter := funext fun c ↦ propext isLetter_iff.symm
  have htail := Longest.takeWhile isNameChar rest
  rw [hkind] at htail
  have hhead : Longest (fun _ ↦ False) (oneOf fun c ↦ IsLetter c ∧ ¬ IsDigitOrPoint c) (c :: rest)
      [c] rest := .one ⟨hletter, hbegins⟩
  exact (hhead.mul htail fun _ _ _ _ ↦ not_false).mono fun _ _ ↦ trivial

/-- A name runs to the next character that is no letter. -/
theorem longest_letter (hletter : IsLetter c) (hbegins : ¬ IsDigitOrPoint c) (rest : List Char) :
    Longest (fun _ ↦ True) (1 + lexicon) (c :: rest) (c :: rest.takeWhile isNameChar)
      (rest.dropWhile isNameChar) := by
  have hnumeral := begins_numeral.absent_cons hbegins rest
  have hglyph := (begins_oneOf IsReserved).absent_cons hletter.2 rest
  have hblanks := begins_blanks.absent_cons (Bool.eq_false_iff.1 hletter.1) rest
  have hname := longest_name hletter hbegins rest
  have h := ((Longest.add_right hnumeral hname).add_left hglyph).add_left hblanks
  exact h.optional ⟨c, rfl, trivial⟩

/-- Where a number may begin there is a numeral or nothing. -/
theorem longest_number (hc : IsDigitOrPoint c) (rest : List Char) :
    Longest (fun _ ↦ True) (1 + lexicon) (c :: rest) (takeNumeral (c :: rest)).1
      (takeNumeral (c :: rest)).2 := by
  have hletter := isLetter_of_isDigitOrPoint hc
  have hname := begins_name.absent_cons (fun hname ↦ hname.2 hc) rest
  have hglyph := (begins_oneOf IsReserved).absent_cons hletter.2 rest
  have hblanks := begins_blanks.absent_cons (Bool.eq_false_iff.1 hletter.1) rest
  rw [lexicon, ← add_assoc, ← add_assoc, ← add_assoc]
  exact (((longest_takeNumeral _).add_left hname).add_left hglyph).add_left hblanks

/-- A glyph is a token by its first character alone. -/
theorem firstToken?_reserved {glyph : Glyph} (hc : c ∈ glyph.spellings) (rest : List Char) :
    firstToken? (c :: rest) = some (.glyph glyph, [c]) := by
  rw [firstToken?, mem_spellings_iff.1 hc]

/-- A letter that is neither a digit nor a point begins a name. -/
theorem firstToken?_letter (hletter : IsLetter c) (hbegins : ¬ IsDigitOrPoint c)
    (rest : List Char) :
    firstToken? (c :: rest) = some (.identifier (String.ofList (c :: rest.takeWhile isNameChar)),
      c :: rest.takeWhile isNameChar) := by
  rw [firstToken?, not_isReserved_iff.1 hletter.2]
  dsimp only
  rw [if_pos (isNameStart_iff_isLetter.2 ⟨hletter, hbegins⟩)]

theorem firstToken?_number (hc : IsDigitOrPoint c) (rest : List Char) :
    firstToken? (c :: rest) = firstNumber? (c :: rest) := by
  rw [firstToken?, not_isReserved_iff.1 (isLetter_of_isDigitOrPoint hc).2]
  dsimp only
  rw [if_neg fun hstart ↦ (isNameStart_iff_isLetter.1 hstart).2 hc]

end Lexicon

open Lexicon

variable {token : Token} {c : Char} {word cs rest : List Char}

/-- Every token is read from a word of the lexicon. -/
theorem Token.mem_lexicon (h : word ∈ token.words) : word ∈ lexicon := by
  cases token with
  | number value => exact .inl (.inl (.inl h.1))
  | identifier name => exact .inl (.inl (.inr h.1))
  | glyph glyph =>
    obtain ⟨c, hc, rfl⟩ := h
    exact .inl (.inr ⟨c, ⟨glyph, hc⟩, rfl⟩)

/-- A token and the word it is read from, when no word of the lexicon in front of the text is
longer. -/
structure Token.IsFirst (token : Token) (word cs : List Char) : Prop where
  ne_nil : word ≠ []
  mem_words : word ∈ token.words
  isPrefix : word <+: cs
  length_le : ∀ u ∈ lexicon, u <+: cs → u.length ≤ word.length

namespace Token.IsFirst

theorem of_longest (h : Longest (fun _ ↦ True) (1 + lexicon) cs word rest) (hne : word ≠ [])
    (hwords : word ∈ token.words) : token.IsFirst word cs where
  ne_nil := hne
  mem_words := hwords
  isPrefix := ⟨rest, h.append⟩
  length_le _ hu hstands := h.length_le (mem_optional.2 (.inr hu)) hstands

/-- The first token is read from the longest word. -/
theorem eq_of_longest {word' : List Char} (h : token.IsFirst word cs)
    (hlongest : Longest (fun _ ↦ True) (1 + lexicon) cs word' rest) : word = word' := by
  refine hlongest.eq_of_length_le (mem_optional.2 (.inr (mem_lexicon h.mem_words))) h.isPrefix ?_
  rcases mem_optional.1 hlongest.mem with rfl | hmem
  · exact Nat.zero_le _
  · exact h.length_le word' hmem ⟨rest, hlongest.append⟩

/-- A text begins as its first token does. -/
theorem head {p : Char → Prop} {L : Language Char} (h : token.IsFirst word (c :: rest))
    (hopens : Begins p L) (hword : word ∈ L) : p c := by
  obtain ⟨d, hd, hp⟩ := hopens word hword
  obtain ⟨later, rfl⟩ := List.head?_eq_some_iff.1 hd
  rwa [← (List.cons_prefix_cons.1 h.isPrefix).1]

/-- No token begins with a blank. -/
theorem isBlank_head (h : token.IsFirst word (c :: rest)) : isBlank c = false := by
  have hwords := h.mem_words
  cases token with
  | number value =>
    exact (isLetter_of_isDigitOrPoint (h.head begins_numeral hwords.1)).1
  | identifier name =>
    exact (h.head begins_name hwords.1).1.1
  | glyph glyph =>
    exact isBlank_of_isReserved ⟨glyph, h.head (begins_oneOf _) hwords⟩

end Token.IsFirst

/-- **The scanner takes the longest word** that stands in front of a text. -/
theorem firstToken?_eq_some_iff (hblank : isBlank c = false) :
    firstToken? (c :: rest) = some (token, word) ↔ token.IsFirst word (c :: rest) := by
  constructor
  · intro h
    rcases kind_of_not_blank hblank with ⟨glyph, hc⟩ | hbegins | ⟨hletter, hbegins⟩
    · cases (firstToken?_reserved hc rest).symm.trans h
      exact .of_longest (longest_reserved ⟨glyph, hc⟩ rest) (List.cons_ne_nil c []) ⟨c, hc, rfl⟩
    · rw [firstToken?_number hbegins] at h
      rcases firstNumber?_eq (c :: rest) with ⟨hnone, -⟩ | ⟨value, hsome, hwords, hne⟩
      · cases hnone.symm.trans h
      · cases hsome.symm.trans h
        exact .of_longest (longest_number hbegins rest) hne hwords
    · cases (firstToken?_letter hletter hbegins rest).symm.trans h
      exact .of_longest (longest_letter hletter hbegins rest) (List.cons_ne_nil c _)
        ⟨(longest_name hletter hbegins rest).mem, rfl⟩
  · intro h
    cases token with
    | glyph glyph =>
      obtain ⟨d, hd, rfl⟩ := h.mem_words
      rw [(List.cons_prefix_cons.1 h.isPrefix).1] at hd ⊢
      exact firstToken?_reserved hd rest
    | identifier name =>
      obtain ⟨hname, rfl⟩ := h.mem_words
      obtain ⟨hletter, hbegins⟩ := h.head begins_name hname
      rw [firstToken?_letter hletter hbegins, h.eq_of_longest (longest_letter hletter hbegins rest)]
    | number value =>
      obtain ⟨hnumeral, hvalue⟩ := h.mem_words
      have hbegins := h.head begins_numeral hnumeral
      have hword := h.eq_of_longest (longest_number hbegins rest)
      rw [firstToken?_number hbegins]
      rcases firstNumber?_eq (c :: rest) with ⟨-, hnil⟩ | ⟨value', hsome, hwords, -⟩
      · exact absurd (hword.trans hnil) h.ne_nil
      · rw [← hword] at hsome hwords
        cases hwords.2.symm.trans hvalue
        exact hsome

/-- The scanner takes the first token and goes on behind it. -/
theorem Token.IsFirst.scanFrom (h : token.IsFirst word (word ++ rest)) (place : Place) :
    scanFrom place (word ++ rest) = (scanFrom (place.after word) rest).map
      (⟨token, String.ofList word, place⟩ :: ·) := by
  obtain ⟨c, cs, rfl⟩ := List.exists_cons_of_ne_nil h.ne_nil
  have hblank : isBlank c = false := h.isBlank_head
  refine scanFrom_token ?_ ((firstToken?_eq_some_iff hblank).2 h)
  rintro _ ⟨⟩
  exact hblank

/-- A point that no digit follows is the only character that begins no token. -/
theorem firstToken?_eq_none_iff (hblank : isBlank c = false) :
    firstToken? (c :: rest) = none ↔ c = '.' ∧ ∀ d ∈ rest.head?, d.isDigit = false := by
  constructor
  · intro h
    rcases kind_of_not_blank hblank with ⟨glyph, hc⟩ | hbegins | ⟨hletter, hbegins⟩
    · cases (firstToken?_reserved hc rest).symm.trans h
    · rw [firstToken?_number hbegins] at h
      rcases firstNumber?_eq (c :: rest) with ⟨-, hnil⟩ | ⟨value, hsome, -⟩
      · have hlongest := longest_takeNumeral (c :: rest)
        rw [hnil] at hlongest
        exact stray_of_absent hbegins (hlongest.absent begins_numeral.nil_notMem)
      · cases hsome.symm.trans h
    · cases (firstToken?_letter hletter hbegins rest).symm.trans h
  · rintro ⟨rfl, hrest⟩
    rw [firstToken?_number (.inr rfl), firstNumber?, takeNumeral_stray hrest]

end Formulae
