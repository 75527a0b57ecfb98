import Formulae.Proofs.Expectation.Location
import Formulae.Proofs.Scanning.Insertion
import Mathlib.Data.List.TakeWhile

/-!
# The caret

The report of a rejection can be drawn under the text, with a caret that is to stand under the first
character of what was found. What it means that the caret stands there is said about the drawing
itself: it shows the line in which the piece stands, and the caret has as many characters in front
of it as the piece has on that line (`Rejection.Marks`).

A column counts the characters of the whole text, and the drawing always shows the first line. Both
are right as long as no line break stands in front of the piece, and then only
(`Settings.marks_iff_of_parse`). On a later line the piece is not shown, and the caret points to
nothing that was found.
-/

namespace Formulae

/-! ### Lines -/

/-- A line of a text between the characters in front of it and those from its break on. A carriage
return directly in front of a break is a part of the break. -/
structure IsLine (text before line after : List Char) : Prop where
  append : before ++ (line ++ after) = text
  starts : ∀ c ∈ before.getLast?, c = '\n'
  unbroken : '\n' ∉ line
  ends : after = [] ∨ (∃ rest, after = '\r' :: '\n' :: rest) ∨
    line.getLast? ≠ some '\r' ∧ ∃ rest, after = '\n' :: rest

section

variable {text : String} {word : List Char}

theorem notMem_takeWhile_ne (cs : List Char) : '\n' ∉ cs.takeWhile (· ≠ '\n') := by
  intro hmem
  have hne := List.mem_takeWhile_imp hmem
  simp at hne

theorem takeWhile_ne_append {cs : List Char} (hbreak : '\n' ∉ word) :
    (word ++ cs).takeWhile (· ≠ '\n') = word ++ cs.takeWhile (· ≠ '\n') := by
  refine List.takeWhile_append_of_pos fun c hc ↦ ?_
  rw [decide_eq_true_iff]
  exact fun hc' ↦ hbreak (hc' ▸ hc)

/-- Where a break follows, a carriage return at the end of the line is dropped. -/
theorem firstLine_of_getLast? (hlt : (text.toList.takeWhile (· ≠ '\n')).length < text.length)
    (hlast : (text.toList.takeWhile (· ≠ '\n')).getLast? = some '\r') :
    (firstLine text).toList = (text.toList.takeWhile (· ≠ '\n')).dropLast := by
  simp only [firstLine, hlt, hlast, decide_true, BEq.rfl, Bool.and_self, if_true,
    String.toList_ofList]

/-- Otherwise nothing is dropped. -/
theorem firstLine_of_not (hnot : ¬ ((text.toList.takeWhile (· ≠ '\n')).length < text.length ∧
      (text.toList.takeWhile (· ≠ '\n')).getLast? = some '\r')) :
    (firstLine text).toList = text.toList.takeWhile (· ≠ '\n') := by
  have hfalse : ((text.toList.takeWhile (· ≠ '\n')).length < text.length &&
      (text.toList.takeWhile (· ≠ '\n')).getLast? == some '\r') = false := by
    simpa using hnot
  simp only [firstLine, hfalse, Bool.false_eq_true, if_false, String.toList_ofList]

/-- The first line of a text is a line of it. -/
theorem exists_isLine_firstLine (text : String) :
    ∃ after, IsLine text.toList [] (firstLine text).toList after := by
  have happend := List.takeWhile_append_dropWhile (p := (· ≠ '\n')) (l := text.toList)
  have hunbroken := notMem_takeWhile_ne text.toList
  rcases hrest : text.toList.dropWhile (· ≠ '\n') with - | ⟨c, rest⟩
  · -- there is no break
    rw [hrest, List.append_nil] at happend
    have hlength := congrArg List.length happend
    rw [String.length_toList] at hlength
    have hfirst : (firstLine text).toList = text.toList.takeWhile (· ≠ '\n') :=
      firstLine_of_not fun hdrop ↦ by omega
    exact ⟨[], by rw [hfirst, List.append_nil]; exact happend, nofun, hfirst ▸ hunbroken, .inl rfl⟩
  · obtain rfl : c = '\n' := by
      have hhead := List.head?_dropWhile_not (· ≠ '\n') text.toList
      rw [hrest] at hhead
      simpa using hhead
    rw [hrest] at happend
    by_cases hlast : (text.toList.takeWhile (· ≠ '\n')).getLast? = some '\r'
    · have hlt : (text.toList.takeWhile (· ≠ '\n')).length < text.length := by
        rw [← String.length_toList, ← congrArg List.length happend, List.length_append]
        exact Nat.lt_add_of_pos_right (Nat.succ_pos _)
      have hfirst := firstLine_of_getLast? hlt hlast
      have hdrop := List.dropLast_append_getLast? _ hlast
      refine ⟨'\r' :: '\n' :: rest, ?_, nofun, fun hmem ↦ ?_, .inr (.inl ⟨rest, rfl⟩)⟩
      · rw [hfirst, List.nil_append]
        refine Eq.trans ?_ happend
        conv_rhs => rw [← hdrop]
        rw [List.append_assoc]
        rfl
      · rw [hfirst] at hmem
        exact hunbroken (List.mem_of_mem_dropLast hmem)
    · have hfirst : (firstLine text).toList = text.toList.takeWhile (· ≠ '\n') :=
        firstLine_of_not fun hdrop ↦ hlast hdrop.2
      exact ⟨'\n' :: rest, by rw [hfirst]; exact happend, nofun, hfirst ▸ hunbroken,
        .inr (.inr ⟨hfirst ▸ hlast, rest, rfl⟩)⟩

/-- A word in front of a text is in its first line, if it has no break in it and does not end with a
character that could be a part of one. -/
theorem isPrefix_firstLine (hword : word <+: text.toList) (hbreak : '\n' ∉ word)
    (hlast : word.getLast? ≠ some '\r') : word <+: (firstLine text).toList := by
  obtain ⟨more, hmore⟩ := hword
  have htake : text.toList.takeWhile (· ≠ '\n') = word ++ more.takeWhile (· ≠ '\n') := by
    rw [← hmore, takeWhile_ne_append hbreak]
  by_cases hdrop : (text.toList.takeWhile (· ≠ '\n')).length < text.length ∧
      (text.toList.takeWhile (· ≠ '\n')).getLast? = some '\r'
  · rw [firstLine_of_getLast? hdrop.1 hdrop.2, htake]
    have hne : more.takeWhile (· ≠ '\n') ≠ [] := fun hnil ↦ by
      rw [htake, hnil, List.append_nil] at hdrop
      exact hlast hdrop.2
    rw [List.dropLast_append_of_ne_nil hne]
    exact List.prefix_append _ _
  · rw [firstLine_of_not hdrop, htake]
    exact List.prefix_append _ _

end

/-! ### Drawings -/

/-- A line with a caret under it, behind so many blanks. -/
def drawing (line : List Char) (indent : Nat) : String :=
  String.ofList (line ++ '\n' :: (List.replicate indent ' ' ++ ['^', '\n']))

/-- A drawing tells which line it shows, and how far the caret is indented. -/
theorem drawing_append_inj {line line' : List Char} {indent indent' : Nat} {message : String}
    (hline : '\n' ∉ line) (hline' : '\n' ∉ line')
    (h : drawing line indent ++ message = drawing line' indent' ++ message) :
    line = line' ∧ indent = indent' := by
  have hlist := congrArg String.toList h
  rw [drawing, drawing, String.toList_append, String.toList_append, String.toList_ofList,
    String.toList_ofList, List.append_left_inj] at hlist
  have hshown := congrArg (List.takeWhile (· ≠ '\n')) hlist
  rw [takeWhile_ne_append hline, takeWhile_ne_append hline'] at hshown
  obtain rfl : line = line' := by simpa using hshown
  refine ⟨rfl, ?_⟩
  have hlength := congrArg List.length hlist
  simpa using hlength

/-- The report of a rejection is a drawing of the first line with the message below. -/
theorem Rejection.annotate_eq (r : Rejection) (text : String) :
    r.annotate text = drawing (firstLine text).toList (r.column - 1) ++ r.message := by
  simp only [annotate, drawing, ← String.toList_inj, String.toList_append, String.toList_ofList,
    List.append_assoc, List.cons_append]
  rfl

/-- What was found, if something was. -/
def Rejection.piece? : Rejection → Option String
  | .stray text _ => some text
  | .unexpected found _ _ => some found
  | .incomplete _ _ | .tooDeep _ _ => none

/-- The report draws its caret under the piece: it shows the line in which the piece stands at the
column, and the caret has as many blanks in front of it as the piece has characters there. -/
def Rejection.Marks (r : Rejection) (text piece : String) : Prop :=
  ∃ before line after indent, IsLine text.toList before line after ∧
    r.annotate text = drawing line indent ++ r.message ∧
    r.column = before.length + indent + 1 ∧ piece.toList <+: line.drop indent

section

variable {r : Rejection} {text piece : String}

/-- A drawing that marks a piece shows the first line with no break in front of the piece. -/
theorem Rejection.Marks.notMem_take (hmarks : r.Marks text piece) (hne : piece ≠ "") :
    '\n' ∉ text.toList.take (r.column - 1) := by
  obtain ⟨before, line, after, indent, hline, hannotate, -, hpiece⟩ := hmarks
  obtain ⟨rest, hfirst⟩ := exists_isLine_firstLine text
  rw [annotate_eq] at hannotate
  obtain ⟨rfl, rfl⟩ := drawing_append_inj hfirst.unbroken hline.unbroken hannotate
  have hlt : r.column - 1 < (firstLine text).toList.length := by
    have hle := hpiece.length_le
    have hpos : 0 < piece.toList.length :=
      List.length_pos_iff.2 (mt String.toList_eq_nil_iff.1 hne)
    rw [List.length_drop] at hle
    omega
  intro hmem
  rw [← hfirst.append, List.nil_append, List.take_append_of_le_length hlt.le] at hmem
  exact hfirst.unbroken (List.mem_of_mem_take hmem)

/-- A piece with no blank in it is marked where no break stands in front of it. -/
theorem Rejection.marks_of_notMem_take (hstands : StandsAt text piece r.column) (hne : piece ≠ "")
    (hblank : ∀ c ∈ piece.toList, isBlank c = false)
    (hbreak : '\n' ∉ text.toList.take (r.column - 1)) : r.Marks text piece := by
  obtain ⟨before, after, happend, hcolumn⟩ := hstands
  rw [hcolumn, Nat.add_sub_cancel, happend, List.take_left] at hbreak
  have hnotBlank {c : Char} (hc : isBlank c = true) : c ∉ piece.toList := fun hmem ↦ by
    cases (hblank c hmem).symm.trans hc
  have hword : before ++ piece.toList <+: (firstLine text).toList := by
    refine isPrefix_firstLine ⟨after, by rw [happend, List.append_assoc]⟩ ?_ ?_
    · exact List.not_mem_append hbreak (hnotBlank (by decide))
    · rw [List.getLast?_append_of_ne_nil _ (mt String.toList_eq_nil_iff.1 hne)]
      exact fun hlast ↦ hnotBlank (by decide) (List.mem_of_getLast? hlast)
  obtain ⟨rest, hfirst⟩ := exists_isLine_firstLine text
  obtain ⟨more, hmore⟩ := hword
  refine ⟨[], (firstLine text).toList, rest, before.length, hfirst, ?_, ?_, more, ?_⟩
  · rw [annotate_eq, hcolumn, Nat.add_sub_cancel]
  · rw [hcolumn, List.length_nil, Nat.zero_add]
  · rw [← hmore, List.append_assoc, List.drop_left]

end

/-! ### Tokens on a line -/

open Lexicon in
/-- A token has no blank in it. -/
theorem Token.isBlank_of_mem_words {token : Token} {word : List Char} {c : Char}
    (hword : word ∈ token.words) (hc : c ∈ word) : isBlank c = false := by
  cases token with
  | number value =>
    rcases writtenIn_numeral word hword.1 c hc with hletter | rfl | rfl
    · exact hletter.1
    · decide
    · decide
  | identifier name => exact (writtenIn_name word hword.1 c hc).1
  | glyph glyph =>
    obtain ⟨d, hd, rfl⟩ := hword
    cases List.mem_singleton.1 hc
    exact isBlank_of_isReserved ⟨glyph, hd⟩

namespace Settings

variable {settings : Settings} {text piece : String} {r : Rejection}

/-- What was found stands in the text, and has no blank in it. -/
theorem standsAt_of_piece? (hparse : settings.parse text = .error r)
    (hpiece : r.piece? = some piece) :
    StandsAt text piece r.column ∧ piece ≠ "" ∧ ∀ c ∈ piece.toList, isBlank c = false := by
  rcases rejection_cases hparse with hscan | ⟨lexemes, hscan, ⟨i, rfl⟩ | ⟨h, e, hrun, he, rfl⟩⟩
  · obtain ⟨column, rfl, hstands⟩ := standsAt_of_scan_error hscan
    cases hpiece
    exact ⟨hstands, by decide, List.forall_mem_singleton.2 (by decide)⟩
  · cases hpiece
  · rw [Head.rejection, he] at hpiece ⊢
    dsimp only at hpiece ⊢
    rcases hlexeme : (settings.input text lexemes).lexemes[e.position]? with - | lexeme <;>
      rw [hlexeme] at hpiece <;> cases hpiece
    have hmem : lexeme ∈ lexemes := List.mem_toArray.1 (Array.mem_of_getElem? hlexeme)
    obtain ⟨_, _, -, -, hfirst⟩ := (partition_of_scanFrom hscan).stands lexeme hmem
    exact ⟨standsAt_of_mem hscan hmem, (exists_before_of_scan hscan hmem).1,
      fun c hc ↦ Token.isBlank_of_mem_words hfirst.mem_words hc⟩

/-- **The caret stands under what was found exactly when that is on the first line.** The drawing of
a rejection shows the line of the piece that was found, with the caret under its first character, if
and only if no line break stands in front of the piece. -/
theorem marks_iff_of_parse (hparse : settings.parse text = .error r)
    (hpiece : r.piece? = some piece) :
    r.Marks text piece ↔ '\n' ∉ text.toList.take (r.column - 1) := by
  obtain ⟨hstands, hne, hblank⟩ := standsAt_of_piece? hparse hpiece
  exact ⟨fun hmarks ↦ hmarks.notMem_take hne, Rejection.marks_of_notMem_take hstands hne hblank⟩

/-- The parenthesis in front of a break of two characters has the caret under it. -/
theorem marks_parenthesis_before_break :
    parse {} "λ ×)\r\nx" =
        .error (.unexpected ")" [.identifier, .openParen, .number, .minus] 4) ∧
      (Rejection.unexpected ")" [.identifier, .openParen, .number, .minus] 4).piece? = some ")" ∧
      (Rejection.unexpected ")" [.identifier, .openParen, .number, .minus] 4).Marks "λ ×)\r\nx"
        ")" := by
  have hparse : parse {} "λ ×)\r\nx" =
      .error (.unexpected ")" [.identifier, .openParen, .number, .minus] 4) :=
    parse_eq_error_of_map (by decide +kernel)
  exact ⟨hparse, rfl, (marks_iff_of_parse hparse rfl).2 (by decide)⟩

/-- On the second line the caret misses: for the parenthesis in `x +` and `)` the drawing shows the
line with the sum, and the caret stands behind its end. -/
theorem not_forall_marks :
    ¬ ∀ (settings : Settings) (text piece : String) (r : Rejection),
      settings.parse text = .error r → r.piece? = some piece → r.Marks text piece := by
  intro hall
  have hparse : parse {} "x +\n)" =
      .error (.unexpected ")" [.identifier, .openParen, .number, .minus] 5) :=
    parse_eq_error_of_map (by decide +kernel)
  exact (hall _ _ _ _ hparse rfl).notMem_take (by decide) (by decide)

end Settings

end Formulae
