import Formulae.Proofs.Expectation.Absence
import Formulae.Proofs.Parse.Limit
import Formulae.Proofs.Scanning.Partition

/-!
# Where rejections point

A rejection names a column, and what it says about that column is true of the text
(`Rejection.IsExact`): what was found stands there, character for character, the end is the end, and
a text that nests too deeply does so at a token or behind the last one. The column is counted in
characters. A token is found by its byte offset as well, and the two agree (`columnOf_start`),
because the offset lies between two characters.

What was expected is never empty. A run that does not match has a record (`exists_furthest`), and a
record has a label from the start (`Head.Voiced`). Since every label of it names something that is
missing, it is none of the placeholders either.
-/

namespace Formulae

/-! ### Columns of offsets -/

section

variable {text : String} {before after : List Char}

/-- The bytes of some characters are filled by these characters. -/
theorem charsBefore?_utf8ByteSize (before after : List Char) :
    charsBefore? (String.ofList before).utf8ByteSize (before ++ after) = some before.length := by
  induction before with
  | nil => exact charsBefore?.eq_1 _
  | cons c before ih =>
    have hsize : (String.ofList (c :: before)).utf8ByteSize =
        c.utf8Size + (String.ofList before).utf8ByteSize := by
      rw [← List.singleton_append, String.ofList_append, String.utf8ByteSize_append,
        ← String.singleton_eq_ofList, String.utf8ByteSize_singleton]
    obtain ⟨more, hmore⟩ := Nat.exists_eq_add_of_lt c.utf8Size_pos
    rw [Nat.zero_add] at hmore
    rw [hsize, hmore, Nat.add_right_comm, List.cons_append, charsBefore?, ← Nat.add_right_comm,
      ← hmore, if_pos (Nat.le_add_right _ _), Nat.add_sub_cancel_left, ih]
    rfl

/-- The offset behind some characters has the column behind them. -/
theorem columnOf_after (h : text.toList = before ++ after) :
    columnOf text (Place.after {} before).offset = (Place.after {} before).column := by
  rw [columnOf, Place.offset_after, Nat.zero_add, h, charsBefore?_utf8ByteSize]
  exact Nat.add_comm _ 1

end

/-! ### Pieces of a text -/

/-- A piece of the text starts at the column: so many characters are in front of it, and one. -/
def StandsAt (text piece : String) (column : Nat) : Prop :=
  ∃ before after, text.toList = before ++ (piece.toList ++ after) ∧ column = before.length + 1

/-- The lexeme is one of the text and starts at the column, which is the one of its offset. -/
def LexemeAt (text : String) (lexeme : Lexeme) (column : Nat) : Prop :=
  ∃ lexemes, scan text = .ok lexemes ∧ lexeme ∈ lexemes ∧ lexeme.column = column ∧
    columnOf text lexeme.start = column

section

variable {text : String} {lexemes : List Lexeme} {lexeme : Lexeme}

theorem exists_before_of_scan (hscan : scan text = .ok lexemes) (hlexeme : lexeme ∈ lexemes) :
    lexeme.spelling ≠ "" ∧ ∃ before after,
      text.toList = before ++ (lexeme.spelling.toList ++ after) ∧
      lexeme.place = Place.after {} before := by
  obtain ⟨before, after, happend, hplace, hfirst⟩ :=
    (partition_of_scanFrom hscan).stands lexeme hlexeme
  rw [List.append_assoc] at happend
  exact ⟨fun hempty ↦ hfirst.ne_nil (String.toList_eq_nil_iff.2 hempty), before, after,
    happend.symm, hplace⟩

theorem lexemeAt_of_mem (hscan : scan text = .ok lexemes) (hlexeme : lexeme ∈ lexemes) :
    LexemeAt text lexeme lexeme.column := by
  obtain ⟨-, before, after, happend, hplace⟩ := exists_before_of_scan hscan hlexeme
  refine ⟨lexemes, hscan, hlexeme, rfl, ?_⟩
  rw [Lexeme.start, Lexeme.column, hplace, columnOf_after happend]

theorem standsAt_of_mem (hscan : scan text = .ok lexemes) (hlexeme : lexeme ∈ lexemes) :
    StandsAt text lexeme.spelling lexeme.column := by
  obtain ⟨-, before, after, happend, hplace⟩ := exists_before_of_scan hscan hlexeme
  exact ⟨before, after, happend, by rw [Lexeme.column, hplace, Place.after, Nat.add_comm]⟩

/-- What belongs to no token is a point that stands at the reported column. -/
theorem standsAt_of_scan_error {r : Rejection} (hscan : scan text = .error r) :
    ∃ column, r = .stray "." column ∧ StandsAt text "." column := by
  obtain ⟨done, rest, lexemes, happend, ⟨rest, rfl, -⟩, -, rfl⟩ :=
    ((scan_eq_iff_partition text).2 r).1 hscan
  exact ⟨done.length + 1, rfl, done, rest, happend, rfl⟩

end

/-! ### What is asked for -/

/-- Some labels are asked for, and they do not read like the placeholder. -/
def Label.Asked (labels : List Label) : Prop :=
  labels ≠ [] ∧ .expression ∉ labels ∧ Label.join labels ≠ Label.expression.text

/-- A list of labels is worded with the first label in front. -/
theorem Label.exists_join_cons (first : Label) (rest : List Label) :
    ∃ more, Label.join (first :: rest) = first.text ++ more := by
  rcases rest with - | ⟨second, - | ⟨third, rest⟩⟩
  · exact ⟨"", (String.append_empty).symm⟩
  · exact ⟨" or " ++ second.text, String.append_assoc⟩
  · exact ⟨", " ++ join (second :: third :: rest), String.append_assoc⟩

/-- No label of something that is missing begins like the placeholder. -/
theorem Input.Lacks.not_isPrefix {input : Input} {i : Nat} {label : Label}
    (hlacks : input.Lacks i label) :
    ¬ label.text.toList <+: Label.expression.text.toList := by
  cases label with
  | expression | other => exact hlacks.elim
  | _ => decide

theorem Label.asked_of_lacks {input : Input} {i : Nat} {labels : List Label} (hne : labels ≠ [])
    (hlacks : ∀ label ∈ labels, input.Lacks i label) : Label.Asked labels := by
  refine ⟨hne, fun hmem ↦ hlacks _ hmem, fun hjoin ↦ ?_⟩
  obtain ⟨first, rest, rfl⟩ := List.exists_cons_of_ne_nil hne
  obtain ⟨more, hmore⟩ := exists_join_cons first rest
  refine (hlacks first List.mem_cons_self).not_isPrefix ⟨more.toList, ?_⟩
  rw [← String.toList_append, ← hmore, hjoin]

/-- The record has a label, if there is a record. -/
def Head.Voiced (h : Head) : Prop :=
  ∀ e, h.furthest = some e → e.labels ≠ []

theorem Head.Voiced.noted {h : Head} (hvoiced : h.Voiced) (label : Label) :
    (h.noted label).Voiced := by
  intro e he
  rcases Expectation.add_cases he with hbefore | ⟨hposition, -⟩
  · exact hvoiced e hbefore
  · obtain ⟨e', he', hlt | ⟨-, hmem⟩⟩ := Expectation.Mentions.add h.furthest h.position label
    · cases he.symm.trans he'
      exact absurd hposition (Nat.ne_of_gt hlt)
    · cases he.symm.trans he'
      exact List.ne_nil_of_mem hmem

/-- The moves that leave a label wherever there is a record. -/
def Conduct.voiced (input : Input) : Conduct input where
  holds h := h.Voiced
  moves _ _ h' := h'.Voiced
  misses _ h' := h'.Voiced
  stops _ _ := True
  moves_refl hh := hh
  moves_trans _ hmoves := hmoves
  moves_mono hmoves _ := hmoves
  holds_of_moves _ hmoves := hmoves
  misses_after _ hmisses := hmisses
  stops_after _ _ := trivial
  moves_logged _ hmoves := hmoves
  moves_advanced hh _ := hh
  moves_noted {_ label} hh _ := hh.noted label
  misses_noted {_ label} hh _ := hh.noted label
  moves_backTo _ hmisses := hmisses

namespace Conduct

variable {input : Input}

theorem lenient_voiced (input : Input) : (voiced input).Lenient where
  moves_operator hh := hh.noted .operator
  misses_operator hh := hh.noted .operator

theorem governs_voiced_operandBy (levels : Nat) :
    (voiced input).Governs 1 (Parser.operandBy input id levels) := by
  induction levels with
  | zero =>
    intro h hh
    rw [Parser.operandBy_zero_apply, id, Parser.oneDeeper_apply]
    split
    · exact hh
    · trivial
  | succ levels ih =>
    intro h hh
    rw [Parser.operandBy_succ_apply, id, Parser.oneDeeper_apply]
    split
    · have hbody := allows_alternatives (governs_expression (lenient_voiced input) ih) ih
        (h := h.atDepth (h.depth + 1)) hh
      match Parser.alternatives input (Parser.operandBy input id levels)
        (h.atDepth (h.depth + 1)), hbody with
      | .ok e h₁, hmoves => exact hmoves
      | .error .noMatch h₁, hmisses => exact hmisses
      | .error (.rejected r) h₁, _ => trivial
    · trivial

end Conduct

/-! ### Runs -/

namespace Settings

variable {input : Input} {h : Head}

/-- A plain run that does not match leaves labels of what is missing. -/
theorem asked_of_plainRun (hrun : plainRun input = .error .noMatch h) :
    ∃ e, h.furthest = some e ∧ Label.Asked e.labels := by
  obtain ⟨e, he⟩ := exists_furthest_of_plainRun hrun
  have hvoiced : (Conduct.voiced input).Allows 1 {} (plainRun input) :=
    Conduct.governs_complete (Conduct.governs_expression (Conduct.lenient_voiced input)
      (Conduct.governs_voiced_operandBy input.limit)) {} nofun
  rw [hrun] at hvoiced
  exact ⟨e, he, Label.asked_of_lacks (hvoiced e he) fun _ hmem ↦ lacks_of_plainRun hrun he hmem⟩

/-- Sharing changes no record, either. -/
theorem asked_of_run (hrun : run input = .error .noMatch h) :
    ∃ e, h.furthest = some e ∧ Label.Asked e.labels := by
  have hagrees := agrees_run input
  rw [hrun] at hagrees
  match hplain : plainRun input, hagrees with
  | .error .noMatch h₁, .inr ⟨h', hresult, _, hfurthest, _⟩ =>
    cases hresult
    rw [hfurthest]
    exact asked_of_plainRun hplain
  | .ok _ _, .inl (.inl hcovers) => exact absurd trivial hcovers

/-- A run is rejected outright only for its nesting, where an operand is asked for. -/
theorem exists_position_of_plainRun {r : Rejection}
    (hrun : plainRun input = .error (.rejected r) h) :
    ∃ i, r = .tooDeep input.limit (input.column i) := by
  have halike : input.Alike input :=
    ⟨fun _ ↦ rfl, fun _ _ _ ↦ .rfl, fun _ _ ↦ rfl, rfl, fun _ _ _ ↦ .refl _ _⟩
  have hagrees := agrees_plainRun (.steady halike False
    (fun r _ ↦ ∃ i, r = .tooDeep input.limit (input.column i)) (Nat.le_refl _)
    (.inr ⟨rfl, fun i ↦ ⟨i, rfl⟩⟩)) trivial rfl
  rw [hrun] at hagrees
  rcases hagrees with hwaived | ⟨_, _, -, hposition⟩
  · exact hwaived.elim
  · exact hposition

end Settings

/-! ### Rejected texts -/

/-- What the rejection says about a place in the text is true of it, and what it asks for is
something. -/
def Rejection.IsExact (settings : Settings) (text : String) : Rejection → Prop
  | .stray piece column => piece ≠ "" ∧ StandsAt text piece column
  | .unexpected found expected column => found ≠ "" ∧ StandsAt text found column ∧
      (∃ lexeme, LexemeAt text lexeme column ∧ lexeme.spelling = found) ∧ Label.Asked expected
  | .incomplete expected column => column = text.length + 1 ∧ Label.Asked expected
  | .tooDeep limit column => limit = settings.depthLimit ∧
      ((∃ lexeme, LexemeAt text lexeme column) ∨ column = text.length + 1)

namespace Settings

variable {settings : Settings} {text : String} {lexemes : List Lexeme} {r : Rejection}

theorem isExact_of_scan_error (hscan : scan text = .error r) : r.IsExact settings text := by
  obtain ⟨column, rfl, hstands⟩ := standsAt_of_scan_error hscan
  exact ⟨by decide, hstands⟩

/-- A rejection for nesting points to a lexeme or to the end. -/
theorem isExact_tooDeep (hscan : scan text = .ok lexemes) (i : Nat) :
    (Rejection.tooDeep settings.depthLimit ((settings.input text lexemes).column i)).IsExact
      settings text := by
  refine ⟨rfl, ?_⟩
  rcases hlexeme : (settings.input text lexemes).lexemes[i]? with - | lexeme
  · exact .inr (by rw [Input.column, hlexeme]; rfl)
  · have hmem : lexeme ∈ lexemes := List.mem_toArray.1 (Array.mem_of_getElem? hlexeme)
    refine .inl ⟨lexeme, ?_⟩
    rw [Input.column, hlexeme]
    exact lexemeAt_of_mem hscan hmem

/-- The report of a record points to the lexeme at its position or to the end. -/
theorem isExact_rejection (hscan : scan text = .ok lexemes) {h : Head} {e : Expectation}
    (he : h.furthest = some e) (hasked : Label.Asked e.labels) :
    (h.rejection (settings.input text lexemes)).IsExact settings text := by
  rw [Head.rejection, he]
  dsimp only
  rcases hlexeme : (settings.input text lexemes).lexemes[e.position]? with - | lexeme
  · exact ⟨rfl, hasked⟩
  · have hmem : lexeme ∈ lexemes := List.mem_toArray.1 (Array.mem_of_getElem? hlexeme)
    exact ⟨(exists_before_of_scan hscan hmem).1, standsAt_of_mem hscan hmem,
      ⟨lexeme, lexemeAt_of_mem hscan hmem, rfl⟩, hasked⟩

/-- A text is rejected by the scanner, for its nesting at some operand, or with the record of a run
that does not match. -/
theorem rejection_cases (hparse : settings.parse text = .error r) :
    scan text = .error r ∨ ∃ lexemes, scan text = .ok lexemes ∧
      ((∃ i, r = .tooDeep settings.depthLimit ((settings.input text lexemes).column i)) ∨
        ∃ h e, plainRun (settings.input text lexemes) = .error .noMatch h ∧
          h.furthest = some e ∧ r = h.rejection (settings.input text lexemes)) := by
  rcases hscan : scan text with r' | lexemes
  · cases (parse_of_scan_error hscan).symm.trans hparse
    exact .inl rfl
  · rw [parse_of_scan hscan, ← conclude_plainRun] at hparse
    refine .inr ⟨lexemes, rfl, ?_⟩
    rcases hrun : plainRun (settings.input text lexemes) with ⟨root, h⟩ | ⟨- | r', h⟩ <;>
      rw [hrun] at hparse <;> cases hparse
    · obtain ⟨e, he⟩ := exists_furthest_of_plainRun hrun
      exact .inr ⟨h, e, rfl, he, rfl⟩
    · exact .inl (exists_position_of_plainRun hrun)

/-- **A rejection points to the right place.** What is reported as found stands in the text at the
reported column, and an unexpected token is reported with its whole spelling. A text that ends too
early is reported behind its last character, and one that nests deeper than the limit of the
settings at a token or there. Something other than the placeholder is asked for, because a run that
does not match always has a record. -/
theorem isExact_of_parse (hparse : settings.parse text = .error r) :
    r.IsExact settings text ∧
      ∀ lexemes h, scan text = .ok lexemes →
        run (settings.input text lexemes) = .error .noMatch h →
          ∃ e, h.furthest = some e ∧ Label.Asked e.labels := by
  refine ⟨?_, fun lexemes h _ hrun ↦ asked_of_run hrun⟩
  rcases rejection_cases hparse with hscan | ⟨lexemes, hscan, ⟨i, rfl⟩ | ⟨h, e, hrun, he, rfl⟩⟩
  · exact isExact_of_scan_error hscan
  · exact isExact_tooDeep hscan i
  · obtain ⟨e', he', hasked⟩ := asked_of_plainRun hrun
    cases he.symm.trans he'
    exact isExact_rejection hscan he hasked

/-- Both `λ` and `×` take two bytes, and the second operator is found at the fifth character. -/
theorem isExact_wide_operators :
    parse {} "λ × ÷ λ" = .error (.unexpected "÷" [.identifier, .openParen, .number, .minus] 5) ∧
      (Rejection.unexpected "÷" [.identifier, .openParen, .number, .minus] 5).IsExact {}
        "λ × ÷ λ" := by
  have hparse : parse {} "λ × ÷ λ" =
      .error (.unexpected "÷" [.identifier, .openParen, .number, .minus] 5) :=
    parse_eq_error_of_map (by decide +kernel)
  exact ⟨hparse, (isExact_of_parse hparse).1⟩

end Settings

end Formulae
