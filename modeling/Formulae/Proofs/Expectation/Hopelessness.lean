import Formulae.Proofs.Expectation.Honesty
import Formulae.Proofs.Grammar.Acceptance

/-!
# Where a text becomes hopeless

A text that is rejected is rejected at the first piece that makes it hopeless: the pieces before it
can be completed to an expression, and with it they cannot.

The first half is the honesty of the record. The second is about other texts. Suppose that the
pieces up to and including the reported one could be completed. The parser reads the completed row
to its end, for it is complete. But up to the reported piece it does there what it did here, since
it never looked any further: the furthest place where it expected something is the report. So it
misses there, too (`Comparison.upTo`).
-/

namespace Formulae

/-! ### The same beginning -/

section

variable {left right : Input} {bound : Nat}

/-- The comparison of two inputs with the same pieces up to a bound. It ends when something is
expected beyond. -/
def Comparison.upTo (hshares : Shares left.row right.row (bound + 1))
    (hscope : right.scope = left.scope) (hlimit : left.limit ≤ right.limit) :
    Comparison left right where
  covers i := i ≤ bound
  alike _ _ _ := True
  gone f := Expectation.Reaches f (bound + 1)
  waived := True
  rejects _ _ := True
  covers_of_succ hi := Nat.le_of_succ_le hi
  token?_eq hi := by
    rw [← left.tokenAt?_row, ← right.tokenAt?_row, hshares.tokenAt? (Nat.lt_succ_of_le hi)]
  opens_iff hi _ := by
    rw [← left.opens_row_iff, ← right.opens_row_iff, Opens, Opens, hshares _ (Nat.lt_succ_of_le hi)]
  touching_eq hi _ := by
    rw [Bool.eq_iff_iff, ← left.touches_row_iff, ← right.touches_row_iff, Touches, Touches,
      hshares _ (Nat.lt_succ_of_le hi)]
  implied_eq := by rw [hscope]
  names_alike _ _ := by
    rw [hscope]
    exact .refl _ _
  alike_add _ _ _ := .inl trivial
  gone_mono hwithin hreaches := hreaches.mono hwithin
  gone_of_reaches hi hreaches := hreaches.of_le (Nat.lt_of_not_le hi)
  limit_le := hlimit
  rejects_of_not_waived := .inl trivial

namespace Settings

/-- Where two inputs have the same beginning and nothing is expected beyond it, a miss of the one is
a miss of the other. -/
theorem plainRun_of_shares {h : Head} {e : Expectation}
    (hshares : Shares left.row right.row (e.position + 1)) (hscope : right.scope = left.scope)
    (hlimit : left.limit ≤ right.limit) (hrun : plainRun left = .error .noMatch h)
    (he : h.furthest = some e) : ∃ h', plainRun right = .error .noMatch h' := by
  let C := Comparison.upTo hshares hscope hlimit
  have hoperand : C.Simulates 0 1 (Parser.operandBy left id left.limit)
      (Parser.operandBy right id right.limit) :=
    Comparison.simulates_operandBy_id (Nat.le_of_eq (Nat.zero_add _).symm)
      (Nat.le_of_eq (Nat.zero_add _).symm)
  have hagrees : C.Agrees (plainRun left) (plainRun right) :=
    (Comparison.simulates_complete hoperand).agrees rfl ⟨rfl, rfl, Nat.zero_le _, trivial⟩
  rw [hrun] at hagrees
  rcases hagrees with ⟨e', he', hreaches⟩ | ⟨h', hresult, -⟩
  · rw [he] at he'
    cases he'
    exact absurd hreaches (Nat.not_succ_le_self _)
  · exact ⟨h', hresult⟩

end Settings

end

/-! ### The reported place -/

namespace Settings

variable {input : Input} {h : Head} {e : Expectation}

/-- A text that does not match has a record. -/
theorem exists_furthest_of_plainRun (hrun : plainRun input = .error .noMatch h) :
    ∃ e, h.furthest = some e := by
  have hoperand := Parser.forward_operandBy_id (Nat.le_of_eq (Nat.zero_add input.limit).symm)
  obtain ⟨e, he, -⟩ := ((Parser.forward_complete hoperand).missed rfl hrun).reaches
  exact ⟨e, he⟩

/-- The record of a text that does not match is honest. -/
theorem honest_plainRun (hrun : plainRun input = .error .noMatch h) : h.Honest input := by
  have hlimit := Nat.zero_add input.limit
  have hforward := Parser.forward_operandBy_id (Nat.le_of_eq hlimit.symm)
  have hexpression := honest_expression (honest_operandBy hlimit) (sound_operandBy hlimit) hforward
    (h := {}) (ready_zero input.row input.scope.implied) rfl nofun
  rw [plainRun, runWith, Parser.complete_eq, Parser.bind_apply] at hrun
  rcases hroot : Parser.expression input (Parser.operandBy input id input.limit) {} with
    ⟨root, h₁⟩ | ⟨stop, h₁⟩
  · rw [hroot] at hrun hexpression
    dsimp only at hrun
    rw [Parser.ended_apply] at hrun
    split at hrun
    · cases hrun
    · rename_i hend
      cases hrun
      obtain ⟨⟨phrase, hphrase⟩, -⟩ := sound_expression (sound_operandBy hlimit) hforward hroot rfl
      refine hexpression.1.noted (.inl ⟨rfl, phrase, ?_⟩)
      rwa [List.length_take_of_le]
      rw [input.length_row]
      omega
  · rw [hroot] at hrun hexpression
    cases hrun
    exact hexpression

/-- The piece at the reported place makes the row hopeless. -/
theorem not_viable_of_plainRun (hrun : plainRun input = .error .noMatch h)
    (he : h.furthest = some e) (hlt : e.position < input.row.length) :
    ¬ Viable input.scope.implied (input.row.take (e.position + 1)) := by
  rintro ⟨more, phrase, hphrase⟩
  have hshares := Shares.take_append hlt more
  obtain ⟨lexemes, hrow⟩ := exists_row_eq (input.row.take (e.position + 1) ++ more)
    fun piece hpiece ↦ by
      rw [hshares 0 (Nat.succ_pos _), Input.row, row_getElem?_zero] at hpiece
      obtain ⟨lexeme, -, rfl⟩ := Option.map_eq_some_iff.1 hpiece
      rfl
  let completed : Input := { input with lexemes := lexemes.toArray }
  have hcompleted : completed.row = input.row.take (e.position + 1) ++ more := hrow
  rw [← hcompleted] at hshares hphrase
  rw [completed.length_row] at hphrase
  obtain ⟨h', hmiss⟩ := plainRun_of_shares hshares rfl (Nat.le_refl _) hrun he
  -- A complete parser never misses an expression.
  have hreads := reads_plainRun hphrase
  rw [hmiss] at hreads
  cases hreads

theorem not_accepted_of_plainRun (hrun : plainRun input = .error .noMatch h) :
    ¬ Accepted input.scope.implied input.row := by
  rintro ⟨phrase, hphrase⟩
  rw [input.length_row] at hphrase
  have hreads := reads_plainRun hphrase
  rw [hrun] at hreads
  cases hreads

/-! ### Rejected texts -/

variable {settings : Settings} {text : String} {lexemes : List Lexeme}

/-- A text that is not nested too deeply is an expression, or it misses with a record. -/
theorem parse_cases (hscan : scan text = .ok lexemes)
    (hdeep : ∀ limit column, settings.parse text ≠ .error (.tooDeep limit column)) :
    (Accepted settings.implied (row lexemes) ∧ ∃ formula, settings.parse text = .ok formula) ∨
      ∃ h e, plainRun (settings.input text lexemes) = .error .noMatch h ∧ h.furthest = some e ∧
        settings.parse text = .error (h.rejection (settings.input text lexemes)) := by
  rw [parse_of_scan hscan, ← conclude_plainRun] at hdeep ⊢
  rcases hrun : plainRun (settings.input text lexemes) with ⟨root, h⟩ | ⟨- | r, h⟩
  · obtain ⟨phrase, hphrase⟩ := derives_of_plainRun hrun
    exact .inl ⟨⟨phrase, by rwa [length_row]⟩, _, rfl⟩
  · obtain ⟨e, he⟩ := exists_furthest_of_plainRun hrun
    exact .inr ⟨h, e, rfl, he, rfl⟩
  · obtain ⟨column, rfl⟩ := exists_tooDeep_of_plainRun hrun
    rw [hrun] at hdeep
    exact absurd rfl (hdeep _ column)

/-- **A text is rejected where it becomes hopeless.** Unless it is nested too deeply, a rejected
text is viable up to the place that is reported, and not with the token that is found there; if the
text ends there, it is viable as a whole and no expression. Every label names something that could
have followed. -/
theorem rejection_of_parse (hscan : scan text = .ok lexemes)
    (hdeep : ∀ limit column, settings.parse text ≠ .error (.tooDeep limit column)) :
    (∀ found expected column, settings.parse text = .error (.unexpected found expected column) →
      ∃ i lexeme, lexemes[i]? = some lexeme ∧ lexeme.spelling = found ∧ lexeme.column = column ∧
        Viable settings.implied ((row lexemes).take i) ∧
        ¬ Viable settings.implied ((row lexemes).take (i + 1)) ∧
        ∀ label ∈ expected, Truthful settings.implied ((row lexemes).take i) label) ∧
    ((∃ expected column, settings.parse text = .error (.incomplete expected column)) ↔
      Viable settings.implied (row lexemes) ∧ ¬ Accepted settings.implied (row lexemes)) ∧
    ∀ expected column, settings.parse text = .error (.incomplete expected column) →
      ∀ label ∈ expected, Truthful settings.implied (row lexemes) label := by
  rcases parse_cases hscan hdeep with ⟨haccepted, formula, hok⟩ | ⟨h, e, hrun, he, hparse⟩
  · rw [hok]
    refine ⟨?_, ⟨?_, fun hnot ↦ absurd haccepted hnot.2⟩, ?_⟩
    · rintro found expected column ⟨⟩
    · rintro ⟨expected, column, ⟨⟩⟩
    · rintro expected column ⟨⟩
  obtain ⟨hviable, hlabels⟩ := honest_plainRun hrun e he
  have hnot := not_accepted_of_plainRun hrun
  rw [Head.rejection, he] at hparse
  dsimp only at hparse
  rcases hlexeme : (settings.input text lexemes).lexemes[e.position]? with - | lexeme
  · -- the text ends at the reported place
    rw [hlexeme] at hparse
    have hle := Array.getElem?_eq_none_iff.1 hlexeme
    rw [← Input.length_row] at hle
    rw [List.take_of_length_le hle] at hviable hlabels
    rw [hparse]
    refine ⟨?_, ⟨fun _ ↦ ⟨hviable, hnot⟩, fun _ ↦ ⟨_, _, rfl⟩⟩, ?_⟩
    · rintro found expected column ⟨⟩
    · rintro expected column ⟨⟩
      exact hlabels
  · -- a token stands there, and the text up to it cannot be the beginning of an expression
    rw [hlexeme] at hparse
    have hlt : e.position < (settings.input text lexemes).row.length := by
      rw [Input.length_row]
      exact (Array.getElem?_eq_some_iff.1 hlexeme).1
    have hhopeless := not_viable_of_plainRun hrun he hlt
    rw [hparse]
    refine ⟨?_, ⟨?_, fun hwhole ↦ absurd (hwhole.1.take _) hhopeless⟩, ?_⟩
    · rintro found expected column ⟨⟩
      rw [← Array.getElem?_toList] at hlexeme
      exact ⟨e.position, lexeme, hlexeme, rfl, rfl, hviable, hhopeless, hlabels⟩
    · rintro ⟨expected, column, ⟨⟩⟩
    · rintro expected column ⟨⟩

/-- A parenthesis that does not touch the name in front of it is hopeless, and still the report can
ask for one: it would have to touch. -/
theorem rejection_of_separated_call :
    ∃ lexemes, scan "f (x)" = .ok lexemes ∧
      parse {} "f (x)" = .error (.unexpected "(" [.openParen, .operator, .endOfInput] 3) ∧
      ∃ i lexeme, lexemes[i]? = some lexeme ∧ lexeme.spelling = "(" ∧ lexeme.column = 3 ∧
        Viable false ((row lexemes).take i) ∧ ¬ Viable false ((row lexemes).take (i + 1)) ∧
        ∀ label ∈ [.openParen, .operator, .endOfInput],
          Truthful false ((row lexemes).take i) label := by
  have hscan : scan "f (x)" = .ok [⟨.identifier "f", "f", ⟨0, 1⟩⟩,
      ⟨.glyph .openParen, "(", ⟨2, 3⟩⟩, ⟨.identifier "x", "x", ⟨3, 4⟩⟩,
      ⟨.glyph .closeParen, ")", ⟨4, 5⟩⟩] := by
    decide +kernel
  have hparse : parse {} "f (x)" =
      .error (.unexpected "(" [.openParen, .operator, .endOfInput] 3) :=
    parse_eq_error_of_map (by decide +kernel)
  have hdeep : ∀ limit column, parse {} "f (x)" ≠ .error (.tooDeep limit column) := by
    rw [hparse]
    rintro limit column ⟨⟩
  exact ⟨_, hscan, hparse, (rejection_of_parse hscan hdeep).1 _ _ _ hparse⟩

end Settings

end Formulae
