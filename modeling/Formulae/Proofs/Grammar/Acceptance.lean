import Formulae.Proofs.Grammar.Soundness
import Formulae.Proofs.Parse.Sharing

/-!
# The accepted texts

A text whose lexemes can be scanned is accepted exactly when its row can be derived as an expression
that does not nest deeper than allowed, and the formula is then the tree of the one derivation that
there is. Soundness and completeness are about the plain parser; since sharing the outcomes of
operands is invisible, this is about the parser of the library.
-/

namespace Formulae

namespace Settings

variable {input : Input} {phrase : Phrase}

/-- The plain run reads a derivation of the whole row. -/
theorem reads_plainRun (h : Derives input.row input.scope.implied (.tier .additive) 0
      input.lexemes.size phrase) :
    Reads input.limit phrase.nesting (· = phrase.expr input.scope) input.lexemes.size 0
      (plainRun input) := by
  have hends : (Nonterminal.tier .additive).Ends input.row input.scope.implied
      input.lexemes.size := by
    intro token htoken
    have hlt := lt_length_of_tokenAt? htoken
    rw [input.length_row] at hlt
    exact absurd hlt (Nat.lt_irrefl _)
  rw [plainRun, runWith, Parser.complete_eq]
  refine Reads.bind (complete_of_derives h hends input.limit 0 {} (Nat.zero_add _) rfl rfl)
    (Nat.le_refl _) ?_
  rintro _ h₁ hfits rfl hposition hdepth
  rw [Parser.ended_apply, if_pos (Nat.le_of_eq hposition.symm)]
  exact .ok hfits rfl hposition hdepth

/-- What the plain run reads is a derivation of the whole row. -/
theorem derives_of_plainRun {e : Expr} {h : Head} (hrun : plainRun input = .ok e h) :
    ∃ phrase, Derives input.row input.scope.implied (.tier .additive) 0 input.lexemes.size
      phrase := by
  have hsound := sound_operandBy (Nat.zero_add input.limit)
  have hforward := Parser.forward_operandBy_id (Nat.le_of_eq (Nat.zero_add input.limit).symm)
  rw [plainRun, runWith, Parser.complete_eq, Parser.bind_apply] at hrun
  rcases hexpression : Parser.expression input (Parser.operandBy input id input.limit) {} with
    ⟨root, h₁⟩ | ⟨stop, h₁⟩
  · rw [hexpression] at hrun
    dsimp only at hrun
    rw [Parser.ended_apply] at hrun
    split at hrun
    · rename_i hend
      obtain ⟨⟨phrase, hphrase⟩, -⟩ := sound_expression hsound hforward hexpression rfl
      have hle := ((Parser.forward_expression hforward).advanced rfl hexpression).position_le
      have hposition : h₁.position = input.lexemes.size := by
        rw [Nat.max_eq_right (Nat.zero_le _)] at hle
        omega
      rw [hposition, ← input.length_row, List.take_length, input.length_row] at hphrase
      exact ⟨phrase, hphrase⟩
    · cases hrun
  · rw [hexpression] at hrun
    cases hrun

theorem conclude_run_eq_ok_iff {root : Expr} :
    conclude input (run input) = .ok root ↔
      ∃ phrase, Derives input.row input.scope.implied (.tier .additive) 0 input.lexemes.size
        phrase ∧ phrase.nesting ≤ input.limit ∧ root = phrase.expr input.scope := by
  rw [← conclude_plainRun]
  constructor
  · intro hconclude
    obtain ⟨h, hrun⟩ : ∃ h, plainRun input = .ok root h := by
      rcases hrun : plainRun input with ⟨e, h⟩ | ⟨- | r, h⟩ <;> rw [hrun] at hconclude <;>
        cases hconclude
      exact ⟨h, rfl⟩
    obtain ⟨phrase, hphrase⟩ := derives_of_plainRun hrun
    -- The phrase is the one that a run reads there, and so its tree is the one that was returned.
    have hreads := reads_plainRun hphrase
    rw [hrun] at hreads
    cases hreads with
    | ok hfits hroot => exact ⟨phrase, hphrase, hfits, hroot⟩
  · rintro ⟨phrase, hphrase, hfits, rfl⟩
    -- A run that reads the phrase fails only where it nests too deep.
    match plainRun input, reads_plainRun hphrase with
    | .ok e h, .ok _ he _ _ => exact congrArg Except.ok he
    | .error (.rejected r) h, .rejected hlt => omega

variable {settings : Settings} {text : String} {lexemes : List Lexeme}

theorem parse_of_scan (hscan : scan text = .ok lexemes) :
    settings.parse text =
      (conclude (settings.input text lexemes) (run (settings.input text lexemes))).map
        (⟨·, settings.implied, settings.vocabulary⟩) := by
  rw [parse, hscan]
  rfl

theorem parse_of_scan_error {r : Rejection} (hscan : scan text = .error r) :
    settings.parse text = .error r := by
  rw [parse, hscan]
  rfl

/-- A text is parsed to the tree of a derivation of its lexemes, if there is one that nests no
deeper than the limit. -/
theorem parse_eq_ok_iff {formula : Formula} :
    settings.parse text = .ok formula ↔ ∃ lexemes phrase, scan text = .ok lexemes ∧
      Derives (row lexemes) settings.implied (.tier .additive) 0 lexemes.length phrase ∧
      phrase.nesting ≤ settings.depthLimit ∧
      formula = ⟨phrase.expr settings.scope, settings.implied, settings.vocabulary⟩ := by
  constructor
  · intro hparse
    rcases hscan : scan text with r | lexemes
    · rw [parse, hscan] at hparse
      cases hparse
    · rw [parse_of_scan hscan] at hparse
      rcases hconclude : conclude (settings.input text lexemes)
        (run (settings.input text lexemes)) with r | root
      · rw [hconclude] at hparse
        cases hparse
      · rw [hconclude] at hparse
        cases hparse
        obtain ⟨phrase, hphrase, hfits, rfl⟩ := conclude_run_eq_ok_iff.1 hconclude
        exact ⟨lexemes, phrase, rfl, hphrase, hfits, rfl⟩
  · rintro ⟨lexemes, phrase, hscan, hphrase, hfits, rfl⟩
    have hconclude : conclude (settings.input text lexemes)
        (run (settings.input text lexemes)) = .ok (phrase.expr settings.scope) :=
      conclude_run_eq_ok_iff.2 ⟨phrase, hphrase, hfits, rfl⟩
    rw [parse_of_scan hscan, hconclude]
    rfl

/-- **The parser accepts its grammar and builds its tree.** A text is accepted exactly when its row
has a derivation that nests no deeper than the limit. The formula is the tree of the derivation, and
there is no other one. -/
theorem parse_eq_ok_iff_derives (hscan : scan text = .ok lexemes) :
    (∀ formula, settings.parse text = .ok formula ↔
      ∃ phrase, Derives (row lexemes) settings.implied (.tier .additive) 0 lexemes.length phrase ∧
        phrase.nesting ≤ settings.depthLimit ∧
          formula = ⟨phrase.expr settings.scope, settings.implied, settings.vocabulary⟩) ∧
    ∀ phrase phrase', Derives (row lexemes) settings.implied (.tier .additive) 0 lexemes.length
      phrase → Derives (row lexemes) settings.implied (.tier .additive) 0 lexemes.length phrase' →
        phrase = phrase' := by
  refine ⟨fun formula ↦ ?_, fun phrase phrase' h h' ↦ ?_⟩
  · rw [parse_eq_ok_iff]
    constructor
    · rintro ⟨lexemes', phrase, hscan', hphrase⟩
      cases hscan.symm.trans hscan'
      exact ⟨phrase, hphrase⟩
    · rintro ⟨phrase, hphrase⟩
      exact ⟨lexemes, phrase, hscan, hphrase⟩
  · rw [← length_row lexemes] at h h'
    exact h'.unique_of_length h

/-- A rejection can be computed without the formula: trees hold functions and cannot be compared. -/
theorem parse_eq_error_of_map {r : Rejection}
    (h : (settings.parse text).map (fun _ ↦ ()) = .error r) : settings.parse text = .error r := by
  rcases hparse : settings.parse text with r' | formula <;> rw [hparse] at h <;> cases h
  rfl

/-! ### A call beside a name -/

/-- The lexemes of `g(x)y`. -/
def callBesideName : List Lexeme :=
  [⟨.identifier "g", "g", ⟨0, 1⟩⟩, ⟨.glyph .openParen, "(", ⟨1, 2⟩⟩,
    ⟨.identifier "x", "x", ⟨2, 3⟩⟩, ⟨.glyph .closeParen, ")", ⟨3, 4⟩⟩,
    ⟨.identifier "y", "y", ⟨4, 5⟩⟩]

theorem scan_callBesideName : scan "g(x)y" = .ok callBesideName := by
  decide +kernel

/-- The name is an implied factor. -/
theorem derives_callBesideName :
    Derives (row callBesideName) true (.tier .additive) 0 callBesideName.length
      (.joined .implied (.call₁ "g" (.name "x")) (.name "y")) := by
  have hx : Derives (row callBesideName) true .operand 2 3 (.name "x") :=
    .name rfl (by rintro ⟨⟩)
  have hy : Derives (row callBesideName) true .operand 4 5 (.name "y") :=
    .name rfl (by rintro ⟨⟩)
  have hcall : Derives (row callBesideName) true .operand 0 4 (.call₁ "g" (.name "x")) :=
    .call₁ rfl rfl (hx.tier_of_operand .additive) rfl
  exact hcall.joined_of_operands (.implied rfl (by rintro ⟨⟩)) hy

/-- The closing parenthesis of `g(x)` leaves room for an implied factor. -/
theorem parse_call_beside_name :
    parse { implied := true } "g(x)y" =
      .ok ⟨.call₂ (some Operator.mul.apply) "*" (.call₁ none "g" (.var "x")) (.var "y"),
        true, {}⟩ := by
  refine ((parse_eq_ok_iff_derives scan_callBesideName).1 _).2
    ⟨_, derives_callBesideName, by decide, ?_⟩
  with_unfolding_all rfl

end Settings

end Formulae
