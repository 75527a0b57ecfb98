import Formulae.Proofs.Expectation.Hopelessness
import Formulae.Proofs.Scanning.Steps

/-!
# What is expected is missing

A report must not ask for what stands at the reported place. Every label but one is noted where a
look at the token has just shown that it is missing (`Input.Lacks`). The exception is a missing
operator. A chain notes it in front of every token that is no operator of its own tier, so in front
of `+` it is noted by the powers and the products, and by then it is **unfounded**
(`Expectation.Unfounded`).

Such a note does not last. The chain behind which the operator stands is part of a sum, which goes
on with the operator, and whatever becomes of the operand behind it, something is then expected
further on. So a chain leaves unfounded notes only in front of operators of looser tiers, and where
it ends in front of an operator of its own or a tighter one, an operand has been missed behind that
(`Head.Trails`). A sum is the loosest chain and leaves none.

Missing is not the same as not being there. A parenthesis that does not touch the name in front of
it calls nothing, and the report then asks for the parenthesis that it found.
-/

namespace Formulae

open Expectation (Reaches)

variable {input : Input} {h h' h₀ h₁ : Head} {i : Nat} {label : Label}

/-! ### What labels describe -/

/-- The label names the token by its kind. -/
def Label.Describes (token : Token) : Label → Prop
  | .identifier => ∃ name, token = .identifier name
  | .number => ∃ value, token = .number value
  | .openParen => token = .glyph .openParen
  | .closeParen => token = .glyph .closeParen
  | .comma => token = .glyph .comma
  | .minus => token = .glyph .minus
  | .operator => ∃ tier : Tier, ∃ op, tier.operator? token = some op
  | .touchingOperand | .endOfInput | .expression | .other _ => False

/-- What describes the token at the position and is missing there is a parenthesis apart from the
name in front of it. -/
theorem Input.Lacks.eq_openParen {lexeme : Lexeme} (hlacks : input.Lacks i label)
    (hlexeme : input.lexemes[i]? = some lexeme) (hdescribes : label.Describes lexeme.token) :
    label = .openParen ∧ ∃ previous name, 0 < i ∧ input.lexemes[i - 1]? = some previous ∧
      previous.token = .identifier name ∧ previous.touches lexeme = false := by
  have htoken : input.token? i = some lexeme.token := by rw [Input.token?, hlexeme]; rfl
  cases label with
  | openParen =>
    rcases hlacks with hne | ⟨htouching, hpos, name, hname⟩
    · exact absurd (htoken.trans (congrArg some hdescribes)) hne
    · obtain ⟨previous, hprevious, hidentifier⟩ := Option.map_eq_some_iff.1 hname
      refine ⟨rfl, previous, name, hpos, hprevious, hidentifier, ?_⟩
      simpa [Input.touching, hprevious, hlexeme, hpos] using htouching
  | identifier =>
    obtain ⟨name, hname⟩ := hdescribes
    exact absurd (htoken.trans (congrArg some hname)) (hlacks name)
  | number =>
    obtain ⟨value, hvalue⟩ := hdescribes
    exact absurd (htoken.trans (congrArg some hvalue)) (hlacks value)
  | operator =>
    obtain ⟨tier, op, hop⟩ := hdescribes
    cases (hlacks _ htoken tier).symm.trans hop
  | closeParen | comma | minus => exact absurd (htoken.trans (congrArg some hdescribes)) hlacks
  | touchingOperand | endOfInput | expression | other => exact hdescribes.elim

/-! ### Unfounded notes -/

/-- The record lists the label for the position, where it is not missing. -/
def Expectation.Unfounded (input : Input) (furthest : Option Expectation) (i : Nat)
    (label : Label) : Prop :=
  ∃ e, furthest = some e ∧ e.position = i ∧ label ∈ e.labels ∧ ¬ input.Lacks i label

open Expectation (Unfounded)

/-- A record that reaches a position says nothing about those in front of it. -/
theorem Expectation.Unfounded.le {f : Option Expectation} {j : Nat} (h : Unfounded input f i label)
    (hreaches : Reaches f j) : j ≤ i := by
  obtain ⟨e, rfl, rfl, -, -⟩ := h
  obtain ⟨e', he', hle⟩ := hreaches
  cases he'
  exact hle

/-- One note adds at most one unfounded label. -/
theorem Expectation.Unfounded.of_noted {label' : Label}
    (hunfounded : Unfounded input (h.noted label').furthest i label) :
    Unfounded input h.furthest i label ∨ label = label' ∧ i = h.position := by
  obtain ⟨e, he, rfl, hmem, hlacks⟩ := hunfounded
  rcases Expectation.add_cases he with he | ⟨hposition, hlabels⟩
  · exact .inl ⟨e, he, rfl, hmem, hlacks⟩
  · rcases hlabels label hmem with rfl | ⟨e', he', hposition', hmem'⟩
    · exact .inr ⟨rfl, hposition⟩
    · exact .inl ⟨e', he', hposition'.trans hposition.symm, hmem', hlacks⟩

/-- Every unfounded label of the second record is one of the first. -/
def Head.Founded (input : Input) (h h' : Head) : Prop :=
  ∀ i label, Unfounded input h'.furthest i label → Unfounded input h.furthest i label

theorem Head.Founded.noted (hlacks : input.Lacks h.position label) :
    h.Founded input (h.noted label) := by
  intro i label' hunfounded
  rcases hunfounded.of_noted with hbefore | ⟨rfl, rfl⟩
  · exact hbefore
  · obtain ⟨-, -, -, -, hnot⟩ := hunfounded
    exact absurd hlacks hnot

/-- The moves forward that add nothing unfounded. -/
def Conduct.candid (input : Input) (depth : Nat) : Conduct input where
  holds h := h.depth = depth
  moves stride h h' := h.Advanced input stride h' ∧ h.Founded input h'
  misses h h' := h.Missed h' ∧ h.Founded input h'
  stops _ _ := True
  moves_refl {h} _ := ⟨.refl h, fun _ _ ↦ id⟩
  moves_trans h₁ h₂ := ⟨h₁.1.trans h₂.1, fun i label hi ↦ h₁.2 i label (h₂.2 i label hi)⟩
  moves_mono hmoves hle := ⟨hmoves.1.mono hle, hmoves.2⟩
  holds_of_moves hd hmoves := hmoves.1.depth_eq.trans hd
  misses_after h₁ h₂ := ⟨.after h₁.1 h₂.1, fun i label hi ↦ h₁.2 i label (h₂.2 i label hi)⟩
  stops_after _ _ := trivial
  moves_logged events hmoves := ⟨hmoves.1.logged events, hmoves.2⟩
  moves_advanced _ htoken := ⟨.advanced htoken, fun _ _ ↦ id⟩
  moves_noted {h label} _ hlacks := ⟨(Head.Advanced.refl h).noted label, .noted hlacks⟩
  misses_noted {h label} _ hlacks := ⟨.noted h label, .noted hlacks⟩
  moves_backTo _ hmisses := ⟨.backTo hmisses.1, hmisses.2⟩

/-! ### Chains -/

/-- An operator of one of the tiers stands in front of the head. -/
def Head.Faces (input : Input) (tiers : List Tier) (h : Head) : Prop :=
  ∃ token, input.token? h.position = some token ∧ ∃ tier ∈ tiers, tier.operator? token ≠ none

/-- The second head stands behind a chain of the first of some tiers that starts at the first head,
or behind an operand if there are no tiers. Only missing operators can have become unfounded, and in
front of an operator of one of the tiers something was expected behind it. -/
structure Head.Trails (input : Input) (tiers : List Tier) (h h' : Head) : Prop where
  unfounded : ∀ i label, Unfounded input h'.furthest i label →
    Unfounded input h.furthest i label ∨ label = .operator ∧ i ≤ h'.position
  reaches : tiers ≠ [] → Reaches h'.furthest h'.position
  reaches_succ : h'.Faces input tiers → Reaches h'.furthest (h'.position + 1)

/-- A result that leaves no unfounded labels but those that may stand behind a chain. -/
def Parser.Result.Candid {α : Type} (input : Input) (tiers : List Tier) (h : Head) :
    Parser.Result α → Prop
  | .ok _ h' => h.Trails input tiers h'
  | .error .noMatch h' => h.Founded input h'
  | .error (.rejected _) _ => True

/-- A parser of chains of the first of some tiers, all of whose results are candid. -/
structure Parser.Candid (input : Input) (depth : Nat) (tiers : List Tier) (p : Parser Expr) :
    Prop where
  forward : Parser.Forward input depth 1 p
  candid : ∀ h, h.depth = depth → Parser.Result.Candid input tiers h (p h)

namespace Head.Trails

variable {tiers : List Tier}

theorem logged (htrails : Trails input tiers h h') (events : List Event) :
    Trails input tiers h (h'.logged events) :=
  ⟨htrails.1, htrails.2, htrails.3⟩

/-- A later head trails, too. -/
theorem trans (h₀₁ : Trails input tiers h₀ h) (h₁₂ : Trails input tiers h h₁)
    (hle : h.position ≤ h₁.position) : Trails input tiers h₀ h₁ where
  unfounded i label hunfounded := by
    rcases h₁₂.unfounded i label hunfounded with hbefore | hbehind
    · exact (h₀₁.unfounded i label hbefore).imp_right fun ⟨hlabel, hi⟩ ↦
        ⟨hlabel, Nat.le_trans hi hle⟩
    · exact .inr hbehind
  reaches := h₁₂.reaches
  reaches_succ := h₁₂.reaches_succ

theorem noted_operator (htrails : Trails input tiers h₀ h) :
    Trails input tiers h₀ (h.noted .operator) where
  unfounded i label hunfounded := by
    rcases hunfounded.of_noted with hbefore | ⟨rfl, rfl⟩
    · exact htrails.unfounded i label hbefore
    · exact .inr ⟨rfl, Nat.le_refl _⟩
  reaches _ := (Expectation.Mentions.add _ _ _).reaches
  reaches_succ hfaces := (htrails.reaches_succ hfaces).mono (.add _ _ _)

/-- The link that was tried last is given back. -/
theorem backTo (htrails : Trails input tiers h₀ h) (hfounded : h.Founded input h₁)
    {tiers' : List Tier} (hreaches : Reaches h₁.furthest h.position)
    (hreaches_succ : h.Faces input tiers' → Reaches h₁.furthest (h.position + 1)) :
    Trails input tiers' h₀ (h₁.backTo h.position) where
  unfounded i label hunfounded := htrails.unfounded i label (hfounded i label hunfounded)
  reaches _ := hreaches
  reaches_succ := hreaches_succ

end Head.Trails

variable {depth : Nat} {tiers : List Tier} {operand : Parser Expr}

theorem Head.Faces.of_cons {tier : Tier} (hfaces : h.Faces input (tier :: tiers))
    (hnone : ∀ token, input.token? h.position = some token → tier.operator? token = none) :
    h.Faces input tiers := by
  obtain ⟨token, htoken, tier', hmem, hsome⟩ := hfaces
  rcases List.mem_cons.1 hmem with rfl | hmem
  · exact absurd (hnone token htoken) hsome
  · exact ⟨token, htoken, tier', hmem, hsome⟩

/-- A link leaves a trail of its operand, and a miss one of the chain. -/
theorem Head.Trails.link (tier : Tier) (hoperand : Parser.Candid input depth tiers operand)
    (htrails : Trails input tiers h₀ h) (hdepth : h.depth = depth) :
    match Parser.link input (tier.chain input.scope) operand h with
    | .ok _ h₁ => Trails input tiers h₀ h₁
    | .error .noMatch h₁ => Trails input (tier :: tiers) h₀ (h₁.backTo h.position)
    | .error (.rejected _) _ => True := by
  rw [Parser.link_apply]
  rcases Parser.continuation_cases input tier h with
    ⟨-, op, -, -, hop⟩ | ⟨hnone, ⟨op, -, -, -, hop⟩ | hmiss⟩
  · -- Behind a written operator, whatever becomes of the operand, something is expected.
    rw [hop]
    dsimp only
    have hforward := hoperand.forward h.advanced hdepth
    have hcandid := hoperand.candid h.advanced hdepth
    rcases hrun : operand h.advanced with ⟨rhs, h₁⟩ | ⟨- | r, h₁⟩ <;> rw [hrun] at hforward hcandid
    · have hle := hforward.position_add_le
      rw [Head.advanced_position] at hle
      exact htrails.trans ⟨hcandid.1, hcandid.2, hcandid.3⟩ (by omega)
    · exact htrails.backTo hcandid (hforward.reaches.of_le (Nat.le_succ _)) fun _ ↦ hforward.reaches
    · trivial
  · -- The note in front of an implied operator stays, whether an operand follows or not.
    rw [hop]
    dsimp only
    have hnoted := htrails.noted_operator
    have hforward := hoperand.forward (h.noted .operator) hdepth
    have hcandid := hoperand.candid (h.noted .operator) hdepth
    rcases hrun : operand (h.noted .operator) with ⟨rhs, h₁⟩ | ⟨- | r, h₁⟩ <;>
      rw [hrun] at hforward hcandid
    · exact hnoted.trans hcandid (Nat.le_trans (Nat.le_add_right _ 1) hforward.position_add_le)
    · exact hnoted.backTo hcandid hforward.reaches fun hfaces ↦
        (hnoted.reaches_succ (hfaces.of_cons hnone)).mono hforward.within
    · trivial
  · rw [hmiss]
    have hnoted := htrails.noted_operator
    exact hnoted.backTo (fun _ _ ↦ id) (Expectation.Mentions.add _ _ _).reaches fun hfaces ↦
      hnoted.reaches_succ (hfaces.of_cons hnone)

/-- With more trials than tokens left, the loop of a chain ends with a miss. -/
theorem Head.Trails.links (tier : Tier) (hoperand : Parser.Candid input depth tiers operand)
    {trials : Nat} (found : List (Operator × Expr)) (htrails : Trails input tiers h₀ h)
    (hdepth : h.depth = depth) (htrials : input.lexemes.size - h.position < trials) :
    match Parser.links input (tier.chain input.scope) operand trials found h with
    | .ok _ h₁ => Trails input (tier :: tiers) h₀ h₁
    | .error .noMatch _ => False
    | .error (.rejected _) _ => True := by
  induction trials generalizing found h with
  | zero => omega
  | succ trials ih =>
    have hlink := htrails.link tier hoperand hdepth
    have hforward := Parser.forward_link (tier.chain input.scope) hoperand.forward h hdepth
    rw [Parser.links_succ_apply]
    rcases hrun : Parser.link input (tier.chain input.scope) operand h with
      ⟨⟨op, rhs⟩, h₁⟩ | ⟨- | r, h₁⟩ <;> rw [hrun] at hlink hforward
    · have hlt := hforward.position_add_le
      have hle := hforward.position_le
      refine ih _ (hlink.logged _) (hforward.depth_eq.trans hdepth) ?_
      rw [Head.logged_position]
      omega
    · exact hlink
    · trivial

/-- **A chain leaves unfounded notes only in front of operators of looser tiers.** -/
theorem candid_chained (tier : Tier) (hoperand : Parser.Candid input depth tiers operand) :
    Parser.Candid input depth (tier :: tiers)
      (Parser.chained input (tier.chain input.scope) operand) := by
  refine ⟨Parser.forward_chained _ hoperand.forward, fun h hdepth ↦ ?_⟩
  have hforward := hoperand.forward h hdepth
  have hcandid := hoperand.candid h hdepth
  rw [Parser.chained_eq, Parser.bind_apply]
  rcases hrun : operand h with ⟨first, h₁⟩ | ⟨- | r, h₁⟩ <;> rw [hrun] at hforward hcandid
  · have htrails : h.Trails input tiers (h₁.logged [.firstOperand tier first]) :=
      Head.Trails.logged hcandid _
    have hlinks := htrails.links tier hoperand [] (hforward.depth_eq.trans hdepth)
      (Nat.lt_succ_self (input.lexemes.size - h₁.position))
    dsimp only
    rw [Parser.linked_apply]
    match Parser.links input (tier.chain input.scope) operand _ _ _, hlinks with
    | .ok more h₂, hmore => exact hmore.logged _
    | .error (.rejected r) h₂, _ => trivial
  · exact hcandid
  · trivial

/-- A sum leaves none at all. -/
theorem Head.Trails.founded (htrails : h.Trails input [.additive, .multiplicative, .exponent] h') :
    h.Founded input h' := by
  intro i label hunfounded
  rcases htrails.unfounded i label hunfounded with hbefore | ⟨rfl, hle⟩
  · exact hbefore
  · -- The sum ends here, so an operand has been missed behind the operator.
    exfalso
    have hposition : h'.position = i :=
      Nat.le_antisymm (hunfounded.le (htrails.reaches (List.cons_ne_nil _ _))) hle
    have hfaces : h'.Faces input [.additive, .multiplicative, .exponent] := by
      obtain ⟨-, -, -, -, hlacks⟩ := hunfounded
      simp only [Input.Lacks, not_forall] at hlacks
      obtain ⟨token, htoken, tier, htier⟩ := hlacks
      exact ⟨token, hposition ▸ htoken, tier, by cases tier <;> decide, htier⟩
    have hlt := hunfounded.le (htrails.reaches_succ hfaces)
    omega

/-! ### Whole texts -/

namespace Conduct

theorem governs_candid_expression (hforward : Parser.Forward input depth 1 operand)
    (hoperand : (candid input depth).Governs 1 operand) :
    (candid input depth).Governs 1 (Parser.expression input operand) := by
  have hcandid : Parser.Candid input depth [] operand := by
    refine ⟨hforward, fun h hdepth ↦ ?_⟩
    match operand h, hoperand h hdepth with
    | .ok _ _, hmoves =>
      refine ⟨fun i label hi ↦ .inl (hmoves.2 i label hi), fun hne ↦ absurd rfl hne, ?_⟩
      rintro ⟨token, -, tier, hmem, -⟩
      cases hmem
    | .error .noMatch _, hmisses => exact hmisses.2
    | .error (.rejected _) _, _ => trivial
  have hsum : Parser.Candid input depth [.additive, .multiplicative, .exponent]
      (Parser.expression input operand) :=
    candid_chained .additive (candid_chained .multiplicative (candid_chained .exponent hcandid))
  intro h hdepth
  match Parser.expression input operand h, hsum.forward h hdepth, hsum.candid h hdepth with
  | .ok _ _, hadv, htrails => exact ⟨hadv, htrails.founded⟩
  | .error .noMatch _, hmiss, hfounded => exact ⟨hmiss, hfounded⟩
  | .error (.rejected _) _, _, _ => trivial

/-- **The plain parser leaves no unfounded notes.** -/
theorem governs_candid_operandBy {levels : Nat} (hlimit : input.limit ≤ depth + levels) :
    (candid input depth).Governs 1 (Parser.operandBy input id levels) := by
  induction levels generalizing depth with
  | zero =>
    intro h hd
    have hd : h.depth = depth := hd
    rw [Parser.operandBy_zero_apply, id, Parser.oneDeeper_apply, if_neg (by omega)]
    trivial
  | succ levels ih =>
    intro h hd
    rw [Parser.operandBy_succ_apply, id, Parser.oneDeeper_apply]
    split
    · have hbelow : input.limit ≤ depth + 1 + levels := by omega
      have hbody := allows_alternatives
        (governs_candid_expression (Parser.forward_operandBy_id hbelow) (ih hbelow)) (ih hbelow)
        (h := h.atDepth (h.depth + 1)) (congrArg (· + 1) hd)
      match Parser.alternatives input (Parser.operandBy input id levels)
        (h.atDepth (h.depth + 1)), hbody with
      | .ok e h₁, hmoves =>
        exact ⟨Head.Advanced.surfaced (.of_entered hmoves.1), hmoves.2⟩
      | .error .noMatch h₁, hmisses =>
        exact ⟨Head.Missed.surfaced (.of_entered hmisses.1), hmisses.2⟩
      | .error (.rejected r) h₁, _ => trivial
    · trivial

end Conduct

namespace Settings

/-- Every label of the record of a text that does not match is missing. -/
theorem lacks_of_plainRun {e : Expectation} (hrun : plainRun input = .error .noMatch h)
    (he : h.furthest = some e) (hlabel : label ∈ e.labels) : input.Lacks e.position label := by
  have hlimit := Nat.le_of_eq (Nat.zero_add input.limit).symm
  have hcomplete := Conduct.governs_complete (Conduct.governs_candid_expression
    (Parser.forward_operandBy_id hlimit) (Conduct.governs_candid_operandBy hlimit)) {} rfl
  by_contra hlacks
  have hrun : Parser.complete input (Parser.operandBy input id input.limit) {} =
    .error .noMatch h := hrun
  rw [hrun] at hcomplete
  obtain ⟨e', ⟨⟩, -⟩ := hcomplete.2 e.position label ⟨e, he, rfl, hlabel, hlacks⟩

variable {settings : Settings} {text found : String} {expected : List Label} {column : Nat}

/-- A token that is reported as unexpected is the one at the place of the record, and the labels are
those of the record. -/
theorem exists_record_of_parse
    (hparse : settings.parse text = .error (.unexpected found expected column)) :
    ∃ lexemes h e lexeme, scan text = .ok lexemes ∧
      plainRun (settings.input text lexemes) = .error .noMatch h ∧ h.furthest = some e ∧
      lexemes[e.position]? = some lexeme ∧ found = lexeme.spelling ∧ expected = e.labels ∧
      column = lexeme.column := by
  rcases hscan : scan text with r | lexemes
  · obtain ⟨text', column', rfl⟩ := exists_stray_of_scanFrom hscan
    cases (parse_of_scan_error hscan).symm.trans hparse
  have hdeep : ∀ limit column', settings.parse text ≠ .error (.tooDeep limit column') := by
    rw [hparse]
    exact nofun
  rcases parse_cases hscan hdeep with ⟨-, formula, hok⟩ | ⟨h, e, hrun, he, hrejection⟩
  · cases hok.symm.trans hparse
  · rw [hparse, Head.rejection, he] at hrejection
    dsimp only at hrejection
    rcases hlexeme : (settings.input text lexemes).lexemes[e.position]? with - | lexeme
    · rw [hlexeme] at hrejection
      cases hrejection
    · rw [hlexeme] at hrejection
      rw [← Array.getElem?_toList] at hlexeme
      cases hrejection
      exact ⟨lexemes, h, e, lexeme, rfl, hrun, he, hlexeme, rfl, rfl, rfl⟩

/-- **A report asks for what is found only if that is a parenthesis apart from its name.** If a
token is reported as unexpected, no label describes it, unless it is a parenthesis behind a name
that it does not touch. -/
theorem eq_openParen_of_describes_found
    (hparse : settings.parse text = .error (.unexpected found expected column)) :
    ∃ lexemes i lexeme, scan text = .ok lexemes ∧ lexemes[i]? = some lexeme ∧
      lexeme.spelling = found ∧ lexeme.column = column ∧
      ∀ label ∈ expected, label.Describes lexeme.token → label = .openParen ∧
        ∃ previous name, 0 < i ∧ lexemes[i - 1]? = some previous ∧
          previous.token = .identifier name ∧ previous.touches lexeme = false := by
  obtain ⟨lexemes, h, e, lexeme, hscan, hrun, he, hlexeme, rfl, rfl, rfl⟩ :=
    exists_record_of_parse hparse
  refine ⟨lexemes, e.position, lexeme, hscan, hlexeme, rfl, rfl, fun label hlabel hdescribes ↦ ?_⟩
  have hlexeme' : (settings.input text lexemes).lexemes[e.position]? = some lexeme := by
    rwa [← Array.getElem?_toList]
  obtain ⟨hopenParen, previous, name, hpos, hprevious, hrest⟩ :=
    (lacks_of_plainRun hrun he hlabel).eq_openParen hlexeme' hdescribes
  rw [← Array.getElem?_toList] at hprevious
  exact ⟨hopenParen, previous, name, hpos, hprevious, hrest⟩

/-- In `(a (` three things are expected instead of the second parenthesis. A parenthesis is one of
them, since the one that is found does not touch the name. -/
theorem eq_openParen_of_describes_found_nested :
    parse {} "(a (" = .error (.unexpected "(" [.openParen, .operator, .closeParen] 4) ∧
      ∃ lexemes i lexeme, scan "(a (" = .ok lexemes ∧ lexemes[i]? = some lexeme ∧
        lexeme.spelling = "(" ∧ lexeme.column = 4 ∧
        ∀ label ∈ [Label.openParen, .operator, .closeParen], label.Describes lexeme.token →
          label = .openParen ∧ ∃ previous name, 0 < i ∧ lexemes[i - 1]? = some previous ∧
            previous.token = .identifier name ∧ previous.touches lexeme = false := by
  have hparse : parse {} "(a (" =
      .error (.unexpected "(" [.openParen, .operator, .closeParen] 4) :=
    parse_eq_error_of_map (by decide +kernel)
  exact ⟨hparse, eq_openParen_of_describes_found hparse⟩

/-- A report can ask for the very parenthesis that it found: the one in `f (x)` is unexpected, and
a parenthesis is expected. -/
theorem not_forall_not_describes :
    ¬ ∀ (settings : Settings) (text found : String) (expected : List Label) (column : Nat),
      settings.parse text = .error (.unexpected found expected column) →
        ∀ lexemes lexeme, scan text = .ok lexemes → lexeme ∈ lexemes → lexeme.column = column →
          ∀ label ∈ expected, ¬ label.Describes lexeme.token := by
  intro hnone
  have hparse : parse {} "f (x)" =
      .error (.unexpected "(" [.openParen, .operator, .endOfInput] 3) :=
    parse_eq_error_of_map (by decide +kernel)
  have hscan : scan "f (x)" = .ok [⟨.identifier "f", "f", ⟨0, 1⟩⟩,
      ⟨.glyph .openParen, "(", ⟨2, 3⟩⟩, ⟨.identifier "x", "x", ⟨3, 4⟩⟩,
      ⟨.glyph .closeParen, ")", ⟨4, 5⟩⟩] := by
    decide +kernel
  exact hnone _ _ _ _ _ hparse _ ⟨.glyph .openParen, "(", ⟨2, 3⟩⟩ hscan
    (.tail _ (.head _)) rfl .openParen (.head _) rfl

end Settings

end Formulae
