import Formulae.Proofs.Grammar.Acceptance

/-!
# The nesting limit

The limit on nesting can stop a parse, and it does nothing else. The depth of an operand is compared
with it and is part of the site under which the outcome is stored, but neither the comparison nor
the site is ever a reason to read the text in another way.

So two runs over the same lexemes that differ in their limits keep step for as long as the lower
limit allows (`Comparison.raised`): the same positions, the same depths, the same record of what was
expected. The comparison waives what the lower limit rejects, and that is all it waives. It is a
comparison of two plain parsers; storing outcomes is invisible on both sides (`conclude_plainRun`),
so the stores, whose keys hold the depth, need not be compared.
-/

namespace Formulae

variable {input : Input} {limit : Nat}

/-- Two inputs that are read alike: the same tokens at the same positions, which touch alike where
it matters, and names with the same meaning in both scopes. -/
structure Input.Alike (left right : Input) : Prop where
  token?_eq : ∀ i, left.token? i = right.token? i
  opens_iff : ∀ i name, left.token? i = some (.identifier name) →
    (left.opens (i + 1) ↔ right.opens (i + 1))
  touching_eq : ∀ i, left.token? i = some (.glyph .minus) →
    left.touching (i + 1) = right.touching (i + 1)
  implied_eq : left.scope.implied = right.scope.implied
  names_alike : ∀ i name, left.token? i = some (.identifier name) →
    left.scope.Alike right.scope name

/-- The comparison of two runs that keep the same record all the time. -/
def Comparison.steady {left right : Input} (halike : left.Alike right) (waived : Prop)
    (rejects : Rejection → Rejection → Prop) (hlimit : left.limit ≤ right.limit)
    (hrejects : waived ∨ left.limit = right.limit ∧ ∀ i,
      rejects (.tooDeep left.limit (left.column i)) (.tooDeep right.limit (right.column i))) :
    Comparison left right where
  covers _ := True
  alike f g _ := g = f
  gone _ := False
  waived := waived
  rejects := rejects
  covers_of_succ _ := trivial
  token?_eq _ := halike.token?_eq _
  opens_iff _ := halike.opens_iff _ _
  touching_eq _ := halike.touching_eq _
  implied_eq := halike.implied_eq
  names_alike _ := halike.names_alike _ _
  alike_add _ _ hfurthest := .inl (by rw [hfurthest])
  gone_mono _ := id
  gone_of_reaches hcovers _ := absurd trivial hcovers
  limit_le := hlimit
  rejects_of_not_waived := hrejects.imp_right fun ⟨heq, hcolumn⟩ ↦
    ⟨heq, fun _ ↦ id, fun i ↦ ⟨trivial, hcolumn i⟩⟩

/-- The comparison of two runs over the same lexemes, the second with the larger limit. It ends
where the first one is nested too deeply. -/
def Comparison.raised (hle : input.limit ≤ limit) :
    Comparison input { input with limit := limit } :=
  .steady ⟨fun _ ↦ rfl, fun _ _ _ ↦ .rfl, fun _ _ ↦ rfl, rfl, fun _ _ _ ↦ .refl _ _⟩ True
    (fun _ _ ↦ True) hle (.inl trivial)

namespace Settings

/-- Two plain runs keep step. Each has as many levels left as its own limit allows. -/
theorem agrees_plainRun {input' : Input} (C : Comparison input input') (hcovers : C.covers 0)
    (halike : C.alike none none ∅) : C.Agrees (plainRun input) (plainRun input') := by
  have hoperand : C.Simulates 0 1 (Parser.operandBy input id input.limit)
      (Parser.operandBy input' id input'.limit) :=
    Comparison.simulates_operandBy_id (Nat.le_of_eq (Nat.zero_add _).symm)
      (Nat.le_of_eq (Nat.zero_add _).symm)
  exact (Comparison.simulates_complete hoperand).agrees rfl ⟨rfl, rfl, hcovers, halike⟩

/-- Two runs over inputs that are read alike come to the same, up to how a rejection is worded. -/
theorem conclude_plainRun_of_alike {left right : Input} (halike : left.Alike right)
    (hlimit : left.limit = right.limit) {reword : Rejection → Rejection}
    (hdeep : ∀ i, .tooDeep right.limit (right.column i) =
      reword (.tooDeep left.limit (left.column i)))
    (hfurthest : ∀ h h' : Head, h'.furthest = h.furthest →
      h'.rejection right = reword (h.rejection left)) :
    conclude right (plainRun right) = (conclude left (plainRun left)).mapError reword := by
  have hagrees := agrees_plainRun (.steady halike False (fun r r' ↦ r' = reword r)
    (Nat.le_of_eq hlimit) (.inr ⟨hlimit, hdeep⟩)) trivial rfl
  rcases hrun : plainRun left with ⟨root, h⟩ | ⟨- | r, h⟩
  · rw [hrun] at hagrees
    obtain (hcovers | hgone) | ⟨h', hrun', -⟩ := hagrees
    · exact absurd trivial hcovers
    · exact hgone.elim
    · rw [hrun']
      rfl
  · rw [hrun] at hagrees
    obtain hgone | ⟨h', hrun', -, hrecord⟩ := hagrees
    · exact hgone.elim
    · rw [hrun']
      exact congrArg Except.error (hfurthest h h' hrecord)
  · rw [hrun] at hagrees
    obtain hwaived | ⟨_, h', hrun', rfl⟩ := hagrees
    · exact hwaived.elim
    · rw [hrun']
      rfl

/-- A run that its limit does not stop comes to the same under a larger one. -/
theorem conclude_plainRun_raised (hle : input.limit ≤ limit)
    (hsettled : ∀ column, conclude input (plainRun input) ≠ .error (.tooDeep input.limit column)) :
    conclude { input with limit := limit } (plainRun { input with limit := limit }) =
      conclude input (plainRun input) := by
  have hagrees := agrees_plainRun (Comparison.raised hle) trivial rfl
  rcases hrun : plainRun input with ⟨root, h⟩ | ⟨- | r, h⟩
  · rw [hrun] at hagrees
    obtain (hcovers | hgone) | ⟨h', hrun', -⟩ := hagrees
    · exact absurd trivial hcovers
    · exact hgone.elim
    · rw [hrun']
      rfl
  · -- the same record over the same lexemes is reported in the same words
    rw [hrun] at hagrees
    obtain hgone | ⟨h', hrun', -, hfurthest⟩ := hagrees
    · exact hgone.elim
    · rw [hrun']
      show Except.error (h'.rejection { input with limit := limit }) =
        Except.error (h.rejection input)
      rw [Head.rejection, Head.rejection, show h'.furthest = h.furthest from hfurthest]
      rfl
  · -- the plain parser rejects outright only what nests too deeply
    obtain ⟨column, rfl⟩ := exists_tooDeep_of_plainRun hrun
    exact absurd (by rw [hrun]; rfl) (hsettled column)

/-- **A larger limit changes no settled outcome.** A text that is not nested too deeply for its
limit is parsed to the same formula under every larger one, or rejected with the same labels at the
same place. -/
theorem parse_of_limit_le (settings : Settings) (text : String)
    (hle : settings.depthLimit ≤ limit)
    (hsettled : ∀ bound column, settings.parse text ≠ .error (.tooDeep bound column)) :
    { settings with depthLimit := limit }.parse text = settings.parse text := by
  rcases hscan : scan text with r | lexemes
  · -- scanning knows of no limit
    rw [parse_of_scan_error hscan, parse_of_scan_error hscan]
  · have hraised : { settings with depthLimit := limit }.input text lexemes =
        { settings.input text lexemes with limit := limit } := rfl
    rw [parse_of_scan hscan, ← conclude_plainRun] at hsettled ⊢
    rw [parse_of_scan hscan, ← conclude_plainRun, hraised, conclude_plainRun_raised hle]
    intro column hdeep
    refine hsettled settings.depthLimit column ?_
    rw [hdeep]
    rfl

/-- Two levels are enough to find that a call is not closed, and a third one changes nothing. -/
theorem parse_unclosed_call_of_limit_le :
    2 ≤ 3 ∧ parse { depthLimit := 2 } "f(x" =
        .error (.incomplete [.openParen, .operator, .comma, .closeParen] 4) ∧
      parse { depthLimit := 3 } "f(x" =
        .error (.incomplete [.openParen, .operator, .comma, .closeParen] 4) := by
  have hparse : parse { depthLimit := 2 } "f(x" =
      .error (.incomplete [.openParen, .operator, .comma, .closeParen] 4) :=
    parse_eq_error_of_map (by decide +kernel)
  have hsettled : ∀ bound column,
      parse { depthLimit := 2 } "f(x" ≠ .error (.tooDeep bound column) := by
    rw [hparse]
    rintro bound column ⟨⟩
  exact ⟨by decide, hparse, (parse_of_limit_le { depthLimit := 2 } "f(x" (by decide) hsettled).trans
    hparse⟩

end Settings

end Formulae
