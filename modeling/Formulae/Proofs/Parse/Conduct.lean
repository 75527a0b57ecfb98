import Formulae.Proofs.Parse.Steps

/-!
# Laws that all parsers obey

What is true of every parser of the grammar is often a relation between the head before a run and
the head after it. A `Conduct` is such a relation, in the parts that it has to have: the heads from
which anything is claimed, and what becomes of them where a parser matches, where it does not, and
where the text is rejected. Its laws are about the moves of the head and nothing else.

They are enough for every parser of the grammar to obey the conduct as soon as its operands do
(`Governs`). An operand goes down a level, records where it begins, and may be answered from a
store. That is not told by the moves, and is left to each conduct.

A label is only ever noted where it is missing (`Input.Lacks`), with one exception: a chain notes
that an operator is missing although only those of its own tier are. Conducts that do not mind are
lenient, and govern chains at once; the others have to treat chains for themselves.
-/

namespace Formulae

/-- What the label names is missing at the position. A parenthesis is missing, too, where it does
not touch the name that it is to call. -/
def Input.Lacks (input : Input) (i : Nat) : Label → Prop
  | .identifier => ∀ name, input.token? i ≠ some (.identifier name)
  | .openParen => input.token? i ≠ some (.glyph .openParen) ∨
      ¬ input.touching i ∧ 0 < i ∧ ∃ name, input.token? (i - 1) = some (.identifier name)
  | .closeParen => input.token? i ≠ some (.glyph .closeParen)
  | .comma => input.token? i ≠ some (.glyph .comma)
  | .minus => input.token? i ≠ some (.glyph .minus)
  | .number => ∀ value, input.token? i ≠ some (.number value)
  | .operator => ∀ token, input.token? i = some token → ∀ tier : Tier, tier.operator? token = none
  | .touchingOperand =>
    ¬ input.touching i ∧ 0 < i ∧ input.token? (i - 1) = some (.glyph .minus)
  | .endOfInput => i < input.lexemes.size
  | .expression | .other _ => False

/-- A name that is not called lacks a parenthesis, whether there is none or it stands apart. -/
theorem Input.lacks_openParen {input : Input} {i : Nat} {name : String}
    (hname : input.token? i = some (.identifier name)) (hopens : ¬ input.opens (i + 1)) :
    input.Lacks (i + 1) .openParen := by
  by_cases htouching : input.touching (i + 1)
  · exact .inl fun hparen ↦ hopens ⟨htouching, hparen⟩
  · exact .inr ⟨htouching, Nat.succ_pos i, name, hname⟩

/-- What parsers do to the head. -/
structure Conduct (input : Input) where
  /-- The heads from which something is claimed. -/
  holds : Head → Prop
  /-- What a match does that consumes at least the given number of tokens. -/
  moves : Nat → Head → Head → Prop
  /-- What is done without a match. -/
  misses : Head → Head → Prop
  /-- What is done up to a rejection of the text. -/
  stops : Head → Head → Prop
  /-- To stay is a move. -/
  moves_refl : ∀ {h}, holds h → moves 0 h h
  /-- One move after another is a move. -/
  moves_trans : ∀ {h h₁ h₂ stride stride'}, moves stride h h₁ → moves stride' h₁ h₂ →
    moves (stride + stride') h h₂
  /-- The number of tokens that a move consumes is only a lower bound. -/
  moves_mono : ∀ {h h₁ stride stride'}, moves stride h h₁ → stride' ≤ stride → moves stride' h h₁
  /-- A move leads to a head from which something is claimed again. -/
  holds_of_moves : ∀ {h h₁ stride}, holds h → moves stride h h₁ → holds h₁
  /-- A miss behind a move is a miss from where the move began. -/
  misses_after : ∀ {h h₁ h₂ stride}, moves stride h h₁ → misses h₁ h₂ → misses h h₂
  /-- So is the rejection of a text behind a move. -/
  stops_after : ∀ {h h₁ h₂ stride}, moves stride h h₁ → stops h₁ h₂ → stops h h₂
  /-- Events can be logged behind every move. -/
  moves_logged : ∀ {h h₁ stride} (events), moves stride h h₁ → moves stride h (h₁.logged events)
  /-- A token that is there can be consumed. -/
  moves_advanced : ∀ {h token}, holds h → input.token? h.position = some token →
    moves 1 h h.advanced
  /-- What is missing can be noted, and parsing goes on. -/
  moves_noted : ∀ {h label}, holds h → input.Lacks h.position label → moves 0 h (h.noted label)
  /-- A note of what is missing is a miss. -/
  misses_noted : ∀ {h label}, holds h → input.Lacks h.position label → misses h (h.noted label)
  /-- A miss whose position is taken back is a move. -/
  moves_backTo : ∀ {h h₁}, holds h → misses h h₁ → moves 0 h (h₁.backTo h.position)

namespace Conduct

variable {input : Input} (C : Conduct input) {α β : Type}

/-- A result that the conduct allows for a run from the head. -/
def Allows (stride : Nat) (h : Head) : Parser.Result α → Prop
  | .ok _ h' => C.moves stride h h'
  | .error .noMatch h' => C.misses h h'
  | .error (.rejected _) h' => C.stops h h'

/-- A parser all whose results are allowed. -/
def Governs (stride : Nat) (p : Parser α) : Prop :=
  ∀ h, C.holds h → C.Allows stride h (p h)

/-- A missing operator can be noted anywhere. -/
structure Lenient : Prop where
  moves_operator : ∀ {h}, C.holds h → C.moves 0 h (h.noted .operator)
  misses_operator : ∀ {h}, C.holds h → C.misses h (h.noted .operator)

variable {C} {stride stride' : Nat} {operand : Parser Expr} {h h' : Head}

/-- A result of a run that goes on after a move. -/
theorem Allows.after {result : Parser.Result α} (hmoves : C.moves stride h h')
    (hresult : C.Allows stride' h' result) : C.Allows (stride + stride') h result := by
  match result, hresult with
  | .ok _ _, hnext => exact C.moves_trans hmoves hnext
  | .error .noMatch _, hnext => exact C.misses_after hmoves hnext
  | .error (.rejected _) _, hnext => exact C.stops_after hmoves hnext

/-- What consumes some tokens consumes any smaller number of them at least. -/
theorem Allows.mono {result : Parser.Result α} (hresult : C.Allows stride h result)
    (hle : stride' ≤ stride) : C.Allows stride' h result := by
  match result, hresult with
  | .ok _ _, hmoves => exact C.moves_mono hmoves hle
  | .error .noMatch _, hmisses => exact hmisses
  | .error (.rejected _) _, hstops => exact hstops

theorem Governs.mono {p : Parser α} (hp : C.Governs stride p) (hle : stride' ≤ stride) :
    C.Governs stride' p :=
  fun h hh ↦ (hp h hh).mono hle

/-! ### Combinators -/

theorem Governs.pure (a : α) : C.Governs 0 (pure a : Parser α) :=
  fun _ hh ↦ C.moves_refl hh

/-- Two parsers one after the other consume what both of them consume. -/
theorem Governs.bind {p : Parser α} {q : α → Parser β} (hp : C.Governs stride p)
    (hq : ∀ a, C.Governs stride' (q a)) : C.Governs (stride + stride') (p >>= q) := by
  intro h hh
  rw [Parser.bind_apply]
  match p h, hp h hh with
  | .ok a h₁, hmoves => exact (hq a h₁ (C.holds_of_moves hh hmoves)).after hmoves
  | .error .noMatch h₁, hmisses => exact hmisses
  | .error (.rejected r) h₁, hstops => exact hstops

theorem governs_emit (events : List Event) : C.Governs 0 (Parser.emit events) :=
  fun _ hh ↦ C.moves_logged events (C.moves_refl hh)

theorem governs_get : C.Governs 0 (get : Parser Head) :=
  fun _ hh ↦ C.moves_refl hh

/-- The second parser starts behind a move that consumes nothing: a miss whose position was taken
back. -/
theorem Governs.either {p q : Parser α} (hp : C.Governs stride p) (hq : C.Governs stride q) :
    C.Governs stride (Parser.either p q) := by
  intro h hh
  rw [Parser.either_apply]
  match p h, hp h hh with
  | .ok a h₁, hmoves => exact hmoves
  | .error .noMatch h₁, hmisses =>
    have hback := C.moves_backTo hh hmisses
    have hsecond := (hq _ (C.holds_of_moves hh hback)).after hback
    rwa [Nat.zero_add] at hsecond
  | .error (.rejected r) h₁, hstops => exact hstops

/-! ### Chains -/

section

variable (hlenient : C.Lenient) (chain : Chain) (hoperand : C.Governs 1 operand)

include hlenient

/-- An operator may be implied, so no token is certain to be consumed. A missing one is noted even
where an operator of another tier stands, so the conduct has to be lenient. -/
theorem governs_continuation : C.Governs 0 (Parser.continuation input chain) := by
  intro h hh
  rw [Parser.continuation_apply]
  split
  · rename_i op hop
    obtain ⟨token, htoken, -⟩ := Option.bind_eq_some_iff.1 hop
    exact C.moves_mono (C.moves_advanced hh htoken) (Nat.zero_le 1)
  split
  · split
    · exact hlenient.misses_operator hh
    · exact hlenient.moves_operator hh
  · exact hlenient.misses_operator hh

include hoperand

/-- Even behind an implied operator a link consumes the token of its operand. -/
theorem governs_link : C.Governs 1 (Parser.link input chain operand) :=
  (governs_continuation hlenient chain).bind fun _ ↦ hoperand.bind fun _ ↦ .pure _

/-- The trial that finds no link is taken back, so a chain ends with a move. -/
theorem governs_links (trials : Nat) (found : List (Operator × Expr)) :
    C.Governs 0 (Parser.links input chain operand trials found) := by
  induction trials generalizing found with
  | zero => exact fun h hh ↦ C.moves_refl hh
  | succ trials ih =>
    intro h hh
    rw [Parser.links_succ_apply]
    match Parser.link input chain operand h, governs_link hlenient chain hoperand h hh with
    | .ok (op, rhs) h₁, hmoves =>
      have hlogged := C.moves_logged [.link chain.tier op rhs] (C.moves_mono hmoves (Nat.zero_le 1))
      exact (ih _ _ (C.holds_of_moves hh hlogged)).after hlogged
    | .error .noMatch h₁, hmisses => exact C.moves_backTo hh hmisses
    | .error (.rejected r) h₁, hstops => exact hstops

/-- What follows the first operand may be nothing. -/
theorem governs_linked (first : Expr) : C.Governs 0 (Parser.linked input chain operand first) :=
  (governs_emit _).bind fun _ ↦ governs_get.bind fun _ ↦
    (governs_links hlenient chain hoperand _ _).bind fun _ ↦ (governs_emit _).bind fun _ ↦ .pure _

/-- A chain consumes at least its first operand. -/
theorem governs_chained : C.Governs 1 (Parser.chained input chain operand) :=
  hoperand.bind (governs_linked hlenient chain hoperand)

omit chain in
/-- An expression is made of chains of three tiers, one within the other. -/
theorem governs_expression : C.Governs 1 (Parser.expression input operand) :=
  governs_chained hlenient _ (governs_chained hlenient _ (governs_chained hlenient _ hoperand))

end

/-! ### Operands -/

section

variable (hexpression : C.Governs 1 (Parser.expression input operand))
  (hoperand : C.Governs 1 operand)

theorem governs_closed (e : Expr) : C.Governs 1 (Parser.closed input e) := by
  intro h hh
  rw [Parser.closed_apply]
  split
  · rename_i hclose
    exact C.moves_advanced hh hclose
  · rename_i hclose
    exact C.misses_noted hh hclose

include hexpression

/-- Where the call does not go on, two labels are noted at the same place. The first note is a move,
and the second one the miss. -/
theorem governs_afterFirst (name : String) (first : Expr) :
    C.Governs 1 (Parser.afterFirst input operand name first) := by
  intro h hh
  rw [Parser.afterFirst_apply]
  split
  · rename_i hcomma
    have hmoves := C.moves_advanced hh hcomma
    have hsecond := (hexpression.bind fun second ↦
      governs_closed (input.scope.exprOfCall₂ name first second)) _ (C.holds_of_moves hh hmoves)
    exact (hsecond.after hmoves).mono (by omega)
  split
  · rename_i hclose
    exact C.moves_logged _ (C.moves_advanced hh hclose)
  · rename_i hcomma hclose
    have hnoted : C.moves 0 h (h.noted .comma) := C.moves_noted hh hcomma
    exact C.misses_after hnoted (C.misses_noted (C.holds_of_moves hh hnoted) hclose)

/-- The arguments of a call are an expression and what follows it. -/
theorem governs_arguments (name : String) :
    C.Governs 1 (Parser.arguments input operand name) :=
  .mono (hexpression.bind (governs_afterFirst hexpression name)) (by omega)

/-- A call moves over its name and its parenthesis before the arguments. If it has no parenthesis,
the miss is behind the name. -/
theorem governs_call : C.Governs 1 (Parser.call input operand) := by
  intro h hh
  rw [Parser.call_apply]
  split
  · rename_i name hname
    have hmoves := C.moves_advanced hh hname
    have hh' := C.holds_of_moves hh hmoves
    split
    · rename_i hopens
      have hparen := C.moves_advanced hh' hopens.2
      have harguments := governs_arguments hexpression name _ (C.holds_of_moves hh' hparen)
      exact (harguments.after (C.moves_trans hmoves hparen)).mono (by omega)
    · rename_i hopens
      exact C.misses_after hmoves (C.misses_noted hh' (Input.lacks_openParen hname hopens))
  · rename_i hname
    exact C.misses_noted hh hname

/-- A group moves over its parenthesis before what is inside. -/
theorem governs_parenthesized : C.Governs 1 (Parser.parenthesized input operand) := by
  intro h hh
  rw [Parser.parenthesized_apply]
  split
  · rename_i hopen
    have hmoves := C.moves_advanced hh hopen
    have hinner := hexpression.bind governs_closed _ (C.holds_of_moves hh hmoves)
    exact (hinner.after hmoves).mono (by omega)
  · rename_i hopen
    exact C.misses_noted hh (.inl hopen)

omit hexpression

/-- The events of a name are logged behind the move over it. -/
theorem governs_name : C.Governs 1 (Parser.name input) := by
  intro h hh
  rw [Parser.name_apply]
  split
  · rename_i name hname
    exact C.moves_logged _ (C.moves_advanced hh hname)
  · rename_i hname
    exact C.misses_noted hh hname

theorem governs_number : C.Governs 1 (Parser.number input) := by
  intro h hh
  rw [Parser.number_apply]
  split
  · rename_i value hvalue
    exact C.moves_advanced hh hvalue
  · rename_i hvalue
    exact C.misses_noted hh hvalue

include hoperand

theorem governs_negated : C.Governs 1 (Parser.negated operand) :=
  hoperand.bind fun _ ↦ .pure _

/-- A sign moves over itself before its operand. If nothing touches it, the miss is behind it. -/
theorem governs_negation : C.Governs 1 (Parser.negation input operand) := by
  intro h hh
  rw [Parser.negation_apply]
  split
  · rename_i hminus
    have hmoves := C.moves_advanced hh hminus
    have hh' := C.holds_of_moves hh hmoves
    split
    · exact ((governs_negated hoperand _ hh').after hmoves).mono (by omega)
    · rename_i htouching
      exact C.misses_after hmoves (C.misses_noted hh' ⟨htouching, Nat.succ_pos _, hminus⟩)
  · rename_i hminus
    exact C.misses_noted hh hminus

include hexpression

/-- The body of an operand from the head that it leaves when it records where it begins. -/
theorem allows_alternatives (hh : C.holds h.entered) :
    C.Allows 1 h.entered (Parser.alternatives input operand h) := by
  have hbody := (governs_call hexpression).either <| (governs_parenthesized hexpression).either <|
    governs_name.either <| governs_number.either <| governs_negation hoperand
  rw [Parser.alternatives_apply]
  exact hbody h.entered hh

/-! ### Whole texts -/

omit hexpression hoperand in
/-- The end is missing as long as there are tokens left. -/
theorem governs_ended (root : Expr) : C.Governs 0 (Parser.ended input root) := by
  intro h hh
  rw [Parser.ended_apply]
  split
  · exact C.moves_refl hh
  · rename_i hend
    exact C.misses_noted hh (Nat.lt_of_not_le hend)

omit hoperand in
/-- A whole text consumes what its expression does. -/
theorem governs_complete : C.Governs 1 (Parser.complete input operand) :=
  hexpression.bind governs_ended

end

end Conduct

end Formulae
