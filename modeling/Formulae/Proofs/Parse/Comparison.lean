import Formulae.Proofs.Parse.Progress

/-!
# Comparing two runs

Two parsers of the same shape, run on two inputs, do the same as long as they read the same. A
`Comparison` says what "the same" is to mean: which positions the two inputs have in common, how the
records of the two runs are to be related, and which rejections correspond. From it, every parser of
the grammar on the left is simulated by the one on the right (`Simulates`).

The simulation may be **lost**, and then nothing is claimed any more: at a position that the inputs
do not have in common, or once the record on the left is `gone`. Both are final, because a parser
never moves backwards without having noted something (`Forward`). It is only the left run that has
to be known to move forward; the right one is anything that keeps step, in particular one that
shares the outcomes of operands.

A rejection that only the limit on the left causes may be `waived`. The limit on the right can then
be larger.
-/

namespace Formulae

/-- A name is represented in the same way in two scopes. -/
structure Scope.Alike (scope scope' : Scope) (name : String) : Prop where
  exprOfName : scope.exprOfName name = scope'.exprOfName name
  exprOfCall₁ : ∀ e, scope.exprOfCall₁ name e = scope'.exprOfCall₁ name e
  exprOfCall₂ : ∀ e e', scope.exprOfCall₂ name e e' = scope'.exprOfCall₂ name e e'

/-- In one scope every name is represented in one way. -/
theorem Scope.Alike.refl (scope : Scope) (name : String) : scope.Alike scope name :=
  ⟨rfl, fun _ ↦ rfl, fun _ _ ↦ rfl⟩

/-- What two runs are to have in common. -/
structure Comparison (left right : Input) where
  /-- The positions at which the inputs agree. -/
  covers : Nat → Prop
  /-- The records on the left and on the right, and the outcomes stored on the right. -/
  alike : Option Expectation → Option Expectation → Std.TreeMap Site Operand → Prop
  /-- The records on the left with which the comparison ends. -/
  gone : Option Expectation → Prop
  /-- Nothing is claimed about a text that is rejected on the left. -/
  waived : Prop
  /-- The rejections on the left and on the right that correspond. -/
  rejects : Rejection → Rejection → Prop
  /-- Positions are common up to some place. -/
  covers_of_succ : ∀ {i}, covers (i + 1) → covers i
  /-- The same tokens stand at common positions. -/
  token?_eq : ∀ {i}, covers i → left.token? i = right.token? i
  /-- The same names are called. -/
  opens_iff : ∀ {i name}, covers (i + 1) → left.token? i = some (.identifier name) →
    (left.opens (i + 1) ↔ right.opens (i + 1))
  /-- The same signs are touched by an operand. -/
  touching_eq : ∀ {i}, covers (i + 1) → left.token? i = some (.glyph .minus) →
    left.touching (i + 1) = right.touching (i + 1)
  implied_eq : left.scope.implied = right.scope.implied
  /-- The names that are read in common are represented in the same way. -/
  names_alike : ∀ {i name}, covers i → left.token? i = some (.identifier name) →
    left.scope.Alike right.scope name
  /-- Records stay related when both of them grow by a label, or the comparison ends. -/
  alike_add : ∀ {f g s i} (label), covers i → alike f g s →
    alike (Expectation.add f i label) (Expectation.add g i label) s ∨
      gone (Expectation.add f i label)
  gone_mono : ∀ {f g}, Expectation.Within f g → gone f → gone g
  /-- To fail where the inputs differ ends the comparison. -/
  gone_of_reaches : ∀ {f i}, ¬ covers i → Expectation.Reaches f i → gone f
  limit_le : left.limit ≤ right.limit
  /-- If rejections are not waived, the limits are equal and nothing is ever lost. -/
  rejects_of_not_waived : waived ∨ left.limit = right.limit ∧ (∀ f, ¬ gone f) ∧
    ∀ i, covers i ∧ rejects (.tooDeep left.limit (left.column i))
      (.tooDeep right.limit (right.column i))

namespace Comparison

variable {left right : Input} (C : Comparison left right)

/-- The two heads stand at the same place, which the inputs have in common, with related records. -/
structure InStep (h h' : Head) : Prop where
  position_eq : h'.position = h.position
  depth_eq : h'.depth = h.depth
  covers : C.covers h.position
  alike : C.alike h.furthest h'.furthest h'.operands

/-- The comparison is over for the run on the left. -/
def Lost (h : Head) : Prop :=
  ¬ C.covers h.position ∨ C.gone h.furthest

/-- The second result is the one that corresponds to the first, or the comparison is over. -/
def Agrees {α : Type} : Parser.Result α → Parser.Result α → Prop
  | .ok a h, result => C.Lost h ∨ ∃ h', result = .ok a h' ∧ C.InStep h h'
  | .error .noMatch h, result =>
    C.gone h.furthest ∨ ∃ h', result = .error .noMatch h' ∧ h'.depth = h.depth ∧
      C.alike h.furthest h'.furthest h'.operands
  | .error (.rejected r) _, result =>
    C.waived ∨ ∃ r' h', result = .error (.rejected r') h' ∧ C.rejects r r'

/-- The parser on the left moves forward, and the one on the right keeps step with it. -/
structure Simulates {α : Type} (depth stride : Nat) (p p' : Parser α) : Prop where
  forward : Parser.Forward left depth stride p
  agrees : ∀ {h h'}, h.depth = depth → C.InStep h h' → C.Agrees (p h) (p' h')

variable {C} {α β : Type} {depth stride : Nat} {h h' : Head}

/-! ### Losing step -/

/-- What the inputs have in common is a beginning. -/
theorem covers_of_le {i j : Nat} (hij : i ≤ j) (hj : C.covers j) : C.covers i := by
  induction hij with
  | refl => exact hj
  | step _ ih => exact ih (C.covers_of_succ hj)

/-- A move does not lead back to where the inputs agree. -/
theorem Lost.of_advanced {h₁ : Head} (hlost : C.Lost h) (hadv : h.Advanced left stride h₁) :
    C.Lost h₁ := by
  have hle := hadv.position_add_le
  exact hlost.imp (mt (covers_of_le (by omega))) (C.gone_mono hadv.within)

/-- A miss at a place that the inputs do not have in common is recorded, so it is the record that
tells when positions are taken back. -/
theorem Lost.gone_of_missed {h₁ : Head} (hlost : C.Lost h) (hmiss : h.Missed h₁) :
    C.gone h₁.furthest := by
  rcases hlost with hcovers | hgone
  · exact C.gone_of_reaches hcovers hmiss.reaches
  · exact C.gone_mono hmiss.within hgone

/-- Once the comparison is over, every move forward leaves it so. -/
theorem Agrees.of_lost {result result' : Parser.Result α} (hlost : C.Lost h)
    (hresult : result.Forward left stride h) : C.Agrees result result' := by
  match result, hresult with
  | .ok a h₁, hadv => exact .inl (hlost.of_advanced hadv)
  | .error .noMatch h₁, hmiss => exact .inl (hlost.gone_of_missed hmiss)
  | .error (.rejected r) h₁, _ =>
    refine C.rejects_of_not_waived.imp_right fun ⟨_, hgone, hcovers⟩ ↦ ?_
    exact (hlost.elim (absurd (hcovers _).1) (hgone _)).elim

/-! ### Moves in step -/

/-- A label is noted in both runs, unless the comparison ends with it. -/
theorem InStep.noted (hstep : C.InStep h h') (label : Label) :
    C.gone (h.noted label).furthest ∨ C.InStep (h.noted label) (h'.noted label) := by
  rcases C.alike_add label hstep.covers hstep.alike with halike | hgone
  · refine .inr ⟨hstep.position_eq, hstep.depth_eq, hstep.covers, ?_⟩
    rwa [Head.noted_furthest h', hstep.position_eq]
  · exact .inl hgone

/-- A token is consumed in both runs, unless the next place is not common any more. -/
theorem InStep.advanced (hstep : C.InStep h h') :
    ¬ C.covers h.advanced.position ∨ C.InStep h.advanced h'.advanced := by
  by_cases hcovers : C.covers h.advanced.position
  · exact .inr ⟨congrArg (· + 1) hstep.position_eq, hstep.depth_eq, hcovers, hstep.alike⟩
  · exact .inl hcovers

/-- Runs keep step whatever events they log. -/
theorem InStep.logged (hstep : C.InStep h h') (events events' : List Event) :
    C.InStep (h.logged events) (h'.logged events') :=
  ⟨hstep.1, hstep.2, hstep.3, hstep.4⟩

/-- Runs in step see the same token. -/
theorem InStep.token?_eq (hstep : C.InStep h h') :
    right.token? h'.position = left.token? h.position := by
  rw [hstep.position_eq, C.token?_eq hstep.covers]

/-- Misses with the same label agree. -/
theorem Agrees.noted (hstep : C.InStep h h') (label : Label) :
    C.Agrees (.error .noMatch (h.noted label) : Parser.Result α)
      (.error .noMatch (h'.noted label)) :=
  (hstep.noted label).imp_right fun hstep' ↦ ⟨_, rfl, hstep'.depth_eq, hstep'.alike⟩

/-- Matches that consume one token agree. -/
theorem Agrees.advanced (hstep : C.InStep h h') (a : α) :
    C.Agrees (.ok a h.advanced) (.ok a h'.advanced) :=
  hstep.advanced.imp .inl fun hstep' ↦ ⟨_, rfl, hstep'⟩

/-! ### Combinators -/

namespace Simulates

theorem pure (a : α) : C.Simulates depth 0 (pure a) (pure a) :=
  ⟨.pure a, fun _ hstep ↦ .inr ⟨_, rfl, hstep⟩⟩

/-- One parser after another is simulated as both are. Where the first one has lost step, nothing is
asked of the second one but to move forward. -/
theorem bind {p p' : Parser α} {q q' : α → Parser β} {stride' : Nat}
    (hp : C.Simulates depth stride p p') (hq : ∀ a, C.Simulates depth stride' (q a) (q' a)) :
    C.Simulates depth (stride + stride') (p >>= q) (p' >>= q') := by
  refine ⟨hp.forward.bind fun a ↦ (hq a).forward, fun {h h'} hd hstep ↦ ?_⟩
  rw [Parser.bind_apply, Parser.bind_apply]
  match p h, hp.forward h hd, hp.agrees hd hstep with
  | .ok a h₁, hadv, .inl hlost =>
    exact .of_lost hlost ((hq a).forward h₁ (hadv.depth_eq.trans hd))
  | .ok a h₁, hadv, .inr ⟨h₁', hresult, hstep₁⟩ =>
    rw [hresult]
    exact (hq a).agrees (hadv.depth_eq.trans hd) hstep₁
  | .error .noMatch h₁, _, hagrees =>
    refine hagrees.imp_right fun ⟨h₁', hresult, hrest⟩ ↦ ⟨h₁', ?_, hrest⟩
    rw [hresult]
  | .error (.rejected r) h₁, _, hagrees =>
    refine hagrees.imp_right fun ⟨r', h₁', hresult, hrest⟩ ↦ ⟨r', h₁', ?_, hrest⟩
    rw [hresult]

/-- A choice is simulated as both parsers are. -/
theorem either {p p' q q' : Parser α} (hp : C.Simulates depth stride p p')
    (hq : C.Simulates depth stride q q') :
    C.Simulates depth stride (Parser.either p q) (Parser.either p' q') := by
  refine ⟨hp.forward.either hq.forward, fun {h h'} hd hstep ↦ ?_⟩
  rw [Parser.either_apply, Parser.either_apply]
  match p h, hp.forward h hd, hp.agrees hd hstep with
  | .ok a h₁, _, hagrees =>
    refine hagrees.imp_right fun ⟨h₁', hresult, hstep₁⟩ ↦ ⟨h₁', ?_, hstep₁⟩
    rw [hresult]
  | .error .noMatch h₁, hmiss, .inl hgone =>
    have hlost : C.Lost (h₁.backTo h.position) := .inr hgone
    exact .of_lost hlost (hq.forward _ (hmiss.depth_eq.trans hd))
  | .error .noMatch h₁, hmiss, .inr ⟨h₁', hresult, hdepth, halike⟩ =>
    rw [hresult]
    -- Both positions are taken back to places that are the same.
    exact hq.agrees (hmiss.depth_eq.trans hd) ⟨hstep.position_eq, hdepth, hstep.covers, halike⟩
  | .error (.rejected r) h₁, _, hagrees =>
    refine hagrees.imp_right fun ⟨r', h₁', hresult, hrest⟩ ↦ ⟨r', h₁', ?_, hrest⟩
    rw [hresult]

/-- Only parsers within the limit on the left have to be simulated. -/
theorem oneDeeper {p p' : Parser α}
    (hp : depth < left.limit → C.Simulates (depth + 1) stride p p') :
    C.Simulates depth stride (Parser.oneDeeper left p) (Parser.oneDeeper right p') := by
  refine ⟨.oneDeeper fun hlt ↦ (hp hlt).forward, fun {h h'} hd hstep ↦ ?_⟩
  rw [Parser.oneDeeper_apply, Parser.oneDeeper_apply, hstep.depth_eq]
  by_cases hlt : h.depth < left.limit
  · have hsim := hp (hd ▸ hlt)
    have hstep' : C.InStep (h.atDepth (h.depth + 1)) (h'.atDepth (h.depth + 1)) :=
      ⟨hstep.position_eq, rfl, hstep.covers, hstep.alike⟩
    rw [if_pos hlt, if_pos (Nat.lt_of_lt_of_le hlt C.limit_le)]
    match p (h.atDepth (h.depth + 1)), hsim.agrees (congrArg (· + 1) hd) hstep' with
    | .ok a h₁, .inl hlost => exact .inl hlost
    | .ok a h₁, .inr ⟨h₁', hresult, hstep₁⟩ =>
      rw [hresult]
      exact .inr ⟨_, rfl, hstep₁.position_eq, congrArg (· - 1) hstep₁.depth_eq, hstep₁.covers,
        hstep₁.alike⟩
    | .error .noMatch h₁, .inl hgone => exact .inl hgone
    | .error .noMatch h₁, .inr ⟨h₁', hresult, hdepth, halike⟩ =>
      rw [hresult]
      exact .inr ⟨_, rfl, congrArg (· - 1) hdepth, halike⟩
    | .error (.rejected r) h₁, .inl hwaived => exact .inl hwaived
    | .error (.rejected r) h₁, .inr ⟨r', h₁', hresult, hrejects⟩ =>
      rw [hresult]
      exact .inr ⟨r', _, rfl, hrejects⟩
  · -- Both are out of levels here, unless the rejection on the left is waived.
    rw [if_neg hlt]
    refine C.rejects_of_not_waived.imp_right fun ⟨hlimit, _, hrejects⟩ ↦ ?_
    rw [if_neg (hlimit ▸ hlt), hstep.position_eq]
    exact ⟨_, _, rfl, (hrejects h.position).2⟩

end Simulates

/-! ### Chains -/

section

variable {chain : Chain} {operand operand' : Parser Expr}

/-- Both runs see the same token, and nothing else decides on an operator. -/
theorem simulates_continuation (chain : Chain) :
    C.Simulates depth 0 (Parser.continuation left chain) (Parser.continuation right chain) := by
  refine ⟨Parser.forward_continuation chain, fun {h h'} hd hstep ↦ ?_⟩
  rw [Parser.continuation_apply, Parser.continuation_apply, hstep.token?_eq]
  split
  · exact .advanced hstep _
  split
  · split
    · exact .noted hstep .operator
    · exact (hstep.noted .operator).imp .inr fun hstep' ↦ ⟨_, rfl, hstep'⟩
  · exact .noted hstep .operator

/-- A link is simulated as its operand is. -/
theorem simulates_link (chain : Chain) (hoperand : C.Simulates depth 1 operand operand') :
    C.Simulates depth 1 (Parser.link left chain operand) (Parser.link right chain operand') :=
  (simulates_continuation chain).bind fun _ ↦ hoperand.bind fun _ ↦ .pure _

/-- The inputs end together where they agree. -/
theorem size_le_iff_of_covers {i : Nat} (hcovers : C.covers i) :
    right.lexemes.size ≤ i ↔ left.lexemes.size ≤ i := by
  rw [← Input.token?_eq_none_iff, ← Input.token?_eq_none_iff, C.token?_eq hcovers]

/-- A place that the inputs have in common and that is within the one is within the other. -/
theorem le_size_of_covers {i : Nat} (hcovers : C.covers i) (hi : i ≤ left.lexemes.size) :
    i ≤ right.lexemes.size := by
  rcases i with - | i
  · exact Nat.zero_le _
  · have hiff := size_le_iff_of_covers (C.covers_of_succ hcovers)
    omega

/-- Links keep step while both sides have more trials than tokens, however many more. -/
theorem agrees_links (hlink : C.Simulates depth 1 (Parser.link left chain operand)
    (Parser.link right chain operand')) (hforward : Parser.Forward left depth 1 operand)
    {trials trials' : Nat} (found : List (Operator × Expr)) (hstep : C.InStep h h')
    (hd : h.depth = depth) (htrials : left.lexemes.size - h.position < trials)
    (htrials' : right.lexemes.size - h.position < trials') :
    C.Agrees (Parser.links left chain operand trials found h)
      (Parser.links right chain operand' trials' found h') := by
  -- the trials on the left are counted down, and a link takes one trial and one token on both sides
  induction trials generalizing trials' found h h' with
  | zero => omega
  | succ trials ih =>
    rcases trials' with - | trials'
    · omega
    rw [Parser.links_succ_apply, Parser.links_succ_apply]
    match Parser.link left chain operand h, hlink.forward h hd, hlink.agrees hd hstep with
    | .ok (op, rhs) h₁, hadv, .inl hlost =>
      have hlost' : C.Lost (h₁.logged [.link chain.tier op rhs]) := hlost
      exact .of_lost hlost' (Parser.forward_links chain hforward _ _ _ (hadv.depth_eq.trans hd))
    | .ok (op, rhs) h₁, hadv, .inr ⟨h₁', hresult, hstep₁⟩ =>
      rw [hresult]
      have hlt := hadv.position_add_le
      have hle := hadv.position_le
      have hle' := le_size_of_covers hstep₁.covers (by omega)
      refine ih _ (hstep₁.logged _ _) (hadv.depth_eq.trans hd) ?_ ?_
      · show left.lexemes.size - h₁.position < trials
        omega
      · show right.lexemes.size - h₁.position < trials'
        omega
    | .error .noMatch h₁, _, .inl hgone => exact .inl (.inr hgone)
    | .error .noMatch h₁, _, .inr ⟨h₁', hresult, hdepth, halike⟩ =>
      rw [hresult]
      exact .inr ⟨_, rfl, hstep.position_eq, hdepth, hstep.covers, halike⟩
    | .error (.rejected r) h₁, _, .inl hwaived => exact .inl hwaived
    | .error (.rejected r) h₁, _, .inr ⟨r', h₁', hresult, hrejects⟩ =>
      rw [hresult]
      exact .inr ⟨r', _, rfl, hrejects⟩

/-- The two chains may have different numbers of trials, since the inputs may differ in length. -/
theorem simulates_linked (chain : Chain) (hoperand : C.Simulates depth 1 operand operand')
    (first : Expr) :
    C.Simulates depth 0 (Parser.linked left chain operand first)
      (Parser.linked right chain operand' first) := by
  refine ⟨Parser.forward_linked chain hoperand.forward first, fun {h h'} hd hstep ↦ ?_⟩
  rw [Parser.linked_apply, Parser.linked_apply, hstep.position_eq]
  have hlinks := agrees_links (simulates_link chain hoperand) hoperand.forward []
    (hstep.logged [.firstOperand chain.tier first] [.firstOperand chain.tier first]) hd
    (Nat.lt_succ_self _) (Nat.lt_succ_self _)
  rw [Head.logged_position] at hlinks
  match Parser.links left chain operand _ _ _, hlinks with
  | .ok rest h₁, .inl hlost => exact .inl hlost
  | .ok rest h₁, .inr ⟨h₁', hresult, hstep₁⟩ =>
    rw [hresult]
    exact .inr ⟨_, rfl, hstep₁.logged _ _⟩
  | .error .noMatch h₁, .inl hgone => exact .inl hgone
  | .error .noMatch h₁, .inr ⟨h₁', hresult, hrest⟩ =>
    rw [hresult]
    exact .inr ⟨_, rfl, hrest⟩
  | .error (.rejected r) h₁, .inl hwaived => exact .inl hwaived
  | .error (.rejected r) h₁, .inr ⟨r', h₁', hresult, hrejects⟩ =>
    rw [hresult]
    exact .inr ⟨r', _, rfl, hrejects⟩

/-- A chain is simulated as its operands are. -/
theorem simulates_chained (chain : Chain) (hoperand : C.Simulates depth 1 operand operand') :
    C.Simulates depth 1 (Parser.chained left chain operand)
      (Parser.chained right chain operand') :=
  hoperand.bind (simulates_linked chain hoperand)

/-- An expression is simulated as its operands are. The chains are the same on both sides, as the
scopes agree on what is implied. -/
theorem simulates_expression (hoperand : C.Simulates depth 1 operand operand') :
    C.Simulates depth 1 (Parser.expression left operand) (Parser.expression right operand') := by
  have hchain (tier : Tier) : tier.chain right.scope = tier.chain left.scope := by
    rw [Tier.chain, Tier.chain, C.implied_eq]
  rw [Parser.expression, Parser.additive, Parser.multiplicative, Parser.exponent,
    Parser.expression, Parser.additive, Parser.multiplicative, Parser.exponent,
    hchain .additive, hchain .multiplicative, hchain .exponent]
  exact simulates_chained _ (simulates_chained _ (simulates_chained _ hoperand))

/-! ### Operands -/

theorem simulates_closed (e : Expr) :
    C.Simulates depth 1 (Parser.closed left e) (Parser.closed right e) := by
  refine ⟨Parser.forward_closed e, fun {h h'} _ hstep ↦ ?_⟩
  rw [Parser.closed_apply, Parser.closed_apply, hstep.token?_eq]
  split
  · exact .advanced hstep e
  · exact .noted hstep .closeParen

/-- The tree of a call is the same in both scopes. -/
theorem simulates_afterFirst (hoperand : C.Simulates depth 1 operand operand') {name : String}
    (hname : left.scope.Alike right.scope name) (first : Expr) :
    C.Simulates depth 1 (Parser.afterFirst left operand name first)
      (Parser.afterFirst right operand' name first) := by
  refine ⟨Parser.forward_afterFirst hoperand.forward name first, fun {h h'} hd hstep ↦ ?_⟩
  rw [Parser.afterFirst_apply, Parser.afterFirst_apply, hstep.token?_eq]
  split
  · rename_i hcomma
    have hsecond := (simulates_expression hoperand).bind fun second ↦
      simulates_closed (C := C) (left.scope.exprOfCall₂ name first second)
    simp only [← hname.exprOfCall₂]
    rcases hstep.advanced with hcovers | hstep'
    · exact .of_lost (.inl hcovers) (hsecond.forward h.advanced hd)
    · exact hsecond.agrees hd hstep'
  split
  · rw [← hname.exprOfCall₁]
    exact hstep.advanced.imp .inl fun hstep' ↦ ⟨_, rfl, hstep'.logged _ _⟩
  · rcases hstep.noted .comma with hgone | hstep'
    · exact .inl (C.gone_mono (.add _ _ _) hgone)
    · exact .noted hstep' .closeParen

theorem simulates_arguments (hoperand : C.Simulates depth 1 operand operand') {name : String}
    (hname : left.scope.Alike right.scope name) :
    C.Simulates depth 2 (Parser.arguments left operand name)
      (Parser.arguments right operand' name) :=
  (simulates_expression hoperand).bind (simulates_afterFirst hoperand hname)

/-- A call is simulated as its arguments are. The inputs need not agree on whether the name is
called if the place behind it is not common. -/
theorem simulates_call (hoperand : C.Simulates depth 1 operand operand') :
    C.Simulates depth 1 (Parser.call left operand) (Parser.call right operand') := by
  refine ⟨Parser.forward_call hoperand.forward, fun {h h'} hd hstep ↦ ?_⟩
  have hforward := Parser.forward_call hoperand.forward h hd
  rw [Parser.call_apply] at hforward ⊢
  rw [Parser.call_apply, hstep.token?_eq, hstep.position_eq]
  split
  · rename_i name hname
    have hadv : h.Advanced left 1 h.advanced := .advanced hname
    rcases hstep.advanced with hcovers | hstep'
    · -- the place behind the name is not common, so the left run has only to move forward
      have hlost : C.Lost h.advanced := .inl hcovers
      split
      · rename_i hopens
        have hargs := Parser.forward_arguments hoperand.forward name h.advanced.advanced hd
        exact .of_lost (hlost.of_advanced (.advanced hopens.2)) hargs
      · exact .inl (hlost.gone_of_missed (.noted _ .openParen))
    · have hiff := C.opens_iff hstep'.covers hname
      by_cases hopens : left.opens (h.position + 1)
      · rw [if_pos hopens, if_pos (hiff.1 hopens)]
        have hargs := simulates_arguments hoperand (C.names_alike hstep.covers hname)
        rcases hstep'.advanced with hcovers | hstep''
        · exact .of_lost (.inl hcovers) (hargs.forward h.advanced.advanced hd)
        · exact hargs.agrees hd hstep''
      · rw [if_neg hopens, if_neg (mt hiff.2 hopens)]
        exact .noted hstep' .openParen
  · exact .noted hstep .identifier

theorem simulates_parenthesized (hoperand : C.Simulates depth 1 operand operand') :
    C.Simulates depth 1 (Parser.parenthesized left operand)
      (Parser.parenthesized right operand') := by
  refine ⟨Parser.forward_parenthesized hoperand.forward, fun {h h'} hd hstep ↦ ?_⟩
  rw [Parser.parenthesized_apply, Parser.parenthesized_apply, hstep.token?_eq]
  split
  · have hinner := (simulates_expression hoperand).bind simulates_closed
    rcases hstep.advanced with hcovers | hstep'
    · exact .of_lost (.inl hcovers) (hinner.forward h.advanced hd)
    · exact hinner.agrees hd hstep'
  · exact .noted hstep .openParen

/-- The tree of a name is the same in both scopes, though its events need not be. -/
theorem simulates_name : C.Simulates depth 1 (Parser.name left) (Parser.name right) := by
  refine ⟨Parser.forward_name, fun {h h'} _ hstep ↦ ?_⟩
  rw [Parser.name_apply, Parser.name_apply, hstep.token?_eq]
  split
  · rename_i name hname
    rw [← (C.names_alike hstep.covers hname).exprOfName]
    exact hstep.advanced.imp .inl fun hstep' ↦ ⟨_, rfl, hstep'.logged _ _⟩
  · exact .noted hstep .identifier

theorem simulates_number : C.Simulates depth 1 (Parser.number left) (Parser.number right) := by
  refine ⟨Parser.forward_number, fun {h h'} _ hstep ↦ ?_⟩
  rw [Parser.number_apply, Parser.number_apply, hstep.token?_eq]
  split
  · exact .advanced hstep _
  · exact .noted hstep .number

/-- A negation is simulated as its operand is. The inputs have to agree on what touches the sign
only if the place behind it is common. -/
theorem simulates_negation (hoperand : C.Simulates depth 1 operand operand') :
    C.Simulates depth 1 (Parser.negation left operand) (Parser.negation right operand') := by
  refine ⟨Parser.forward_negation hoperand.forward, fun {h h'} hd hstep ↦ ?_⟩
  have hnegated : C.Simulates depth 1 (Parser.negated operand) (Parser.negated operand') :=
    hoperand.bind fun _ ↦ .pure _
  rw [Parser.negation_apply, Parser.negation_apply, hstep.token?_eq, hstep.position_eq]
  by_cases hminus : left.token? h.position = some (.glyph .minus)
  · rw [if_pos hminus, if_pos hminus]
    rcases hstep.advanced with hcovers | hstep'
    · have hlost : C.Lost h.advanced := .inl hcovers
      split
      · exact .of_lost hlost (hnegated.forward h.advanced hd)
      · exact .inl (hlost.gone_of_missed (.noted _ .touchingOperand))
    · rw [← C.touching_eq hstep'.covers hminus]
      split
      · exact hnegated.agrees hd hstep'
      · exact .noted hstep' .touchingOperand
  · rw [if_neg hminus, if_neg hminus]
    exact .noted hstep .minus

/-- The body of an operand is simulated as the operands below it are. -/
theorem simulates_alternatives (hoperand : C.Simulates depth 1 operand operand') :
    C.Simulates depth 1 (Parser.alternatives left operand)
      (Parser.alternatives right operand') := by
  refine ⟨Parser.forward_alternatives hoperand.forward, fun {h h'} hd hstep ↦ ?_⟩
  have hbody := (simulates_call hoperand).either <| (simulates_parenthesized hoperand).either <|
    simulates_name.either <| simulates_number.either <| simulates_negation hoperand
  have hstep' : C.InStep h.entered h'.entered := ⟨hstep.1, hstep.2, hstep.3, hstep.4⟩
  exact hbody.agrees hd hstep'

/-- Operands that share nothing keep step, each with its own number of levels left. -/
theorem simulates_operandBy_id {levels levels' : Nat} (hlimit : left.limit ≤ depth + levels)
    (hlimit' : right.limit ≤ depth + levels') :
    C.Simulates depth 1 (Parser.operandBy left id levels)
      (Parser.operandBy right id levels') := by
  have hle := C.limit_le
  induction levels generalizing depth levels' with
  | zero =>
    rcases levels' with - | levels' <;> exact .oneDeeper fun hlt ↦ absurd hlt (by omega)
  | succ levels ih =>
    rcases levels' with - | levels'
    · exact .oneDeeper fun hlt ↦ absurd hlt (by omega)
    · exact .oneDeeper fun _ ↦ simulates_alternatives (ih (by omega) (by omega))

/-- Both runs find the end, or both miss it. -/
theorem simulates_ended (root : Expr) :
    C.Simulates depth 0 (Parser.ended left root) (Parser.ended right root) := by
  refine ⟨Parser.forward_ended root, fun {h h'} _ hstep ↦ ?_⟩
  have hiff := size_le_iff_of_covers hstep.covers
  rw [Parser.ended_apply, Parser.ended_apply, hstep.position_eq]
  by_cases hend : left.lexemes.size ≤ h.position
  · rw [if_pos hend, if_pos (hiff.2 hend)]
    exact .inr ⟨_, rfl, hstep⟩
  · rw [if_neg hend, if_neg (mt hiff.1 hend)]
    exact .noted hstep .endOfInput

/-- A whole text is simulated as its operands are. -/
theorem simulates_complete (hoperand : C.Simulates depth 1 operand operand') :
    C.Simulates depth 1 (Parser.complete left operand) (Parser.complete right operand') :=
  (simulates_expression hoperand).bind simulates_ended

end

end Comparison

end Formulae
