import Formulae.Proofs.Parse.Conduct

/-!
# Progress

What every parser of the grammar does to the head, whatever the tokens are. A parser that matches
never moves backwards and keeps the depth. One that does not match keeps the depth too — its
position is taken back by whoever tries something else — and has noted something at its starting
place or beyond. What was expected so far is never forgotten by either.

That is one statement with a number in it, `Forward input stride`, where the stride is the least
number of tokens that a match consumes. Operands have stride one, and so have chains of them; this
is what makes the bound on the trials of `links` harmless. On one level it is a `Conduct`, so that
only what an operand does on its way down a level is left to show.

Nothing is said about a rejected text, since nobody looks at its head.
-/

namespace Formulae

/-! ### Records of what was expected -/

namespace Expectation

/-- Whatever the first record mentions is mentioned by the second one. -/
def Within : Option Expectation → Option Expectation → Prop
  | none, _ => True
  | some _, none => False
  | some e, some e' =>
    e.position < e'.position ∨ e.position = e'.position ∧ e.labels ⊆ e'.labels

/-- The label was expected at the position, or something was expected beyond it. -/
def Mentions (furthest : Option Expectation) (i : Nat) (label : Label) : Prop :=
  ∃ e, furthest = some e ∧ (i < e.position ∨ i = e.position ∧ label ∈ e.labels)

/-- Something was expected at the position or beyond. -/
def Reaches (furthest : Option Expectation) (i : Nat) : Prop :=
  ∃ e, furthest = some e ∧ i ≤ e.position

theorem Within.refl (furthest : Option Expectation) : Within furthest furthest := by
  rcases furthest with - | e
  · trivial
  · exact .inr ⟨rfl, List.Subset.refl _⟩

/-- Positions only grow, and at one position labels are only added. -/
theorem Within.trans {f g k : Option Expectation} (h₁ : Within f g) (h₂ : Within g k) :
    Within f k := by
  rcases f with - | e
  · trivial
  rcases g with - | e'
  · exact h₁.elim
  rcases k with - | e''
  · exact h₂.elim
  rcases h₁ with h₁ | ⟨h₁, hsub₁⟩ <;> rcases h₂ with h₂ | ⟨h₂, hsub₂⟩
  · exact .inl (Nat.lt_trans h₁ h₂)
  · exact .inl (h₂ ▸ h₁)
  · exact .inl (h₁ ▸ h₂)
  · exact .inr ⟨h₁.trans h₂, List.Subset.trans hsub₁ hsub₂⟩

/-- A note replaces labels only by others further on. -/
theorem Within.add (furthest : Option Expectation) (i : Nat) (label : Label) :
    Within furthest (add furthest i label) := by
  rcases furthest with - | e
  · trivial
  unfold Expectation.add
  dsimp only
  split
  · exact .refl _
  split
  · exact .inl ‹_›
  split
  · exact .refl _
  · refine .inr ⟨?_, List.subset_append_left _ _⟩
    show e.position = i
    omega

/-- A label that was just noted is mentioned. -/
theorem Mentions.add (furthest : Option Expectation) (i : Nat) (label : Label) :
    Mentions (add furthest i label) i label := by
  rcases furthest with - | e
  · exact ⟨_, rfl, .inr ⟨rfl, List.mem_singleton_self _⟩⟩
  unfold Expectation.add
  dsimp only
  split
  · exact ⟨_, rfl, .inl ‹_›⟩
  split
  · exact ⟨_, rfl, .inr ⟨rfl, List.mem_singleton_self _⟩⟩
  split
  · exact ⟨_, rfl, .inr ⟨by omega, ‹_›⟩⟩
  · exact ⟨_, rfl, .inr ⟨rfl, List.mem_append_right _ (List.mem_singleton_self _)⟩⟩

/-- A label that is mentioned can be noted again to no effect. -/
theorem Mentions.add_eq {f : Option Expectation} {i : Nat} {label : Label}
    (h : Mentions f i label) : Expectation.add f i label = f := by
  obtain ⟨e, rfl, hlt | ⟨rfl, hmem⟩⟩ := h
  · simp only [Expectation.add, if_pos hlt]
  · simp only [Expectation.add, if_neg (Nat.lt_irrefl _), if_pos hmem]

/-- What was mentioned stays mentioned. -/
theorem Mentions.mono {f g : Option Expectation} {i : Nat} {label : Label}
    (h : Mentions f i label) (hw : Within f g) : Mentions g i label := by
  obtain ⟨e, rfl, he⟩ := h
  rcases g with - | e'
  · exact hw.elim
  refine ⟨e', rfl, ?_⟩
  rcases hw with hw | ⟨hw, hsub⟩
  · exact .inl (by omega)
  · exact he.imp (fun h ↦ by omega) fun ⟨h, hmem⟩ ↦ ⟨h.trans hw, hsub hmem⟩

/-- What is mentioned at a position was expected there or beyond. -/
theorem Mentions.reaches {f : Option Expectation} {i : Nat} {label : Label}
    (h : Mentions f i label) : Reaches f i := by
  obtain ⟨e, he, hi⟩ := h
  exact ⟨e, he, by omega⟩

/-- A record that reaches a position keeps reaching it. -/
theorem Reaches.mono {f g : Option Expectation} {i : Nat} (h : Reaches f i) (hw : Within f g) :
    Reaches g i := by
  obtain ⟨e, rfl, hi⟩ := h
  rcases g with - | e'
  · exact hw.elim
  refine ⟨e', rfl, ?_⟩
  rcases hw with hw | ⟨hw, -⟩ <;> omega

theorem Reaches.of_le {f : Option Expectation} {i j : Nat} (h : Reaches f j) (hij : i ≤ j) :
    Reaches f i := by
  obtain ⟨e, he, hj⟩ := h
  exact ⟨e, he, Nat.le_trans hij hj⟩

end Expectation

/-! ### Moves -/

/-- The second head is at least the given number of tokens further, on the same level. -/
structure Head.Advanced (input : Input) (stride : Nat) (h h' : Head) : Prop where
  /-- At least as many tokens are consumed. -/
  position_add_le : h.position + stride ≤ h'.position
  /-- Nothing is consumed behind the end. -/
  position_le : h'.position ≤ max h.position input.lexemes.size
  depth_eq : h'.depth = h.depth
  /-- Nothing that was expected is forgotten. -/
  within : Expectation.Within h.furthest h'.furthest

/-- The second head is on the same level, and something was expected where the first one stands, or
further on. -/
structure Head.Missed (h h' : Head) : Prop where
  depth_eq : h'.depth = h.depth
  within : Expectation.Within h.furthest h'.furthest
  /-- The failure has left a trace that tells where it was. -/
  reaches : Expectation.Reaches h'.furthest h.position

namespace Head

variable {input : Input} {stride stride' : Nat} {h h₁ h₂ : Head} {label : Label}

/-- To stay is to advance by nothing. -/
theorem Advanced.refl (h : Head) : Advanced input 0 h h :=
  ⟨Nat.le_refl _, Nat.le_max_left _ _, rfl, .refl _⟩

/-- Strides add up. -/
theorem Advanced.trans (h₁₂ : Advanced input stride h h₁) (h₂₃ : Advanced input stride' h₁ h₂) :
    Advanced input (stride + stride') h h₂ where
  position_add_le := by
    have := h₁₂.position_add_le
    have := h₂₃.position_add_le
    omega
  position_le := by
    have := h₁₂.position_le
    have := h₂₃.position_le
    omega
  depth_eq := h₂₃.depth_eq.trans h₁₂.depth_eq
  within := h₁₂.within.trans h₂₃.within

theorem Advanced.mono (hadv : Advanced input stride h h₁) (hle : stride' ≤ stride) :
    Advanced input stride' h h₁ :=
  { hadv with position_add_le := Nat.le_trans (by omega) hadv.position_add_le }

/-- Events do not move the head. -/
theorem Advanced.logged (hadv : Advanced input stride h h₁) (events : List Event) :
    Advanced input stride h (h₁.logged events) :=
  ⟨hadv.1, hadv.2, hadv.3, hadv.4⟩

/-- Labels do not move the head, and none of them is forgotten for a new one at the same place. -/
theorem Advanced.noted (hadv : Advanced input stride h h₁) (label : Label) :
    Advanced input stride h (h₁.noted label) :=
  ⟨hadv.1, hadv.2, hadv.3, hadv.4.trans (.add _ _ _)⟩

/-- A token that is there can be consumed. -/
theorem Advanced.advanced {token : Token} (htoken : input.token? h.position = some token) :
    Advanced input 1 h h.advanced where
  position_add_le := Nat.le_refl _
  position_le := by
    have hlt := Input.lt_size_of_token? htoken
    rw [advanced_position]
    omega
  depth_eq := rfl
  within := .refl _

/-- A note at the head is what a miss leaves behind. -/
theorem Missed.noted (h : Head) (label : Label) : Missed h (h.noted label) :=
  ⟨rfl, .add _ _ _, (Expectation.Mentions.add _ _ _).reaches⟩

/-- What was expected behind a move was expected where the move began, or beyond. -/
theorem Missed.after (hadv : Advanced input stride h h₁) (hmiss : Missed h₁ h₂) : Missed h h₂ where
  depth_eq := hmiss.depth_eq.trans hadv.depth_eq
  within := hadv.within.trans hmiss.within
  reaches := hmiss.reaches.of_le (Nat.le_trans (by omega) hadv.position_add_le)

/-- A miss keeps the depth, so with its position taken back it has not moved at all. -/
theorem Advanced.backTo (hmiss : Missed h h₁) : Advanced input 0 h (h₁.backTo h.position) :=
  ⟨Nat.le_refl _, Nat.le_max_left _ _, hmiss.depth_eq, hmiss.within⟩

/-- Recording where an operand begins is no move. -/
theorem Advanced.of_entered (hadv : Advanced input stride h.entered h₁) :
    Advanced input stride h h₁ :=
  ⟨hadv.1, hadv.2, hadv.3, hadv.4⟩

theorem Missed.of_entered (hmiss : Missed h.entered h₁) : Missed h h₁ :=
  ⟨hmiss.1, hmiss.2, hmiss.3⟩

/-- A move on the level below, back on the level where it was asked for. -/
theorem Advanced.surfaced (hadv : Advanced input stride (h.atDepth (h.depth + 1)) h₁) :
    Advanced input stride h (h₁.atDepth (h₁.depth - 1)) where
  position_add_le := hadv.position_add_le
  position_le := hadv.position_le
  depth_eq := congrArg (· - 1) hadv.depth_eq
  within := hadv.within

/-- A miss on the level below, back on the level where it was asked for. -/
theorem Missed.surfaced (hmiss : Missed (h.atDepth (h.depth + 1)) h₁) :
    Missed h (h₁.atDepth (h₁.depth - 1)) where
  depth_eq := congrArg (· - 1) hmiss.depth_eq
  within := hmiss.within
  reaches := hmiss.reaches

end Head

/-- A result that is a move forward by at least the stride, or a miss. -/
def Parser.Result.Forward {α : Type} (input : Input) (stride : Nat) (h : Head) :
    Parser.Result α → Prop
  | .ok _ h' => h.Advanced input stride h'
  | .error .noMatch h' => h.Missed h'
  | .error (.rejected _) _ => True

/-- The moves forward from the heads of one level. -/
def Conduct.forward (input : Input) (depth : Nat) : Conduct input where
  holds h := h.depth = depth
  moves stride h h' := h.Advanced input stride h'
  misses h h' := h.Missed h'
  stops _ _ := True
  moves_refl {h} _ := .refl h
  moves_trans hadv hadv' := hadv.trans hadv'
  moves_mono hadv hle := hadv.mono hle
  holds_of_moves hd hadv := hadv.depth_eq.trans hd
  misses_after hadv hmiss := .after hadv hmiss
  stops_after _ _ := trivial
  moves_logged events hadv := hadv.logged events
  moves_advanced _ htoken := .advanced htoken
  moves_noted {h label} _ _ := (Head.Advanced.refl h).noted label
  misses_noted {h label} _ _ := .noted h label
  moves_backTo _ hmiss := .backTo hmiss

/-- Progress does not depend on what is noted. -/
theorem Conduct.lenient_forward (input : Input) (depth : Nat) :
    (Conduct.forward input depth).Lenient where
  moves_operator {h} _ := (Head.Advanced.refl h).noted .operator
  misses_operator {h} _ := .noted h .operator

namespace Parser

variable {α β : Type} (input : Input)

/-- A parser all whose results on a level are moves forward. -/
def Forward (depth stride : Nat) (p : Parser α) : Prop :=
  ∀ h, h.depth = depth → Result.Forward input stride h (p h)

variable {input} {depth stride : Nat} {operand : Parser Expr} {h : Head}

/-- A result moves forward if the conduct of its level allows it. -/
theorem Result.forward_iff {result : Result α} :
    result.Forward input stride h ↔ (Conduct.forward input depth).Allows stride h result := by
  rcases result with ⟨a, h'⟩ | ⟨_ | r, h'⟩ <;> exact Iff.rfl

/-- Moving forward is a conduct, so its laws need not be proved again. -/
theorem forward_iff {p : Parser α} :
    Forward input depth stride p ↔ (Conduct.forward input depth).Governs stride p :=
  forall₂_congr fun _ _ ↦ Result.forward_iff

/-- The head behind a match. -/
theorem Forward.advanced {p : Parser α} {a : α} {h' : Head} (hp : Forward input depth stride p)
    (hdepth : h.depth = depth) (hrun : p h = .ok a h') : h.Advanced input stride h' := by
  have hforward := hp h hdepth
  rwa [hrun] at hforward

/-- The head behind a miss. -/
theorem Forward.missed {p : Parser α} {h' : Head} (hp : Forward input depth stride p)
    (hdepth : h.depth = depth) (hrun : p h = .error .noMatch h') : h.Missed h' := by
  have hforward := hp h hdepth
  rwa [hrun] at hforward

/-! ### Combinators -/

theorem Forward.pure (a : α) : Forward input depth 0 (pure a) :=
  forward_iff.2 (.pure a)

/-- Strides of parsers add up, too. -/
theorem Forward.bind {p : Parser α} {q : α → Parser β} {stride' : Nat}
    (hp : Forward input depth stride p) (hq : ∀ a, Forward input depth stride' (q a)) :
    Forward input depth (stride + stride') (p >>= q) :=
  forward_iff.2 ((forward_iff.1 hp).bind fun a ↦ forward_iff.1 (hq a))

/-- Either of two parsers has the stride that both of them have. -/
theorem Forward.either {p q : Parser α} (hp : Forward input depth stride p)
    (hq : Forward input depth stride q) : Forward input depth stride (either p q) :=
  forward_iff.2 ((forward_iff.1 hp).either (forward_iff.1 hq))

/-- The parser on the level below has to move forward only if that level is within the limit. -/
theorem Forward.oneDeeper {p : Parser α}
    (hp : depth < input.limit → Forward input (depth + 1) stride p) :
    Forward input depth stride (oneDeeper input p) := by
  intro h hd
  rw [oneDeeper_apply]
  split
  · rename_i hlt
    have hinner := hp (hd ▸ hlt) (h.atDepth (h.depth + 1)) (congrArg (· + 1) hd)
    match p (h.atDepth (h.depth + 1)), hinner with
    | .ok a h₁, hadv => exact Head.Advanced.surfaced hadv
    | .error .noMatch h₁, hmiss => exact Head.Missed.surfaced hmiss
    | .error (.rejected r) h₁, _ => trivial
  · trivial

/-! ### Chains -/

/-- An implied operator is found without a step forward. -/
theorem forward_continuation (chain : Chain) :
    Forward input depth 0 (continuation input chain) :=
  forward_iff.2 (Conduct.governs_continuation (Conduct.lenient_forward _ _) chain)

/-- A link moves forward even so, by its operand. -/
theorem forward_link (chain : Chain) (hoperand : Forward input depth 1 operand) :
    Forward input depth 1 (link input chain operand) :=
  forward_iff.2 (Conduct.governs_link (Conduct.lenient_forward _ _) chain (forward_iff.1 hoperand))

/-- Any number of trials may find no link at all. -/
theorem forward_links (chain : Chain) (hoperand : Forward input depth 1 operand) (trials : Nat)
    (found : List (Operator × Expr)) :
    Forward input depth 0 (links input chain operand trials found) :=
  forward_iff.2 (Conduct.governs_links (Conduct.lenient_forward _ _) chain
    (forward_iff.1 hoperand) trials found)

theorem forward_linked (chain : Chain) (hoperand : Forward input depth 1 operand) (first : Expr) :
    Forward input depth 0 (linked input chain operand first) :=
  forward_iff.2 (Conduct.governs_linked (Conduct.lenient_forward _ _) chain
    (forward_iff.1 hoperand) first)

/-- A chain moves forward by its first operand. -/
theorem forward_chained (chain : Chain) (hoperand : Forward input depth 1 operand) :
    Forward input depth 1 (chained input chain operand) :=
  forward_iff.2 (Conduct.governs_chained (Conduct.lenient_forward _ _) chain
    (forward_iff.1 hoperand))

/-- An expression moves forward as its operands do. -/
theorem forward_expression (hoperand : Forward input depth 1 operand) :
    Forward input depth 1 (expression input operand) :=
  forward_iff.2 (Conduct.governs_expression (Conduct.lenient_forward _ _) (forward_iff.1 hoperand))

/-! ### Operands -/

theorem forward_closed (e : Expr) : Forward input depth 1 (closed input e) :=
  forward_iff.2 (Conduct.governs_closed e)

theorem forward_afterFirst (hoperand : Forward input depth 1 operand) (name : String)
    (first : Expr) : Forward input depth 1 (afterFirst input operand name first) :=
  forward_iff.2 (Conduct.governs_afterFirst (forward_iff.1 (forward_expression hoperand)) name
    first)

/-- The arguments of a call move forward, behind a parenthesis that is consumed already. -/
theorem forward_arguments (hoperand : Forward input depth 1 operand) (name : String) :
    Forward input depth 1 (arguments input operand name) :=
  forward_iff.2 (Conduct.governs_arguments (forward_iff.1 (forward_expression hoperand)) name)

theorem forward_call (hoperand : Forward input depth 1 operand) :
    Forward input depth 1 (call input operand) :=
  forward_iff.2 (Conduct.governs_call (forward_iff.1 (forward_expression hoperand)))

theorem forward_parenthesized (hoperand : Forward input depth 1 operand) :
    Forward input depth 1 (parenthesized input operand) :=
  forward_iff.2 (Conduct.governs_parenthesized (forward_iff.1 (forward_expression hoperand)))

theorem forward_name : Forward input depth 1 (name input) :=
  forward_iff.2 Conduct.governs_name

theorem forward_number : Forward input depth 1 (number input) :=
  forward_iff.2 Conduct.governs_number

theorem forward_negation (hoperand : Forward input depth 1 operand) :
    Forward input depth 1 (negation input operand) :=
  forward_iff.2 (Conduct.governs_negation (forward_iff.1 hoperand))

/-- The body of an operand moves forward as the operands below it do. -/
theorem forward_alternatives (hoperand : Forward input depth 1 operand) :
    Forward input depth 1 (alternatives input operand) := by
  intro h hd
  have hbody := Conduct.allows_alternatives (forward_iff.1 (forward_expression hoperand))
    (forward_iff.1 hoperand) (h := h) hd
  match alternatives input operand h, hbody with
  | .ok e h₁, hadv => exact Head.Advanced.of_entered hadv
  | .error .noMatch h₁, hmiss => exact Head.Missed.of_entered hmiss
  | .error (.rejected r) h₁, _ => trivial

/-- **An operand that shares nothing moves forward** wherever the levels that are left reach the
limit. With fewer levels it could fail without saying why. -/
theorem forward_operandBy_id {levels : Nat} (hlimit : input.limit ≤ depth + levels) :
    Forward input depth 1 (operandBy input id levels) := by
  induction levels generalizing depth with
  | zero =>
    intro h hd
    rw [operandBy_zero_apply]
    -- the limit is reached, and the text is rejected before the operand fails without a note
    exact Forward.oneDeeper (fun hlt ↦ absurd hlt (by omega)) h hd
  | succ levels ih =>
    intro h hd
    rw [operandBy_succ_apply]
    exact Forward.oneDeeper (fun _ ↦ forward_alternatives (ih (by omega))) h hd

theorem forward_ended (root : Expr) : Forward input depth 0 (ended input root) :=
  forward_iff.2 (Conduct.governs_ended root)

/-- A whole text moves forward as its operands do. -/
theorem forward_complete (hoperand : Forward input depth 1 operand) :
    Forward input depth 1 (complete input operand) :=
  forward_iff.2 (Conduct.governs_complete (forward_iff.1 (forward_expression hoperand)))

end Parser

end Formulae
