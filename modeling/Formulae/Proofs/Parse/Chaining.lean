import Formulae.Proofs.Parse.Progress
import Mathlib.Data.List.Induction
import Mathlib.Logic.ExistsUnique

/-!
# Chains over any operand

A chain knows nothing about its operands, and it takes its operators, its direction and its implied
operator as they are given to it. What it reads depends on none of the uses that the grammar makes
of it: as many links as there are, one behind the other, and then it folds them.

A **link** is an operator with an operand behind it (`Chain.HasLink`), a **run** is a sequence of
links (`Chain.Run`), and a run is **maximal** if there is no link behind it. Links are found by
running two parsers, so there is at most one at every head; and if operands move the head forward,
a run cannot go on for ever, since an operator is continued by a token. Hence every head starts
exactly one maximal run (`Chain.existsUnique_maximalRun`), and it is the one that the loop of a
chain follows (`Parser.links_of_maximalRun`). Behind the run, a last trial fails, and the position
that it started from is restored.
-/

namespace Formulae

/-! ### Folds -/

/-- A tree is the fold of some links behind a first operand: from the left, the last operator is
applied to everything before it; from the right, the first one is applied to everything behind
it. -/
inductive Associativity.Folds : Associativity → Expr → List (Operator × Expr) → Expr → Prop where
  | single (associativity : Associativity) (first : Expr) : Folds associativity first [] first
  | left {first lhs : Expr} {links : List (Operator × Expr)} (hlhs : Folds .left first links lhs)
      (op : Operator) (rhs : Expr) : Folds .left first (links ++ [(op, rhs)]) (op.combine lhs rhs)
  | right {next rhs : Expr} {links : List (Operator × Expr)} (hrhs : Folds .right next links rhs)
      (op : Operator) (lhs : Expr) : Folds .right lhs ((op, next) :: links) (op.combine lhs rhs)

theorem folds_foldLeft (first : Expr) (links : List (Operator × Expr)) :
    Associativity.left.Folds first links (foldLeft first links) := by
  induction links using List.reverseRecOn with
  | nil => exact .single _ _
  | append_singleton links link ih =>
    rw [foldLeft, List.foldl_append]
    exact .left ih link.1 link.2

theorem folds_foldRight (first : Expr) (links : List (Operator × Expr)) :
    Associativity.right.Folds first links (foldRight first links) := by
  induction links generalizing first with
  | nil => exact .single _ _
  | cons link links ih => exact .right (ih link.2) link.1 first

theorem Associativity.folds_fold (associativity : Associativity) (first : Expr)
    (links : List (Operator × Expr)) :
    associativity.Folds first links (associativity.fold first links) := by
  cases associativity with
  | left => exact folds_foldLeft first links
  | right => exact folds_foldRight first links

/-! ### Runs -/

/-- Wherever the parser matches, it moves the head forward. -/
def Parser.Consumes {α : Type} (p : Parser α) : Prop :=
  ∀ ⦃h h' : Head⦄ ⦃a : α⦄, p h = .ok a h' → h.position < h'.position

namespace Chain

section

variable (chain : Chain) (input : Input)

/-- An operator continues the chain at the first head, and an operand can follow at the second one.
A written operator is consumed. An implied one stands in front of a token that is neither an
operator of the chain nor a `-`, and it is noted that an operator could have been written. -/
inductive ContinuesAt : Head → Operator → Head → Prop where
  | written {h : Head} {token : Token} {op : Operator}
      (htoken : input.token? h.position = some token) (hop : chain.operator? token = some op) :
      ContinuesAt h op h.advanced
  | implied {h : Head} {token : Token} {op : Operator}
      (htoken : input.token? h.position = some token) (hnone : chain.operator? token = none)
      (hminus : token ≠ .glyph .minus) (himplied : chain.implied = some op) :
      ContinuesAt h op (h.noted .operator)

variable (operand : Parser Expr)

/-- An operator continues the chain at the first head, and an operand matches behind it and leaves
the second head. -/
def HasLink (h : Head) (link : Operator × Expr) (h' : Head) : Prop :=
  ∃ h₀, chain.ContinuesAt input h link.1 h₀ ∧ operand h₀ = .ok link.2 h'

/-- Links one behind the other, each of them logged. -/
inductive Run : Head → List (Operator × Expr) → Head → Prop where
  | stop (h : Head) : Run h [] h
  | more {h h₁ h₂ : Head} {link : Operator × Expr} {links : List (Operator × Expr)}
      (hlink : chain.HasLink input operand h link h₁)
      (hlinks : Run (h₁.logged [.link chain.tier link.1 link.2]) links h₂) :
      Run h (link :: links) h₂

/-- A run with no link behind it. -/
structure MaximalRun (h : Head) (links : List (Operator × Expr)) (last : Head) : Prop where
  run : chain.Run input operand h links last
  not_hasLink : ∀ link h', ¬ chain.HasLink input operand last link h'

end

variable {chain : Chain} {input : Input} {operand : Parser Expr} {h h' h₁ : Head}
  {op : Operator} {link : Operator × Expr} {links : List (Operator × Expr)}

/-- The parser of operators finds the operator that continues the chain. -/
theorem continuation_eq_ok_iff :
    Parser.continuation input chain h = .ok op h' ↔ chain.ContinuesAt input h op h' := by
  rw [Parser.continuation_apply]
  constructor
  · intro hrun
    rcases htoken : input.token? h.position with - | token
    · -- at the end, nothing is implied either
      simp only [htoken, Option.bind_none, true_or, if_true] at hrun
      split at hrun <;> cases hrun
    · rw [htoken, Option.bind_some] at hrun
      rcases hop : chain.operator? token with - | op'
      · rw [hop] at hrun
        dsimp only at hrun
        split at hrun
        · next himplied =>
          split at hrun
          · cases hrun
          · next hgo =>
            cases hrun
            exact .implied htoken hop (fun hminus ↦ hgo (.inr (congrArg some hminus))) himplied
        · cases hrun
      · rw [hop] at hrun
        cases hrun
        exact .written htoken hop
  · rintro (⟨htoken, hop⟩ | ⟨htoken, hnone, hminus, himplied⟩)
    · simp only [htoken, Option.bind_some, hop]
    · simp [htoken, hnone, himplied, hminus]

/-- The parser of links finds the link at a head. -/
theorem link_eq_ok_iff :
    Parser.link input chain operand h = .ok link h' ↔ chain.HasLink input operand h link h' := by
  rw [Parser.link_apply]
  constructor
  · intro hrun
    rcases hop : Parser.continuation input chain h with ⟨op, h₀⟩ | ⟨stop, h₀⟩
    · rw [hop] at hrun
      dsimp only at hrun
      rcases hoperand : operand h₀ with ⟨rhs, h₁⟩ | ⟨stop, h₁⟩
      · rw [hoperand] at hrun
        cases hrun
        exact ⟨h₀, continuation_eq_ok_iff.1 hop, hoperand⟩
      · rw [hoperand] at hrun
        cases hrun
    · rw [hop] at hrun
      cases hrun
  · rintro ⟨h₀, hop, hoperand⟩
    simp only [continuation_eq_ok_iff.2 hop, hoperand]

theorem HasLink.unique {link' : Operator × Expr} (hlink : chain.HasLink input operand h link h₁)
    (hlink' : chain.HasLink input operand h link' h') : link' = link ∧ h' = h₁ := by
  rw [← link_eq_ok_iff] at hlink hlink'
  cases hlink.symm.trans hlink'
  exact ⟨rfl, rfl⟩

theorem MaximalRun.unique {links' : List (Operator × Expr)} {last last' : Head}
    (hrun : chain.MaximalRun input operand h links last)
    (hrun' : chain.MaximalRun input operand h links' last') : links' = links ∧ last' = last := by
  obtain ⟨hrun, hlast⟩ := hrun
  obtain ⟨hrun', hlast'⟩ := hrun'
  induction hrun generalizing links' with
  | stop h =>
    cases hrun' with
    | stop => exact ⟨rfl, rfl⟩
    | more hlink _ => exact absurd hlink (hlast _ _)
  | more hlink _ ih =>
    cases hrun' with
    | stop => exact absurd hlink (hlast' _ _)
    | more hlink' hlinks' =>
      obtain ⟨rfl, rfl⟩ := hlink.unique hlink'
      obtain ⟨rfl, rfl⟩ := ih hlast hlinks'
      exact ⟨rfl, rfl⟩

/-! ### Runs over operands that move forward -/

/-- Where an operator continues a chain, there is a token, and the head has not moved back. -/
theorem ContinuesAt.lt_size (hop : chain.ContinuesAt input h op h₁) :
    h.position < input.lexemes.size ∧ h.position ≤ h₁.position := by
  rcases hop with ⟨htoken, -⟩ | ⟨htoken, -, -, -⟩
  · exact ⟨Input.lt_size_of_token? htoken, Nat.le_succ _⟩
  · exact ⟨Input.lt_size_of_token? htoken, Nat.le_refl _⟩

variable (hconsumes : operand.Consumes)

include hconsumes

theorem HasLink.lt_size (hlink : chain.HasLink input operand h link h₁) :
    h.position < input.lexemes.size ∧ h.position < h₁.position := by
  obtain ⟨h₀, hop, hoperand⟩ := hlink
  obtain ⟨hlt, hle⟩ := hop.lt_size
  exact ⟨hlt, Nat.lt_of_le_of_lt hle (hconsumes hoperand)⟩

/-- Every head starts a maximal run: each link takes the head closer to the end. -/
theorem exists_maximalRun (chain : Chain) (input : Input) (h : Head) :
    ∃ links last, chain.MaximalRun input operand h links last := by
  induction hleft : input.lexemes.size - h.position using Nat.strongRecOn generalizing h with
  | ind left ih =>
    by_cases hlink : ∃ link h₁, chain.HasLink input operand h link h₁
    · obtain ⟨link, h₁, hlink⟩ := hlink
      obtain ⟨hlt, hlt₁⟩ := hlink.lt_size hconsumes
      obtain ⟨links, last, hrun, hlast⟩ := ih (input.lexemes.size - h₁.position) (by omega)
        (h₁.logged [.link chain.tier link.1 link.2]) rfl
      exact ⟨link :: links, last, .more hlink hrun, hlast⟩
    · exact ⟨[], h, .stop h, fun link h₁ hlink' ↦ hlink ⟨link, h₁, hlink'⟩⟩

/-- **Every head starts exactly one maximal run.** -/
theorem existsUnique_maximalRun (chain : Chain) (input : Input) (h : Head) :
    ∃! run : List (Operator × Expr) × Head, chain.MaximalRun input operand h run.1 run.2 := by
  obtain ⟨links, last, hrun⟩ := exists_maximalRun hconsumes chain input h
  refine ⟨(links, last), hrun, fun run hrun' ↦ ?_⟩
  obtain ⟨hlinks, hlast⟩ := hrun.unique hrun'
  exact Prod.ext hlinks hlast

end Chain

/-! ### The loop of a chain -/

namespace Parser

variable {chain : Chain} {input : Input} {operand : Parser Expr} {h h' h₁ : Head} {first : Expr}
  {links : List (Operator × Expr)} {last : Head}
  (hconsumes : operand.Consumes)

include hconsumes

/-- With more trials than tokens left, the loop of a chain follows the maximal run and ends with the
trial behind it. -/
theorem links_of_maximalRun (hrun : chain.MaximalRun input operand h links last) {trials : Nat}
    (htrials : input.lexemes.size - h.position < trials) (found : List (Operator × Expr)) :
    Parser.links input chain operand trials found h =
      match link input chain operand last with
      | .ok _ h' => .ok (found.reverse ++ links) h'
      | .error .noMatch h' => .ok (found.reverse ++ links) (h'.backTo last.position)
      | .error (.rejected r) h' => .error (.rejected r) h' := by
  obtain ⟨hrun, hlast⟩ := hrun
  induction hrun generalizing trials found with
  | stop h =>
    obtain ⟨trials, rfl⟩ := Nat.exists_eq_succ_of_ne_zero (Nat.ne_of_gt (Nat.zero_lt_of_lt htrials))
    rw [links_succ_apply, List.append_nil]
    rcases hlink : link input chain operand h with ⟨l, h'⟩ | ⟨- | r, h'⟩
    · exact absurd (Chain.link_eq_ok_iff.1 hlink) (hlast _ _)
    · rfl
    · rfl
  | @more h h₁ h₂ l links hlink _ ih =>
    obtain ⟨trials, rfl⟩ := Nat.exists_eq_succ_of_ne_zero (Nat.ne_of_gt (Nat.zero_lt_of_lt htrials))
    obtain ⟨hlt, hlt₁⟩ := hlink.lt_size hconsumes
    have hleft : input.lexemes.size - h₁.position < trials := by omega
    rw [links_succ_apply, Chain.link_eq_ok_iff.2 hlink]
    dsimp only
    rw [ih hleft ((l.1, l.2) :: found) hlast, List.reverse_cons, List.append_assoc]
    rfl

/-- A chain behind its first operand follows the maximal run from there. -/
theorem linked_of_maximalRun
    (hrun : chain.MaximalRun input operand (h.logged [.firstOperand chain.tier first]) links last) :
    linked input chain operand first h =
      match link input chain operand last with
      | .ok _ h' => .ok (chain.associativity.fold first links)
          (h'.logged [.folded chain.tier (chain.associativity.fold first links)])
      | .error .noMatch h' => .ok (chain.associativity.fold first links)
          ((h'.backTo last.position).logged
            [.folded chain.tier (chain.associativity.fold first links)])
      | .error (.rejected r) h' => .error (.rejected r) h' := by
  have htrials : input.lexemes.size - (h.logged [.firstOperand chain.tier first]).position <
      input.lexemes.size - h.position + 1 := Nat.lt_succ_self _
  rw [linked_apply, links_of_maximalRun hconsumes hrun htrials]
  rcases link input chain operand last with ⟨l, h'⟩ | ⟨- | r, h'⟩ <;> rfl

/-- **A chain is the fold of its longest run, whatever its operators and operands are.** If operands
move the head forward and the first one matches, there is exactly one maximal run of links behind
it. Unless the text is rejected outright, the chain yields the fold of this run in its direction,
and the head stands where the last operand of the run ends: an operator behind which no operand
matches is not consumed. -/
theorem chained_eq_fold_of_maximalRun (hfirst : operand h = .ok first h₁)
    (hsettled : ∀ r h', chained input chain operand h ≠ .error (.rejected r) h') :
    (∃! run : List (Operator × Expr) × Head,
      chain.MaximalRun input operand (h₁.logged [.firstOperand chain.tier first]) run.1 run.2) ∧
    ∀ links last,
      chain.MaximalRun input operand (h₁.logged [.firstOperand chain.tier first]) links last →
        ∃ tree h', chain.associativity.Folds first links tree ∧
          chained input chain operand h = .ok tree h' ∧ h'.position = last.position := by
  refine ⟨Chain.existsUnique_maximalRun hconsumes chain input _, fun links last hrun ↦ ?_⟩
  have hchained : chained input chain operand h = linked input chain operand first h₁ := by
    rw [chained_eq, bind_apply, hfirst]
  rw [hchained, linked_of_maximalRun hconsumes hrun] at hsettled ⊢
  rcases hlast : link input chain operand last with ⟨l, h'⟩ | ⟨- | r, h'⟩
  · exact absurd (Chain.link_eq_ok_iff.1 hlast) (hrun.not_hasLink _ _)
  · exact ⟨_, _, chain.associativity.folds_fold first links, rfl, rfl⟩
  · rw [hlast] at hsettled
    exact absurd rfl (hsettled r h')

omit hconsumes in
/-- A name is read by moving behind it. -/
theorem consumes_name (input : Input) : (name input).Consumes := by
  intro h h' e hrun
  have hforward : Forward input h.depth 1 (name input) := forward_name
  exact (hforward.advanced rfl hrun).position_add_le

omit hconsumes in
/-- The factors of `x y * z *`, the first two with no operator between them, folded from the right:
the operator at the end has no operand and is left where it is. -/
theorem chained_eq_fold_names :
    let input : Input :=
      { lexemes := #[⟨.identifier "x", "x", ⟨0, 1⟩⟩, ⟨.identifier "y", "y", ⟨2, 3⟩⟩,
          ⟨.glyph .star, "*", ⟨4, 5⟩⟩, ⟨.identifier "z", "z", ⟨6, 7⟩⟩, ⟨.glyph .star, "*", ⟨8, 9⟩⟩]
        length := 9
        scope := {}
        limit := 0 }
    let chain : Chain := ⟨.multiplicative, Tier.multiplicative.operator?, .right, some .mul⟩
    (name input).Consumes ∧ (∃ h₁, name input {} = .ok (.var "x") h₁) ∧
      (∀ r h', chained input chain (name input) {} ≠ .error (.rejected r) h') ∧
      ∃ tree h', Associativity.right.Folds (.var "x") [(.mul, .var "y"), (.mul, .var "z")] tree ∧
        chained input chain (name input) {} = .ok tree h' ∧ h'.position = 4 := by
  intro input chain
  have hsettled : ∀ r h', chained input chain (name input) {} ≠ .error (.rejected r) h' := nofun
  let h₁ : Head := { position := 1 }
  have hfirst : name input {} = .ok (.var "x") h₁ := rfl
  have hrun : ∃ last, last.position = 4 ∧ chain.MaximalRun input (name input)
      (h₁.logged [.firstOperand .multiplicative (.var "x")])
      [(.mul, .var "y"), (.mul, .var "z")] last := by
    refine ⟨_, ?_, .more ⟨_, .implied rfl rfl nofun rfl, rfl⟩
      (.more ⟨_, .written rfl rfl, rfl⟩ (.stop _)), ?_⟩
    · rfl
    · rintro link h' ⟨h₀, hop, hoperand⟩
      cases hop with
      | written => cases hoperand
      | implied htoken hnone => cases htoken; cases hnone
  obtain ⟨last, hlast, hrun⟩ := hrun
  obtain ⟨tree, h', hfolds, hchained, hposition⟩ :=
    (chained_eq_fold_of_maximalRun (consumes_name input) hfirst hsettled).2 _ _ hrun
  exact ⟨consumes_name input, ⟨_, hfirst⟩, hsettled, tree, h', hfolds, hchained,
    hposition.trans hlast⟩

end Parser

end Formulae
