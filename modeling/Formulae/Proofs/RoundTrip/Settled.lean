import Formulae.Proofs.Names.Scaling
import Formulae.Proofs.RoundTrip.Rendering

/-!
# Settled trees

A tree is **settled** in a scope if resolving its names there once more changes nothing: a name that
is open means nothing, and a call is bound to what its name means. Parsed trees are settled in the
scope of their parse (`Phrase.settled_expr`). They are folded as well, so computing once more
changes nothing either.

The names of a settled tree come from a text. A whole name was scanned as a token, and so it can be
written as one. The function of a split call has only a part of such a name, and an end of a name
may begin with a digit or a point, as no token does that is a name.
-/

namespace Formulae

/-! ### Names of a derivation -/

/-- The name of a symbol is a token of the row. -/
def Symbol.WrittenIn (s : Symbol) (row : List Piece) : Prop :=
  ∃ i, tokenAt? row i = some (.identifier s.name)

/-- The symbols that a nonterminal carries along. -/
def Nonterminal.symbols : Nonterminal → List Symbol
  | rest _ lhs => lhs.symbols
  | _ => []

theorem Tier.symbols_inner (tier : Tier) : tier.inner.symbols = [] := by
  cases tier <;> rfl

/-- Every symbol of a phrase is written in the row. -/
theorem Derives.writtenIn {row : List Piece} {implied : Bool} {n : Nonterminal} {i j : Nat}
    {phrase : Phrase} (h : Derives row implied n i j phrase)
    (hn : ∀ s ∈ n.symbols, s.WrittenIn row) : ∀ s ∈ phrase.symbols, s.WrittenIn row := by
  induction h with
  | number => exact nofun
  | name htoken => exact List.forall_mem_singleton.2 ⟨_, htoken⟩
  | call₁ htoken _ _ _ ih => exact List.forall_mem_cons.2 ⟨⟨_, htoken⟩, ih nofun⟩
  | call₂ htoken _ _ _ _ _ ih₁ ih₂ =>
    exact List.forall_mem_cons.2 ⟨⟨_, htoken⟩, List.forall_mem_append.2 ⟨ih₁ nofun, ih₂ nofun⟩⟩
  | parens _ _ _ ih => exact ih nofun
  | negative _ _ _ ih => exact ih nofun
  | @chain tier _ _ _ _ _ _ _ ih₁ ih₂ => exact ih₂ (ih₁ (tier.symbols_inner ▸ nofun))
  | stop => exact hn
  | @left tier _ _ _ _ _ _ _ _ _ _ _ _ ih₁ ih₂ =>
    exact ih₂ (List.forall_mem_append.2 ⟨hn, ih₁ (tier.symbols_inner ▸ nofun)⟩)
  | @right tier _ _ _ _ _ _ _ _ _ _ _ _ ih₁ ih₂ =>
    exact List.forall_mem_append.2 ⟨hn, ih₂ (ih₁ (tier.symbols_inner ▸ nofun))⟩

/-- Names of scanned lexemes may stand in a formula. -/
theorem isIdentifier_of_tokenAt?_row {text : String} {lexemes : List Lexeme} {i : Nat}
    {name : String} (hscan : scan text = .ok lexemes)
    (htoken : tokenAt? (row lexemes) i = some (.identifier name)) : IsIdentifier name := by
  rw [tokenAt?_row] at htoken
  obtain ⟨lexeme, hlexeme, hname⟩ := Option.map_eq_some_iff.1 htoken
  exact isIdentifier_of_scanFrom hscan (List.mem_of_getElem? hlexeme) hname

/-! ### Settled trees -/

/-- Every name of a tree means what the tree says about it, and may stand in a formula. The name of
a bound call of one argument may also be a part of such a name. -/
inductive Expr.Settled (scope : Scope) : Expr → Prop where
  | constant (value : Float) : Settled scope (.constant value)
  | var {name : String} (hname : IsIdentifier name) (hopen : scope.number? name = none) :
      Settled scope (.var name)
  | open₁ {name : String} {argument : Expr} (hname : IsIdentifier name)
      (hopen : scope.function? name = none) (hargument : Settled scope argument) :
      Settled scope (.call₁ none name argument)
  | bound₁ {name : String} {f : Float → Float} {argument : Expr} (hname : IsNamePart name)
      (hbound : scope.unary? name = some f) (hargument : Settled scope argument) :
      Settled scope (.call₁ (some f) name argument)
  | call₂ {name : String} {f? : Option (Float → Float → Float)} {first second : Expr}
      (hname : IsIdentifier name) (hf : scope.binary? name = f?)
      (hfirst : Settled scope first) (hsecond : Settled scope second) :
      Settled scope (.call₂ f? name first second)
  | operation {op : Operator} {first second : Expr}
      (hfirst : Settled scope first) (hsecond : Settled scope second) :
      Settled scope (.call₂ (some op.apply) op.symbol first second)

namespace Expr

variable {scope : Scope} {name : String} {first second argument : Expr}

/-- A call that is computed early leaves a constant, which is settled. -/
theorem Settled.apply₁ {f? : Option (Float → Float)}
    (h : (Expr.call₁ f? name argument).Settled scope) :
    (apply₁ name f? argument).Settled scope := by
  unfold Expr.apply₁
  split
  · exact .constant _
  · exact h

theorem Settled.apply₂ {f? : Option (Float → Float → Float)}
    (h : (Expr.call₂ f? name first second).Settled scope) :
    (apply₂ name f? first second).Settled scope := by
  unfold Expr.apply₂
  split
  · exact .constant _
  · exact h

/-- Operators are bound in every scope. -/
theorem Settled.combine {op : Operator} (hfirst : first.Settled scope)
    (hsecond : second.Settled scope) : (op.combine first second).Settled scope := by
  rw [op.combine_eq_apply₂]
  exact .apply₂ (.operation hfirst hsecond)

end Expr

/-! ### Names that split -/

namespace Scope

variable {scope : Scope} {word function : String} {f : Float → Float} {scaled : ScaledFunction}

/-- The function of a split call has the meaning and a part of the name of its own. -/
theorem unary?_of_scaledFunction? (hword : IsNamePart word)
    (h : scope.scaledFunction? word = some scaled)
    (hfunction : scaled.function? = some (function, f)) :
    IsNamePart function ∧ scope.unary? function = some f := by
  unfold scaledFunction? at h
  split at h
  · next before function' f' hend =>
    obtain ⟨factor, -, rfl⟩ := Option.map_eq_some_iff.1 h
    cases hfunction
    obtain ⟨l, r, hcut, -, hr, hanswer, -⟩ := firstCut?_eq_some_iff.1 hend
    obtain ⟨f', hf, heq⟩ := Option.map_eq_some_iff.1 hanswer
    cases heq
    refine ⟨⟨?_, fun c hc ↦ hword.isNameChar c ?_⟩, hf⟩
    · rwa [String.toList_ofList]
    · rw [String.toList_ofList] at hc
      rw [← hcut]
      exact List.mem_append_right l hc
  · obtain ⟨factor, -, rfl⟩ := Option.map_eq_some_iff.1 h
    cases hfunction

/-- A name that is left in a tree is written as it was, and is not known. -/
theorem settled_exprOfName (hword : IsIdentifier word) : (scope.exprOfName word).Settled scope := by
  rw [exprOfName]
  split
  · exact .constant _
  · next hopen => exact .var hword hopen

/-- A call of a name that splits leaves a product with the call of a function that is known by
itself. -/
theorem settled_exprOfCall₁ {argument : Expr} (hword : IsIdentifier word)
    (hargument : argument.Settled scope) : (scope.exprOfCall₁ word argument).Settled scope := by
  rw [exprOfCall₁]
  split
  · next f hf => exact .apply₁ (.bound₁ hword.toIsNamePart hf hargument)
  · next hunary =>
    split
    · next scaled hscaled =>
      rw [impliedFunction?] at hscaled
      split at hscaled
      · obtain ⟨factor, function?⟩ := scaled
        rcases function? with - | ⟨function, f⟩
        · exact .combine (.constant factor) hargument
        · obtain ⟨hpart, hf⟩ := unary?_of_scaledFunction? hword.toIsNamePart hscaled rfl
          exact .combine (.constant factor) (.apply₁ (.bound₁ hpart hf hargument))
      · cases hscaled
    · next himplied =>
      have hopen : scope.function? word = none := by
        rw [function?, hunary, himplied]
        rfl
      exact .apply₁ (.open₁ hword hopen hargument)

end Scope

/-- The tree of a phrase is settled in its scope, if the names of the phrase may stand in a
formula. -/
theorem Phrase.settled_expr {scope : Scope} {phrase : Phrase}
    (hnames : ∀ s ∈ phrase.symbols, IsIdentifier s.name) : (phrase.expr scope).Settled scope := by
  induction phrase with
  | number value => exact .constant value
  | name word => exact Scope.settled_exprOfName (hnames _ List.mem_cons_self)
  | call₁ word argument ih =>
    obtain ⟨hword, hargument⟩ := List.forall_mem_cons.1 hnames
    exact Scope.settled_exprOfCall₁ hword (ih hargument)
  | call₂ word first second ih₁ ih₂ =>
    obtain ⟨hword, harguments⟩ := List.forall_mem_cons.1 hnames
    obtain ⟨hfirst, hsecond⟩ := List.forall_mem_append.1 harguments
    exact .apply₂ (.call₂ hword rfl (ih₁ hfirst) (ih₂ hsecond))
  | parens inner ih => exact ih hnames
  | negative operand ih => exact .combine (.constant _) (ih hnames)
  | joined joint lhs rhs ih₁ ih₂ =>
    obtain ⟨hlhs, hrhs⟩ := List.forall_mem_append.1 hnames
    exact .combine (ih₁ hlhs) (ih₂ hrhs)

end Formulae
