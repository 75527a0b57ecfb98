import Formulae.Proofs.Names.Folding
import Formulae.Proofs.RoundTrip.Rendering

/-!
# The height of a tree

Evaluating a tree, collecting its open names and writing it all go down one level of the tree at a
time, so they go as deep as the tree is high. The limit on nesting counts operands within operands.
A chain of operators has its operands side by side, however long it is, and yet the tree of a chain
grows by a level with each operator: `x+x+x` is `(x + x) + x`. So no limit on nesting alone bounds
the height of a tree (`Settings.not_exists_height_bound`).

What bounds it are the limit and the longest chain together. Within one operand there are chains of
three tiers, one inside the other, and the operand itself may add two levels, where the name of a
call is split (`Derives.height_le`).
-/

namespace Formulae

/-! ### Heights -/

/-- The number of levels of a tree. -/
def Expr.height : Expr → Nat
  | constant _ => 1
  | var _ => 1
  | call₁ _ _ argument => argument.height + 1
  | call₂ _ _ first second => max first.height second.height + 1

namespace Expr

variable {name : String} {argument first second : Expr}

theorem height_pos (e : Expr) : 0 < e.height := by
  cases e <;> exact Nat.succ_pos _

theorem height_apply₁_le (f? : Option (Float → Float)) :
    (apply₁ name f? argument).height ≤ argument.height + 1 := by
  unfold apply₁
  split
  · exact Nat.le_add_left _ _
  · exact Nat.le_refl _

theorem height_apply₂_le (f? : Option (Float → Float → Float)) :
    (apply₂ name f? first second).height ≤ max first.height second.height + 1 := by
  unfold apply₂
  split
  · exact Nat.le_add_left _ _
  · exact Nat.le_refl _

theorem height_combine_le (op : Operator) :
    (op.combine first second).height ≤ max first.height second.height + 1 :=
  op.combine_eq_apply₂ first second ▸ height_apply₂_le _

/-- A split call is a product, with a call in it or without. -/
theorem height_scaledFunction_le (scaled : ScaledFunction) :
    (scaled.expr argument).height ≤ argument.height + 2 := by
  have hproduct {factor : Float} {e : Expr} (he : e.height ≤ argument.height + 1) :
      (Operator.mul.combine (.constant factor) e).height ≤ argument.height + 2 := by
    refine (height_combine_le .mul).trans ?_
    rw [height, max_eq_right e.height_pos]
    exact Nat.succ_le_succ he
  obtain ⟨factor, - | ⟨function, f⟩⟩ := scaled
  · exact hproduct (Nat.le_succ _)
  · exact hproduct (height_apply₁_le _)

end Expr

namespace Scope

variable {scope : Scope}

theorem height_exprOfName (word : String) : (scope.exprOfName word).height = 1 := by
  unfold exprOfName
  split <;> rfl

theorem height_exprOfCall₁_le (word : String) (argument : Expr) :
    (scope.exprOfCall₁ word argument).height ≤ argument.height + 2 := by
  unfold exprOfCall₁
  split
  · exact (Expr.height_apply₁_le _).trans (Nat.le_succ _)
  · split
    · exact Expr.height_scaledFunction_le _
    · exact (Expr.height_apply₁_le _).trans (Nat.le_succ _)

theorem height_exprOfCall₂_le (word : String) (first second : Expr) :
    (scope.exprOfCall₂ word first second).height ≤ max first.height second.height + 1 :=
  Expr.height_apply₂_le _

end Scope

/-! ### Chains -/

namespace Phrase

/-- The number of operators in the chain of a tier that a phrase is; none if it is no such
chain. -/
def links (tier : Tier) : Phrase → Nat
  | .joined joint lhs rhs =>
    if joint.operator.tier = tier then lhs.links tier + rhs.links tier + 1 else 0
  | _ => 0

/-- The number of operators in the longest chain of any tier within a phrase. -/
def longestChain : Phrase → Nat
  | .number _ => 0
  | .name _ => 0
  | .call₁ _ argument => argument.longestChain
  | .call₂ _ first second => max first.longestChain second.longestChain
  | .parens inner => inner.longestChain
  | .negative operand => operand.longestChain
  | .joined joint lhs rhs =>
    max ((joined joint lhs rhs).links joint.operator.tier) (max lhs.longestChain rhs.longestChain)

variable {joint : Joint} {lhs rhs : Phrase} {k : Nat}

theorem longestChain_joined_le_iff : (joined joint lhs rhs).longestChain ≤ k ↔
    lhs.links joint.operator.tier + rhs.links joint.operator.tier + 1 ≤ k ∧
      lhs.longestChain ≤ k ∧ rhs.longestChain ≤ k := by
  rw [longestChain, links, if_pos rfl, max_le_iff, max_le_iff]

theorem links_joined {tier : Tier} (h : joint.operator.tier = tier) :
    (joined joint lhs rhs).links tier = lhs.links tier + rhs.links tier + 1 := by
  rw [links, if_pos h]

/-- A phrase is a chain of at most one tier. -/
theorem links_le_longestChain (phrase : Phrase) (tier : Tier) :
    phrase.links tier ≤ phrase.longestChain := by
  cases phrase with
  | joined joint lhs rhs =>
    by_cases htier : joint.operator.tier = tier
    · rw [longestChain, htier]
      exact le_max_left _ _
    · rw [links, if_neg htier]
      exact Nat.zero_le _
  | _ => exact Nat.zero_le _

end Phrase

/-- A joint of a tier stands for an operator of it. -/
theorem Joins.tier_operator {row : List Piece} {implied : Bool} {tier : Tier} {i k : Nat}
    {joint : Joint} (h : Joins row implied tier i k joint) : joint.operator.tier = tier := by
  cases h with
  | @written _ _ token op _ hop =>
    unfold Tier.operator? at hop
    split at hop <;> cases hop <;> rfl
  | implied => rfl

namespace Derives

variable {row : List Piece} {implied : Bool} {n : Nonterminal} {i j k : Nat} {phrase : Phrase}

/-- The operand in front of a rest is a part of what the rest makes of it. -/
theorem longestChain_le {tier : Tier} {lhs : Phrase}
    (h : Derives row implied (.rest tier lhs) i j phrase) :
    lhs.longestChain ≤ phrase.longestChain := by
  generalize hn : Nonterminal.rest tier lhs = n at h
  induction h generalizing lhs with
  | stop => cases hn; exact Nat.le_refl _
  | left _ _ _ _ _ ih =>
    cases hn
    exact (Phrase.longestChain_joined_le_iff.1 (ih rfl)).2.1
  | right =>
    cases hn
    exact (Phrase.longestChain_joined_le_iff.1 (Nat.le_refl _)).2.1
  | _ => cases hn

end Derives

/-! ### The bound -/

/-- By how many levels the tree of a chain stays below the bound for its nesting, if no chain has
more than `k` operators: enough for the chains of the looser tiers around it, and one level. -/
def Tier.room (k : Nat) : Tier → Nat
  | additive => 1
  | multiplicative => k + 1
  | exponent => 2 * k + 1

/-- By how many levels the tree of a phrase stays below the bound for its nesting. A rest starts
with the room of its operands. -/
def Nonterminal.room (k : Nat) : Nonterminal → Nat
  | .tier t => t.room k
  | .rest t _ => t.room k + k
  | .operand => 3 * k + 1

theorem Tier.room_inner (k : Nat) (tier : Tier) : tier.inner.room k = tier.room k + k := by
  cases tier <;> simp only [inner, Nonterminal.room, room] <;> omega

/-- The number of operators that have used up room since the last operand. -/
def Nonterminal.links : Nonterminal → Phrase → Nat
  | .rest t _, phrase => phrase.links t
  | _, _ => 0

theorem Tier.links_inner (tier : Tier) (phrase : Phrase) : tier.inner.links phrase = 0 := by
  cases tier <;> rfl

/-- The tree of a phrase leaves the room of its nonterminal. -/
def Phrase.Fits (phrase : Phrase) (scope : Scope) (k : Nat) (n : Nonterminal) : Prop :=
  (phrase.expr scope).height + n.room k ≤ n.links phrase + (3 * k + 2) * phrase.nesting

/-- The operand that a nonterminal carries along fits. -/
def Nonterminal.Fits (scope : Scope) (k : Nat) : Nonterminal → Prop
  | .rest t lhs => lhs.Fits scope k (.rest t lhs)
  | _ => True

theorem Tier.fits_inner {scope : Scope} {k : Nat} (tier : Tier) : tier.inner.Fits scope k := by
  cases tier <;> trivial

section

variable {scope : Scope} {k : Nat} {tier : Tier} {joint : Joint} {lhs rhs phrase : Phrase}

namespace Phrase

/-- An operand of a chain fits as what a rest starts from. -/
theorem Fits.start (h : phrase.Fits scope k tier.inner) (lhs : Phrase) :
    phrase.Fits scope k (.rest tier lhs) := by
  unfold Fits at h ⊢
  rw [tier.room_inner, tier.links_inner] at h
  exact h.trans (Nat.add_le_add_right (Nat.zero_le _) _)

/-- A finished chain has used up no more room than there was for its tier. -/
theorem Fits.finish (h : phrase.Fits scope k (.rest tier lhs))
    (hchain : phrase.longestChain ≤ k) : phrase.Fits scope k (.tier tier) := by
  have hlinks := (phrase.links_le_longestChain tier).trans hchain
  unfold Fits at h ⊢
  simp only [Nonterminal.room, Nonterminal.links] at h ⊢
  omega

/-- Two parts that are joined take up one level more than the higher one, and the operator pays for
it. -/
theorem Fits.joined {l r : Phrase} (hlhs : lhs.Fits scope k (.rest tier l))
    (hrhs : rhs.Fits scope k (.rest tier r)) (htier : joint.operator.tier = tier) :
    (Phrase.joined joint lhs rhs).Fits scope k (.rest tier phrase) := by
  have hheight : ((Phrase.joined joint lhs rhs).expr scope).height ≤
      max (lhs.expr scope).height (rhs.expr scope).height + 1 := Expr.height_combine_le _
  have hleft : (3 * k + 2) * lhs.nesting ≤ (3 * k + 2) * max lhs.nesting rhs.nesting :=
    Nat.mul_le_mul_left _ (le_max_left _ _)
  have hright : (3 * k + 2) * rhs.nesting ≤ (3 * k + 2) * max lhs.nesting rhs.nesting :=
    Nat.mul_le_mul_left _ (le_max_right _ _)
  unfold Fits at hlhs hrhs ⊢
  simp only [Nonterminal.room, Nonterminal.links] at hlhs hrhs ⊢
  rw [nesting, links_joined htier]
  omega

/-- A token that is an operand by itself is one level of nesting and one level of the tree. -/
theorem Fits.single (hheight : (phrase.expr scope).height = 1) (hnesting : phrase.nesting = 1) :
    phrase.Fits scope k .operand := by
  unfold Fits
  simp only [Nonterminal.room, Nonterminal.links]
  rw [hheight, hnesting]
  omega

/-- A sign is a factor that goes down one operand. -/
theorem Fits.negative (h : phrase.Fits scope k .operand) :
    (Phrase.negative phrase).Fits scope k .operand := by
  have hheight : ((Phrase.negative phrase).expr scope).height ≤
      max 1 (phrase.expr scope).height + 1 := Expr.height_combine_le _
  have hpos := (phrase.expr scope).height_pos
  unfold Fits at h ⊢
  simp only [Nonterminal.room, Nonterminal.links] at h ⊢
  rw [nesting, Nat.mul_succ]
  omega

/-- An expression has room for the operand that it stands in, even if that adds two levels. -/
theorem Fits.nested {inner : Phrase} (h : inner.Fits scope k (.tier .additive))
    (hheight : (phrase.expr scope).height ≤ (inner.expr scope).height + 2)
    (hnesting : inner.nesting + 1 ≤ phrase.nesting) : phrase.Fits scope k .operand := by
  have hle := Nat.mul_le_mul_left (3 * k + 2) hnesting
  unfold Fits at h ⊢
  simp only [Nonterminal.room, Tier.room, Nonterminal.links] at h ⊢
  rw [Nat.mul_succ] at hle
  omega

end Phrase

namespace Derives

variable {row : List Piece} {implied : Bool} {n : Nonterminal} {i j : Nat}

/-- A phrase fits if none of its chains is longer than the room was made for. -/
theorem fits (h : Derives row implied n i j phrase) (hchain : phrase.longestChain ≤ k)
    (hn : n.Fits scope k) : phrase.Fits scope k n := by
  induction h with
  | number => exact .single rfl rfl
  | name => exact .single (Scope.height_exprOfName _) rfl
  | call₁ _ _ _ _ ih =>
    exact (ih hchain trivial).nested (Scope.height_exprOfCall₁_le _ _) (Nat.le_refl _)
  | @call₂ _ _ _ name first second _ _ _ _ _ _ ih₁ ih₂ =>
    obtain ⟨hfirst, hsecond⟩ := max_le_iff.1 hchain
    have hheight := scope.height_exprOfCall₂_le name (first.expr scope) (second.expr scope)
    -- the argument with the higher tree decides
    rcases le_total (first.expr scope).height (second.expr scope).height with hle | hle
    · rw [max_eq_right hle] at hheight
      exact (ih₂ hsecond trivial).nested (hheight.trans (Nat.le_succ _))
        (Nat.succ_le_succ (le_max_right _ _))
    · rw [max_eq_left hle] at hheight
      exact (ih₁ hfirst trivial).nested (hheight.trans (Nat.le_succ _))
        (Nat.succ_le_succ (le_max_left _ _))
  | parens _ _ _ ih => exact (ih hchain trivial).nested (Nat.le_add_right _ 2) (Nat.le_refl _)
  | negative _ _ _ ih => exact (ih hchain trivial).negative
  | @chain tier _ _ _ _ _ _ hrest ih₁ ih₂ =>
    have hfirst := ih₁ (hrest.longestChain_le.trans hchain) tier.fits_inner
    exact (ih₂ hchain (hfirst.start _)).finish hchain
  | stop => exact hn
  | @left tier _ _ _ _ _ _ rhs _ _ hjoins _ hrest ih₁ ih₂ =>
    have hjoined := hrest.longestChain_le.trans hchain
    have hrhs := ih₁ (Phrase.longestChain_joined_le_iff.1 hjoined).2.2 tier.fits_inner
    exact ih₂ hchain (.joined hn (hrhs.start rhs) hjoins.tier_operator)
  | @right tier _ _ _ _ _ _ _ _ _ hjoins _ hrest ih₁ ih₂ =>
    have hlater := (Phrase.longestChain_joined_le_iff.1 hchain).2.2
    have hrhs := ih₁ (hrest.longestChain_le.trans hlater) tier.fits_inner
    exact .joined hn (ih₂ hlater (hrhs.start _)) hjoins.tier_operator

/-- **The nesting and the longest chain bound the height.** -/
theorem height_le (h : Derives row implied (.tier .additive) i j phrase)
    (hchain : phrase.longestChain ≤ k) :
    (phrase.expr scope).height + 1 ≤ (3 * k + 2) * phrase.nesting :=
  (h.fits hchain trivial).trans_eq (Nat.zero_add _)

end Derives

end

namespace Settings

variable {settings : Settings} {text : String} {formula : Formula} {k : Nat}

/-- No chain in a text has more than `k` operators. -/
def ChainsWithin (settings : Settings) (text : String) (k : Nat) : Prop :=
  ∀ lexemes phrase, scan text = .ok lexemes →
    Derives (row lexemes) settings.implied (.tier .additive) 0 lexemes.length phrase →
      phrase.longestChain ≤ k

/-- **The limit bounds the height of every tree without long chains.** The bound depends on the
limit and on the number of operators in the longest chain, and not on the length of the text. -/
theorem height_root_le (hparse : settings.parse text = .ok formula)
    (hchains : settings.ChainsWithin text k) :
    formula.root.height ≤ (3 * k + 2) * settings.depthLimit - 1 := by
  obtain ⟨lexemes, phrase, hscan, hphrase, hlimit, rfl⟩ := parse_eq_ok_iff.1 hparse
  have hheight : (phrase.expr settings.scope).height + 1 ≤ _ :=
    hphrase.height_le (hchains lexemes phrase hscan hphrase)
  have hbound := Nat.mul_le_mul_left (3 * k + 2) hlimit
  exact Nat.le_sub_one_of_lt (hheight.trans hbound)

end Settings

/-! ### Long sums

A text of as many summands as one likes, none of which stands within another operand. -/

/-- The sum of an operand and of `n` summands `x` behind it. -/
def Phrase.plusNames (lhs : Phrase) : Nat → Phrase
  | 0 => lhs
  | n + 1 => (joined (.written .add) lhs (.name "x")).plusNames n

/-- The text of `n` summands `x` behind an operand. -/
def plusNamesChars : Nat → List Char
  | 0 => []
  | n + 1 => '+' :: 'x' :: plusNamesChars n

/-- The pieces of `n` summands `x` behind an operand. -/
def plusNamesPieces : Nat → List Piece
  | 0 => []
  | n + 1 => ⟨.glyph .plus, true⟩ :: ⟨.identifier "x", true⟩ :: plusNamesPieces n

theorem delimited_plusNames (n : Nat) : Delimited (plusNamesChars n) := by
  cases n with
  | zero => exact delimited_nil
  | succ n => exact delimited_cons (isNameChar_char .plus)

theorem isIdentifier_x : IsIdentifier "x" := .of_cons (by decide) (List.forall_mem_nil _)

theorem spells_plusNames (n : Nat) : Spells true (plusNamesChars n) (plusNamesPieces n) := by
  induction n with
  | zero => exact .nil
  | succ n ih => exact .glyph .plus (.identifier isIdentifier_x (delimited_plusNames n) ih)

theorem derives_plusNames {row : List Piece} {implied : Bool} {i n : Nat} {lhs : Phrase}
    (h : Remains row i (plusNamesPieces n)) :
    Derives row implied (.rest .additive lhs) i row.length (lhs.plusNames n) := by
  induction n generalizing i lhs with
  | zero =>
    obtain rfl := h.eq_length
    exact .stop
  | succ n ih =>
    have hname : Derives row implied .operand (i + 1) (i + 2) (.name "x") := by
      refine .name h.succ.tokenAt? ?_
      rw [h.succ.succ.opens_iff]
      cases n <;> simp [plusNamesPieces]
    exact .left rfl (.written h.tokenAt? rfl) (hname.tier_of_operand .multiplicative)
      (ih h.succ.succ)

theorem nesting_plusNames (lhs : Phrase) (n : Nat) :
    (lhs.plusNames n).nesting = lhs.nesting := by
  induction n generalizing lhs with
  | zero => rfl
  | succ n ih =>
    rw [Phrase.plusNames, ih]
    exact max_eq_left lhs.nesting_pos

/-- Each summand is one level more. -/
theorem height_plusNames (lhs : Phrase) (n : Nat) :
    ((lhs.plusNames n).expr {}).height = (lhs.expr {}).height + n := by
  induction n generalizing lhs with
  | zero => rfl
  | succ n ih =>
    have hname : (Phrase.name "x").expr {} = .var "x" := by cbv
    have hjoined : ((Phrase.joined (.written .add) lhs (.name "x")).expr {}).height =
        (lhs.expr {}).height + 1 := by
      have hcombine : Operator.add.combine (lhs.expr {}) (.var "x") =
          .call₂ (some Operator.add.apply) "+" (lhs.expr {}) (.var "x") := by
        cases lhs.expr {} <;> rfl
      rw [Phrase.expr, hname]
      exact (congrArg Expr.height hcombine).trans
        (congrArg (· + 1) (max_eq_left (lhs.expr {}).height_pos))
    rw [Phrase.plusNames, ih, hjoined, Nat.add_assoc, Nat.add_comm 1]

namespace Settings

/-- A sum of names has a derivation as the chain that it is. -/
theorem derives_scan_plusNames (implied : Bool) (n : Nat) :
    ∃ lexemes, scan (String.ofList ('x' :: plusNamesChars n)) = .ok lexemes ∧
      Derives (row lexemes) implied (.tier .additive) 0 lexemes.length
        ((Phrase.name "x").plusNames n) := by
  have hspells : Spells false (String.ofList ('x' :: plusNamesChars n)).toList
      (⟨.identifier "x", false⟩ :: plusNamesPieces n) := by
    rw [String.toList_ofList]
    exact .identifier isIdentifier_x (delimited_plusNames n) (spells_plusNames n)
  obtain ⟨lexemes, hscan, hrow⟩ := hspells.exists_scan
  refine ⟨lexemes, hscan, ?_⟩
  have hremains : Remains (row lexemes) 0 (⟨.identifier "x", false⟩ :: plusNamesPieces n) :=
    hrow ▸ .all _
  have hname : Derives (row lexemes) implied .operand 0 1 (.name "x") := by
    refine .name hremains.tokenAt? ?_
    rw [hremains.succ.opens_iff]
    cases n <;> simp [plusNamesPieces]
  rw [← length_row]
  exact .chain (hname.tier_of_operand .multiplicative) (derives_plusNames hremains.succ)

/-- A sum of names is parsed at every limit above zero. -/
theorem parse_plusNames (settings : Settings) (n : Nat) (hlimit : 1 ≤ settings.depthLimit) :
    settings.parse (String.ofList ('x' :: plusNamesChars n)) =
      .ok ⟨((Phrase.name "x").plusNames n).expr settings.scope, settings.implied,
        settings.vocabulary⟩ := by
  obtain ⟨lexemes, hscan, hphrase⟩ := derives_scan_plusNames settings.implied n
  refine parse_eq_ok_iff.2 ⟨lexemes, _, hscan, hphrase, ?_, rfl⟩
  rw [nesting_plusNames]
  exact hlimit

/-- **No limit bounds the height by itself**: chains are not nested, however long they are. -/
theorem not_exists_height_bound : ¬ ∃ bound : Nat → Nat, ∀ settings text formula,
    parse settings text = .ok formula → formula.root.height ≤ bound settings.depthLimit := by
  rintro ⟨bound, hbound⟩
  have hle : (((Phrase.name "x").plusNames (bound 1)).expr {}).height ≤ bound 1 :=
    hbound { depthLimit := 1 } _ _ (parse_plusNames _ (bound 1) (Nat.le_refl 1))
  have hpos := ((Phrase.name "x").expr {}).height_pos
  rw [height_plusNames] at hle
  omega

/-- A chain of two operators at the lowest limit stays below the bound for it. -/
theorem height_root_le_sum : ∃ formula, parse { depthLimit := 1 } "x+x+x" = .ok formula ∧
    ChainsWithin { depthLimit := 1 } "x+x+x" 2 ∧ formula.root.height = 3 ∧
    formula.root.height ≤ (3 * 2 + 2) * 1 - 1 := by
  have hparse := parse_plusNames { depthLimit := 1 } 2 (Nat.le_refl 1)
  have hchains : ChainsWithin { depthLimit := 1 } "x+x+x" 2 := by
    obtain ⟨lexemes, hscan, hphrase⟩ := derives_scan_plusNames false 2
    intro lexemes' phrase hscan' hphrase'
    obtain rfl : lexemes' = lexemes := by cases hscan'.symm.trans hscan; rfl
    rw [← length_row] at hphrase hphrase'
    obtain rfl := hphrase'.unique_of_length hphrase
    decide
  exact ⟨_, hparse, hchains, height_plusNames (.name "x") 2, height_root_le hparse hchains⟩

end Settings

end Formulae
