import Formulae.Proofs.Names.Folding

/-!
# Factoring names

A name has a split exactly if one of its cuts has a known part (`factor?_eq_none_iff`), and what the
split says of the name is true: its pieces, read from left to right, make up the name, none of them
is empty, and each has the value that it has on its own.

A piece without a value is unknown and so is every end of it, since the search goes on for as long
as an end is known. There is at most one such piece, the innermost, because whatever is taken off
an end is taken off for its value. So a product leaves one variable open, or nothing at all
(`Factors.symbols_expr`).
-/

namespace Formulae

/-! ### Cuts without an answer -/

section

variable {α : Type} {f : List Char → List Char → Option α}

/-- A search from the right end passes every cut before it fails. -/
theorem cut_eq_none_of_lastCutFrom? {before passed after : List Char} (hbefore : before ≠ [])
    (h : lastCutFrom? f (passed ++ before) after = none) :
    f before.reverse (passed.reverse ++ after) = none := by
  induction passed generalizing after with
  | nil =>
    obtain ⟨c, before, rfl⟩ := List.exists_cons_of_ne_nil hbefore
    rw [List.nil_append, lastCutFrom?] at h
    split at h
    · cases h
    · assumption
  | cons c passed ih =>
    rw [List.cons_append, lastCutFrom?] at h
    split at h
    · cases h
    · rw [List.reverse_cons, List.append_assoc, List.singleton_append]
      exact ih h

/-- There is no answer from the right end exactly if no cut has one. -/
theorem lastCut?_eq_none_iff {name : List Char} :
    lastCut? f name = none ↔ ∀ l r, l ++ r = name → l ≠ [] → r ≠ [] → f l r = none := by
  constructor
  · rintro h l r rfl hl hr
    obtain ⟨c, passed, hrev⟩ := List.exists_cons_of_ne_nil (List.reverse_ne_nil_iff.2 hr)
    have hr : r = passed.reverse ++ [c] := by
      rw [← List.reverse_cons, ← hrev, List.reverse_reverse]
    rw [lastCut?, List.reverse_append, hrev] at h
    rw [hr]
    exact l.reverse_reverse ▸ cut_eq_none_of_lastCutFrom? (List.reverse_ne_nil_iff.2 hl) h
  · intro h
    rcases hfound : lastCut? f name with - | a
    · rfl
    · obtain ⟨l, r, heq, hl, hr, hcut⟩ := cut_of_lastCut? hfound
      cases (h l r heq hl hr).symm.trans hcut

end

/-! ### Pieces -/

/-- A piece of a name, with its value if it counts as known. -/
structure Factor where
  part : List Char
  value? : Option Float

/-- A piece as a tree: its value, or a variable of its name. -/
def Factor.expr (factor : Factor) : Expr :=
  match factor.value? with
  | some value => .constant value
  | none => .var (String.ofList factor.part)

/-- A tree is the product of some factors in their order: a single one, or one more at either end of
a product of the others. -/
inductive IsProduct : List Factor → Expr → Prop where
  | single (factor : Factor) : IsProduct [factor] factor.expr
  | front (factor : Factor) {rest : List Factor} {e : Expr} (hrest : IsProduct rest e) :
      IsProduct (factor :: rest) (Operator.mul.combine factor.expr e)
  | back {rest : List Factor} {e : Expr} (hrest : IsProduct rest e) (factor : Factor) :
      IsProduct (rest ++ [factor]) (Operator.mul.combine e factor.expr)

namespace Factors

/-- The pieces of a name from left to right. -/
def pieces : Factors → List Factor
  | leftover part => [⟨part, none⟩]
  | known part value => [⟨part, some value⟩]
  | front part value rest => ⟨part, some value⟩ :: rest.pieces
  | back rest part value => rest.pieces ++ [⟨part, some value⟩]

/-- The pieces without a value. -/
def unknown (factors : Factors) : List Factor :=
  factors.pieces.filter (·.value?.isNone)

variable (factors : Factors)

theorem isProduct_pieces : IsProduct factors.pieces factors.expr := by
  induction factors with
  | leftover part => exact .single ⟨part, none⟩
  | known part value => exact .single ⟨part, some value⟩
  | front part value _ ih => exact .front ⟨part, some value⟩ ih
  | back _ part value ih => exact .back ih ⟨part, some value⟩

theorem flatten_pieces : (factors.pieces.map Factor.part).flatten = factors.word := by
  induction factors with
  | leftover => simp [pieces, word]
  | known => simp [pieces, word]
  | front _ _ _ ih => simp [pieces, word, ih]
  | back _ _ _ ih => simp [pieces, word, ih]

theorem length_pieces_pos : 0 < factors.pieces.length := by
  cases factors <;> simp [pieces]

/-- Only the innermost piece can be unknown. -/
theorem length_unknown_le_one : factors.unknown.length ≤ 1 := by
  induction factors with
  | leftover => simp [unknown, pieces]
  | known => simp [unknown, pieces]
  | front _ _ _ ih => simpa [unknown, pieces] using ih
  | back _ _ _ ih => simpa [unknown, pieces] using ih

/-- What a product leaves open are its unknown pieces, as variables. -/
theorem symbols_expr : factors.expr.symbols =
    factors.unknown.map fun factor ↦ ⟨.variable, String.ofList factor.part⟩ := by
  induction factors with
  | leftover => rfl
  | known => rfl
  | front _ _ _ ih => simpa [unknown, pieces, expr] using ih
  | back _ _ _ ih => simpa [unknown, pieces, expr] using ih

theorem folded_expr : factors.expr.Folded := by
  induction factors with
  | leftover => trivial
  | known => trivial
  | front _ _ _ ih => exact Expr.folded_combine trivial ih
  | back _ _ _ ih => exact Expr.folded_combine ih trivial

/-- A product is a number exactly if every piece has a value. -/
theorem isConstant_expr_iff :
    factors.expr.isConstant ↔ ∀ factor ∈ factors.pieces, factor.value?.isSome := by
  rw [Expr.isConstant_iff, factors.folded_expr.exists_eq_constant_iff, symbols_expr,
    List.map_eq_nil_iff, unknown, List.filter_eq_nil_iff]
  simp only [Bool.not_eq_true, Option.isNone_eq_false_iff]

end Factors

/-! ### Splits -/

section

variable (known? : List Char → Option Float)

/-- No cut of a name has a known part on either side. -/
def Uncut (name : List Char) : Prop :=
  ∀ l r, l ++ r = name → l ≠ [] → r ≠ [] → known? l = none ∧ known? r = none

/-- A piece is what it counts as: known with this value, or unknown together with all of its
ends. -/
structure Factor.Faithful (factor : Factor) : Prop where
  part_ne_nil : factor.part ≠ []
  value?_eq : factor.value? = known? factor.part
  uncut : factor.value? = none → Uncut known? factor.part

/-- Factors are a faithful account of a name. -/
structure Factors.Faithful (name : List Char) (factors : Factors) : Prop where
  word_eq : factors.word = name
  pieces : ∀ factor ∈ factors.pieces, factor.Faithful known?

variable {known?}

theorem KnownEnd.ofCut?_eq_none_iff {l r : List Char} :
    KnownEnd.ofCut? known? l r = none ↔ known? l = none ∧ known? r = none := by
  rw [KnownEnd.ofCut?]
  rcases known? l with - | value
  · simp
  · simp

theorem KnownEnd.ofCut?_eq_front {l r part rest : List Char} {value : Float}
    (h : KnownEnd.ofCut? known? l r = some (.front part value rest)) :
    l = part ∧ r = rest ∧ known? part = some value := by
  rw [KnownEnd.ofCut?] at h
  split at h
  · next hvalue =>
    cases h
    exact ⟨rfl, rfl, hvalue⟩
  · simp at h

theorem KnownEnd.ofCut?_eq_back {l r part rest : List Char} {value : Float}
    (h : KnownEnd.ofCut? known? l r = some (.back rest part value)) :
    l = rest ∧ r = part ∧ known? part = some value := by
  rw [KnownEnd.ofCut?] at h
  split at h
  · cases h
  · obtain ⟨_, hvalue, ⟨⟩⟩ := Option.map_eq_some_iff.1 h
    exact ⟨rfl, rfl, hvalue⟩

theorem factor?_of_none {name : List Char}
    (h : lastCut? (KnownEnd.ofCut? known?) name = none) : factor? known? name = none := by
  rw [factor?]
  split <;> simp_all

theorem factor?_of_front {name part rest : List Char} {value : Float}
    (h : lastCut? (KnownEnd.ofCut? known?) name = some (.front part value rest)) :
    factor? known? name =
      some (.front part value (factor?.further known? (factor? known? rest) rest)) := by
  rw [factor?]
  split <;> simp_all

theorem factor?_of_back {name part rest : List Char} {value : Float}
    (h : lastCut? (KnownEnd.ofCut? known?) name = some (.back rest part value)) :
    factor? known? name =
      some (.back (factor?.further known? (factor? known? rest) rest) part value) := by
  rw [factor?]
  split <;> simp_all

/-- **A name has no split exactly if nothing at any of its ends is known.** -/
theorem factor?_eq_none_iff {name : List Char} :
    factor? known? name = none ↔ Uncut known? name := by
  have hcuts : lastCut? (KnownEnd.ofCut? known?) name = none ↔ Uncut known? name := by
    simp only [lastCut?_eq_none_iff, KnownEnd.ofCut?_eq_none_iff, Uncut]
  rw [← hcuts]
  rcases hpart : lastCut? (KnownEnd.ofCut? known?) name with
    - | ⟨part, value, rest⟩ | ⟨rest, part, value⟩
  · exact iff_of_true (factor?_of_none hpart) rfl
  · rw [factor?_of_front hpart]
    simp
  · rw [factor?_of_back hpart]
    simp

/-- The rest of a name is accounted for by its split, and by itself where it has none. -/
theorem Factors.faithful_further {rest : List Char} (hrest : rest ≠ [])
    (hsplit : ∀ factors, factor? known? rest = some factors → factors.Faithful known? rest) :
    (factor?.further known? (factor? known? rest) rest).Faithful known? rest := by
  rw [factor?.further.eq_def]
  rcases hfactors : factor? known? rest with - | factors
  · rcases hvalue : known? rest with - | value
    · refine ⟨rfl, List.forall_mem_singleton.2 ⟨hrest, hvalue.symm, fun _ ↦ ?_⟩⟩
      exact factor?_eq_none_iff.1 hfactors
    · exact ⟨rfl, List.forall_mem_singleton.2 ⟨hrest, hvalue.symm, nofun⟩⟩
  · exact hsplit factors hfactors

/-- **A split is a faithful account of the name.** -/
theorem factor?_faithful {name : List Char} {factors : Factors}
    (h : factor? known? name = some factors) : factors.Faithful known? name := by
  fun_induction factor? known? name generalizing factors with
  | case1 => cases h
  | case2 name part value rest hpart ih =>
    cases h
    obtain ⟨l, r, rfl, hl, hr, hcut⟩ := cut_of_lastCut? hpart
    obtain ⟨rfl, rfl, hvalue⟩ := KnownEnd.ofCut?_eq_front hcut
    obtain ⟨hword, hpieces⟩ := Factors.faithful_further hr fun _ ↦ ih
    exact ⟨congrArg _ hword, List.forall_mem_cons.2 ⟨⟨hl, hvalue.symm, nofun⟩, hpieces⟩⟩
  | case3 name rest part value hpart ih =>
    cases h
    obtain ⟨l, r, rfl, hl, hr, hcut⟩ := cut_of_lastCut? hpart
    obtain ⟨rfl, rfl, hvalue⟩ := KnownEnd.ofCut?_eq_back hcut
    obtain ⟨hword, hpieces⟩ := Factors.faithful_further hl fun _ ↦ ih
    exact ⟨congrArg (· ++ r) hword, List.forall_mem_append.2
      ⟨hpieces, List.forall_mem_singleton.2 ⟨hr, hvalue.symm, nofun⟩⟩⟩

/-- A split has at least two pieces. -/
theorem two_le_length_pieces {name : List Char} {factors : Factors}
    (h : factor? known? name = some factors) : 2 ≤ factors.pieces.length := by
  rw [factor?] at h
  split at h
  · cases h
  · cases h
    exact Nat.succ_le_succ (Factors.length_pieces_pos _)
  · cases h
    rw [Factors.pieces, List.length_append]
    exact Nat.succ_le_succ (Factors.length_pieces_pos _)

end

namespace Scope

/-- No cut of a name has a known variable on either side. -/
def Uncut (scope : Scope) (name : List Char) : Prop :=
  Formulae.Uncut (fun part ↦ scope.value? (String.ofList part)) name

/-- A name is made up of some factors, and a tree is their product as it can be computed. -/
structure Decomposes (scope : Scope) (name : String) (factors : List Factor) (e : Expr) :
    Prop where
  isProduct : IsProduct factors e
  flatten_eq : (factors.map Factor.part).flatten = name.toList
  two_le_length : 2 ≤ factors.length
  part_ne_nil : ∀ factor ∈ factors, factor.part ≠ []
  value?_eq : ∀ factor ∈ factors, factor.value? = scope.value? (String.ofList factor.part)
  unknown_le_one : (factors.filter (·.value?.isNone)).length ≤ 1
  uncut : ∀ factor ∈ factors, factor.value? = none → scope.Uncut factor.part
  isConstant_iff : e.isConstant ↔ ∀ factor ∈ factors, factor.value?.isSome
  symbols_eq : ∀ factor ∈ factors, factor.value? = none →
    e.symbols = [⟨.variable, String.ofList factor.part⟩]

/-- **Splitting a name is a faithful decomposition of it.** There is none exactly if nothing at any
end of the name is known. Otherwise the pieces make up the name, all but at most one of them count
for their own values, and the one without a value, which has no known end, is the only symbol that
their product leaves open. -/
theorem factor?_spec (scope : Scope) (name : String) :
    match scope.factor? name with
    | none => scope.Uncut name.toList
    | some product => ¬ scope.Uncut name.toList ∧
        scope.Decomposes name product.pieces product.expr := by
  rcases hsplit : scope.factor? name with - | product
  · exact factor?_eq_none_iff.1 hsplit
  · obtain ⟨hword, hpieces⟩ := factor?_faithful hsplit
    have huncut : ¬ scope.Uncut name.toList := fun h ↦ by
      cases hsplit.symm.trans (factor?_eq_none_iff.2 h)
    refine ⟨huncut, product.isProduct_pieces, product.flatten_pieces.trans hword,
      two_le_length_pieces hsplit, fun factor h ↦ (hpieces factor h).part_ne_nil,
      fun factor h ↦ (hpieces factor h).value?_eq, product.length_unknown_le_one,
      fun factor h ↦ (hpieces factor h).uncut, product.isConstant_expr_iff,
      fun factor hfactor hvalue ↦ ?_⟩
    -- the only unknown piece there can be
    have hmem : factor ∈ product.unknown :=
      List.mem_filter.2 ⟨hfactor, Option.isNone_iff_eq_none.2 hvalue⟩
    obtain ⟨unknown, hunknown⟩ :=
      List.length_eq_one_iff.1 (Nat.le_antisymm product.length_unknown_le_one
        (List.length_pos_of_mem hmem))
    rw [hunknown, List.mem_singleton] at hmem
    rw [product.symbols_expr, hunknown, hmem]
    rfl

/-- A known piece in front of a rest that splits again, with one piece left over. -/
example (x y : Float) : (factor? { vocabulary := { «variables» := some fun
      | "a" => some x
      | "b" => some y
      | _ => none } } "abc").map (fun product ↦ product.pieces) =
    some [⟨['a'], some x⟩, ⟨['b'], some y⟩, ⟨['c'], none⟩] := by
  cbv

end Scope

end Formulae
