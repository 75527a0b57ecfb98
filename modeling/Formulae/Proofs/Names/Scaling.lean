import Formulae.Proofs.Names.Factoring

/-!
# Scaled functions

The name of a call that is not a function of its own can be a number times a function, or a number
alone. Which of the two is settled first, and by the function: the longest end of the name that
names one is the function, and what stands before it has to amount to a number; only if no end
names a function, the whole name has to. An end is never tried again if that fails.

`Scope.scaledFunction?_spec` says this of every name, together with what the split is good for: the
product that it stands for has, wherever it is evaluated, the value that the split gives to the
value of its argument.

The ends that count are not empty. A vocabulary can bind the empty name, and then the empty end of
a name that has no other known end would name a function; it does not count as one
(`Scope.not_forall_scaledFunction?_of_longestEnd`).
-/

namespace Formulae

/-! ### The first answer from the left end -/

section

variable {α : Type} {f : List Char → List Char → Option α}

/-- The answer at a cut of `before.reverse ++ after` that does not lie within `before`, with no
answer at any such cut in front of it. -/
def IsFirstAnswer (f : List Char → List Char → Option α) (before after : List Char) (a : α) :
    Prop :=
  ∃ m r, m ++ r = after ∧ r ≠ [] ∧ f (before.reverse ++ m) r = some a ∧
    ∀ m' r', m' ++ r' = after → r.length < r'.length → f (before.reverse ++ m') r' = none

variable {before after : List Char} {c : Char} {a b : α}

/-- A cut without an answer can be left behind. -/
theorem isFirstAnswer_cons_of_none (hhere : f before.reverse (c :: after) = none) :
    IsFirstAnswer f before (c :: after) a ↔ IsFirstAnswer f (c :: before) after a := by
  constructor
  · rintro ⟨m, r, happend, hr, hanswer, hbefore⟩
    rcases m with - | ⟨c', m⟩
    · rw [List.nil_append] at happend
      rw [happend, List.append_nil, hhere] at hanswer
      cases hanswer
    · obtain ⟨rfl, rfl⟩ := List.cons.inj happend
      refine ⟨m, r, rfl, hr, by simpa using hanswer, fun m' r' happend hlt ↦ ?_⟩
      simpa using hbefore (c' :: m') r' (congrArg (c' :: ·) happend) hlt
  · rintro ⟨m, r, rfl, hr, hanswer, hbefore⟩
    refine ⟨c :: m, r, rfl, hr, by simpa using hanswer, fun m' r' happend hlt ↦ ?_⟩
    rcases m' with - | ⟨c', m'⟩
    · rw [List.nil_append] at happend
      rw [happend, List.append_nil]
      exact hhere
    · obtain ⟨rfl, htail⟩ := List.cons.inj happend
      simpa using hbefore m' r' htail hlt

/-- An answer at the nearest cut is in front of all the others. -/
theorem isFirstAnswer_cons_of_some (hhere : f before.reverse (c :: after) = some b) :
    IsFirstAnswer f before (c :: after) a ↔ b = a := by
  constructor
  · rintro ⟨m, r, happend, -, hanswer, hbefore⟩
    rcases m with - | ⟨c', m⟩
    · rw [List.nil_append] at happend
      rw [happend, List.append_nil, hhere] at hanswer
      exact Option.some.inj hanswer
    · have hlt : r.length < (c :: after).length := by
        rw [← happend, List.length_append, List.length_cons]
        omega
      have hnone := hbefore [] (c :: after) rfl hlt
      rw [List.append_nil, hhere] at hnone
      cases hnone
  · rintro rfl
    refine ⟨[], c :: after, rfl, List.cons_ne_nil c after, ?_, fun m' r' happend hlt ↦ ?_⟩
    · rw [List.append_nil]
      exact hhere
    · rw [← happend, List.length_append] at hlt
      omega

/-- The search from the left end finds the first answer. -/
theorem firstCutFrom?_eq_some_iff :
    firstCutFrom? f before after = some a ↔ IsFirstAnswer f before after a := by
  induction after generalizing before with
  | nil =>
    refine iff_of_false nofun ?_
    rintro ⟨m, r, happend, hr, -⟩
    exact hr (List.append_eq_nil_iff.1 happend).2
  | cons c after ih =>
    rw [firstCutFrom?]
    rcases hhere : f before.reverse (c :: after) with - | b
    · exact ih.trans (isFirstAnswer_cons_of_none hhere).symm
    · exact Option.some_inj.trans (isFirstAnswer_cons_of_some hhere).symm

/-- The answer from the left end is the one at the cut with the longest right part that has an
answer. -/
theorem firstCut?_eq_some_iff {name : List Char} :
    firstCut? f name = some a ↔ ∃ l r, l ++ r = name ∧ l ≠ [] ∧ r ≠ [] ∧ f l r = some a ∧
      ∀ l' r', l' ++ r' = name → l' ≠ [] → r.length < r'.length → f l' r' = none := by
  rcases name with - | ⟨c, after⟩
  · refine iff_of_false nofun ?_
    rintro ⟨l, r, happend, hl, -⟩
    exact hl (List.append_eq_nil_iff.1 happend).1
  · rw [firstCut?, firstCutFrom?_eq_some_iff]
    constructor
    · rintro ⟨m, r, rfl, hr, hanswer, hbefore⟩
      refine ⟨c :: m, r, rfl, List.cons_ne_nil c m, hr, hanswer, fun l' r' happend hl' hlt ↦ ?_⟩
      obtain ⟨c', m', rfl⟩ := List.exists_cons_of_ne_nil hl'
      obtain ⟨rfl, htail⟩ := List.cons.inj happend
      exact hbefore m' r' htail hlt
    · rintro ⟨l, r, happend, hl, hr, hanswer, hbefore⟩
      obtain ⟨c', m, rfl⟩ := List.exists_cons_of_ne_nil hl
      obtain ⟨rfl, rfl⟩ := List.cons.inj happend
      exact ⟨m, r, rfl, hr, hanswer, fun m' r' happend hlt ↦
        hbefore (c' :: m') r' (congrArg (c' :: ·) happend) (List.cons_ne_nil c' m') hlt⟩

end

namespace Scope

variable (scope : Scope)

/-! ### Numbers -/

/-- A name amounts to a number: it is a known variable, or its split leaves nothing over and the
number is its product. -/
inductive AmountsTo (name : String) (value : Float) : Prop where
  | known (hvalue : scope.value? name = some value)
  | product {product : Factors} (hunknown : scope.value? name = none)
      (hsplit : scope.factor? name = some product)
      (hknown : ∀ factor ∈ product.pieces, factor.value?.isSome)
      (hvalue : product.expr = .constant value)

variable {scope} {name before function : String} {f : Float → Float} {value factor : Float}
  {scaled : ScaledFunction}

theorem wholeValue?_eq_some_iff :
    scope.wholeValue? name = some value ↔ scope.AmountsTo name value := by
  rw [wholeValue?]
  rcases hknown : scope.value? name with - | x
  · rw [Option.none_or, product?, Option.bind_eq_some_iff]
    constructor
    · rintro ⟨product, hsplit, hconstant⟩
      have hvalue := Expr.constant?_eq_some_iff.1 hconstant
      refine .product hknown hsplit (product.isConstant_expr_iff.1 ?_) hvalue
      rw [hvalue]
      rfl
    · rintro (hvalue | ⟨-, hsplit, -, hvalue⟩)
      · cases hknown.symm.trans hvalue
      · exact ⟨_, hsplit, Expr.constant?_eq_some_iff.2 hvalue⟩
  · rw [Option.some_or]
    constructor
    · rintro ⟨⟩
      exact .known hknown
    · rintro (hvalue | ⟨hunknown, -⟩)
      · exact hknown.symm.trans hvalue
      · cases hknown.symm.trans hunknown

/-- What is made of the number that a name amounts to. -/
theorem map_wholeValue?_eq_some_iff {α : Type} {g : Float → α} {a : α} :
    (scope.wholeValue? name).map g = some a ↔
      ∃ value, scope.AmountsTo name value ∧ a = g value := by
  simp only [Option.map_eq_some_iff, wholeValue?_eq_some_iff, @eq_comm _ a]

/-! ### Functions -/

variable (scope name) in
/-- Two parts make up a name, the first of them not empty, and the second is the longest end of the
name there that names a function. -/
structure LongestEnd (before function : String) (f : Float → Float) : Prop where
  append_eq : before ++ function = name
  before_ne : before ≠ ""
  unary?_eq : scope.unary? function = some f
  longest : ∀ before' function', before' ++ function' = name → before' ≠ "" →
    function.length < function'.length → scope.unary? function' = none

/-- The function that is found at the end of a name is the longest one there is, if that is not
empty. -/
theorem functionEnd?_eq_some_iff :
    scope.functionEnd? name = some (before, function, f) ↔
      function ≠ "" ∧ scope.LongestEnd name before function f := by
  rw [functionEnd?, firstCut?_eq_some_iff]
  constructor
  · rintro ⟨l, r, happend, hl, hr, hanswer, hlonger⟩
    obtain ⟨f', hf, heq⟩ := Option.map_eq_some_iff.1 hanswer
    cases heq
    refine ⟨mt String.ofList_eq_empty_iff.1 hr, ?_, mt String.ofList_eq_empty_iff.1 hl, hf,
      fun before' function' hname hne hlt ↦ ?_⟩
    · rw [← String.ofList_append, happend, String.ofList_toList]
    · have hnone := hlonger before'.toList function'.toList (by rw [← hname, String.toList_append])
        (mt String.toList_eq_nil_iff.1 hne) (by rwa [String.length_toList, ← String.length_ofList])
      rwa [Option.map_eq_none_iff, String.ofList_toList] at hnone
  · rintro ⟨hfunction, rfl, hbefore, hf, hlongest⟩
    refine ⟨before.toList, function.toList, (String.toList_append).symm,
      mt String.toList_eq_nil_iff.1 hbefore, mt String.toList_eq_nil_iff.1 hfunction, ?_,
      fun l' r' happend hl' hlt ↦ ?_⟩
    · rw [String.ofList_toList, String.ofList_toList, hf]
      rfl
    · rw [Option.map_eq_none_iff]
      refine hlongest (.ofList l') (.ofList r') ?_ (mt String.ofList_eq_empty_iff.1 hl')
        (by rwa [String.length_ofList, ← String.length_toList])
      rw [← String.ofList_append, happend, String.ofList_toList]

/-- Behind a single character, no end is longer. -/
theorem longestEnd_of_length_eq_one (hbefore : before.length = 1)
    (hf : scope.unary? function = some f) :
    scope.LongestEnd (before ++ function) before function f where
  append_eq := rfl
  before_ne hempty := by
    rw [hempty] at hbefore
    cases hbefore
  unary?_eq := hf
  longest before' function' hname hne hlt := by
    have hlength := congrArg String.length hname
    have hpos : before'.length ≠ 0 := mt String.length_eq_zero_iff.1 hne
    rw [String.length_append, String.length_append] at hlength
    omega

/-- No end of a name is found to be a function exactly if none that is not empty names one. -/
theorem functionEnd?_eq_none_iff : scope.functionEnd? name = none ↔
    ∀ before function f, scope.LongestEnd name before function f → function = "" := by
  constructor
  · intro hnone before function f hend
    by_contra hfunction
    cases hnone.symm.trans (functionEnd?_eq_some_iff.2 ⟨hfunction, hend⟩)
  · intro hempty
    rcases hend : scope.functionEnd? name with - | ⟨before, function, f⟩
    · rfl
    · obtain ⟨hfunction, hend⟩ := functionEnd?_eq_some_iff.1 hend
      exact absurd (hempty _ _ _ hend) hfunction

/-- **The name of a call is split at its longest known end, and there is no second choice.** If an
end of the name that is not empty names a function, the longest such end is the function, and there
is a split exactly if what stands before it amounts to a number, which is the factor. If no such end
names a function, there is a split exactly if the whole name amounts to a number, and it has no
function. The product that a split stands for evaluates to what the split makes of the value of its
argument, and fails as the argument does. -/
theorem scaledFunction?_spec (scope : Scope) (name : String) :
    (∀ before function f, scope.LongestEnd name before function f → function ≠ "" →
      ∀ scaled, scope.scaledFunction? name = some scaled ↔
        ∃ factor, scope.AmountsTo before factor ∧ scaled = ⟨factor, some (function, f)⟩) ∧
    ((∀ before function f, scope.LongestEnd name before function f → function = "") →
      ∀ scaled, scope.scaledFunction? name = some scaled ↔
        ∃ factor, scope.AmountsTo name factor ∧ scaled = ⟨factor, none⟩) ∧
    ∀ scaled, scope.scaledFunction? name = some scaled → ∀ (late : Scope) (argument : Expr),
      (∀ x, evaluate late argument = .ok x →
        evaluate late (scaled.expr argument) = .ok (scaled.apply x)) ∧
      ∀ u, evaluate late argument = .error u → evaluate late (scaled.expr argument) = .error u := by
  refine ⟨fun before function f hend hfunction scaled ↦ ?_, fun hempty scaled ↦ ?_,
    fun scaled _ late argument ↦ ?_⟩
  · rw [scaledFunction?, functionEnd?_eq_some_iff.2 ⟨hfunction, hend⟩]
    exact map_wholeValue?_eq_some_iff
  · rw [scaledFunction?, functionEnd?_eq_none_iff.2 hempty]
    exact map_wholeValue?_eq_some_iff
  · rw [evaluate_scaledFunction]
    refine ⟨fun x hx ↦ ?_, fun u hu ↦ ?_⟩
    · rw [hx]
      rfl
    · rw [hu]
      rfl

/-- The name `bsin` is twice the sine where `b` is two. Its sine is longer than any other end that
leaves something in front of it. -/
theorem scaledFunction?_spec_bsin :
    let scope : Scope := { vocabulary := { «variables» := some fun
      | "b" => some 2
      | _ => none } }
    scope.LongestEnd "bsin" "b" "sin" Float.sin ∧ scope.AmountsTo "b" 2 ∧
      scope.scaledFunction? "bsin" = some ⟨2, some ("sin", Float.sin)⟩ := by
  intro scope
  have hsine : scope.unary? "sin" = some Float.sin := by cbv
  have hend : scope.LongestEnd ("b" ++ "sin") "b" "sin" Float.sin :=
    longestEnd_of_length_eq_one rfl hsine
  have hfactor : scope.AmountsTo "b" 2 := .known (by cbv)
  exact ⟨hend, hfactor, ((scaledFunction?_spec scope "bsin").1 _ _ _ hend (by decide) _).2
    ⟨2, hfactor, rfl⟩⟩

/-- The empty end of a name is not a function, even where the empty name is bound: with squaring
bound to it, `a` is still only a number in front of an argument. -/
theorem not_forall_scaledFunction?_of_longestEnd :
    ¬ ∀ (scope : Scope) (name before function : String) (f : Float → Float),
      scope.LongestEnd name before function f → ∀ scaled, scope.scaledFunction? name = some scaled ↔
        ∃ factor, scope.AmountsTo before factor ∧ scaled = ⟨factor, some (function, f)⟩ := by
  intro h
  let scope : Scope := { vocabulary := {
    «variables» := some fun
      | "a" => some 2
      | _ => none
    unary := some fun
      | "" => some fun x ↦ x * x
      | _ => none } }
  have hsquare : scope.unary? "" = some fun x ↦ x * x := by cbv
  have hend : scope.LongestEnd ("a" ++ "") "a" "" fun x ↦ x * x :=
    longestEnd_of_length_eq_one rfl hsquare
  have hscaled : scope.scaledFunction? "a" = some ⟨2, none⟩ := by
    cbv
  obtain ⟨factor, -, ⟨⟩⟩ := (h scope "a" "a" "" _ hend ⟨2, none⟩).1 hscaled

end Scope

end Formulae
