import Formulae.Log
import Formulae.Scope

/-!
# Splitting names

Under implied multiplication a name that means nothing as a whole may be a product of names that
do, written without a space: `2pir` is `2 · pi · r`. A name is split by cutting it in two, taking
the part on one side as a known factor and going on with the other side. Cuts are tried from the
right end to the left, and at each cut the left part before the right one; the first known part
wins, so the outcome depends on this order and not on which known name is the longest.

The outcome is a chain of `Factors`. At most one piece is left over: the innermost one, when neither
it nor any end of it is known. A split without a leftover is **complete**, and only complete splits
count as the value of a name.

The name of a call is split differently (`Scope.scaledFunction?`): the longest end of it that names
a function is the function, and what stands before it must be a value or split completely. There is
no second choice of function if it does not.
-/

namespace Formulae

/-! ### Cuts

A cut of a name is a pair of parts that are not empty and make up the name. The two searches visit
the cuts one by one, so that a search that succeeds early costs little however long the name is. -/

section

variable {α : Type} (f : List Char → List Char → Option α)

/-- The first answer among the cuts of `before.reverse ++ after` that do not lie within `after`,
from the right end to the left. -/
def lastCutFrom? : List Char → List Char → Option α
  | [], _ => none
  | c :: before, after =>
    match f (c :: before).reverse after with
    | some a => some a
    | none => lastCutFrom? before (c :: after)

/-- The first answer among the cuts of a name, from the right end to the left. -/
def lastCut? (name : List Char) : Option α :=
  match name.reverse with
  | [] => none
  | c :: before => lastCutFrom? f before [c]

/-- The first answer among the cuts of `before.reverse ++ after` that do not lie within `before`,
from the left end to the right. -/
def firstCutFrom? (before : List Char) : List Char → Option α
  | [] => none
  | c :: after =>
    match f before.reverse (c :: after) with
    | some a => some a
    | none => firstCutFrom? (c :: before) after

/-- The first answer among the cuts of a name, from the left end to the right. -/
def firstCut? : List Char → Option α
  | [] => none
  | c :: after => firstCutFrom? f [c] after

variable {f}

private theorem cut_of_lastCutFrom? {before after : List Char} {a : α} (hafter : after ≠ [])
    (h : lastCutFrom? f before after = some a) :
    ∃ l r, l ++ r = before.reverse ++ after ∧ l ≠ [] ∧ r ≠ [] ∧ f l r = some a := by
  induction before generalizing after with
  | nil => cases h
  | cons c before ih =>
    unfold lastCutFrom? at h
    split at h
    · next hf =>
      cases h
      exact ⟨_, _, rfl, by simp, hafter, hf⟩
    · obtain ⟨l, r, heq, hrest⟩ := ih (by simp) h
      exact ⟨l, r, by simp [heq], hrest⟩

/-- An answer found from the right end is the answer at some cut. -/
theorem cut_of_lastCut? {name : List Char} {a : α} (h : lastCut? f name = some a) :
    ∃ l r, l ++ r = name ∧ l ≠ [] ∧ r ≠ [] ∧ f l r = some a := by
  unfold lastCut? at h
  split at h
  · cases h
  · next c before hname =>
    obtain ⟨l, r, heq, hrest⟩ := cut_of_lastCutFrom? (by simp) h
    refine ⟨l, r, ?_, hrest⟩
    rw [heq, ← List.reverse_cons, ← hname, List.reverse_reverse]

end

/-! ### Splits -/

/-- The splits that led to some factors, the innermost first, in front of some other events. -/
def Factors.eventsBefore : Factors → List Event → List Event
  | leftover _, later => later
  | known _ _, later => later
  | factors@(front part _ rest), later => rest.eventsBefore (.nameSplit part factors :: later)
  | factors@(back rest part _), later => rest.eventsBefore (.nameSplit part factors :: later)

/-- The splits that led to some factors, the innermost first. -/
def Factors.events (factors : Factors) : List Event :=
  factors.eventsBefore []

/-- A known part of a name and the rest, by the end at which the part stands. -/
inductive KnownEnd where
  /-- The part stands in front of the rest. -/
  | front (part : List Char) (value : Float) (rest : List Char)
  /-- The part stands behind the rest. -/
  | back (rest : List Char) (part : List Char) (value : Float)

/-- What is left of the name beside the known part. -/
def KnownEnd.rest : KnownEnd → List Char
  | front _ _ rest => rest
  | back rest _ _ => rest

section

variable (known? : List Char → Option Float)

/-- The known part at one cut; the left part is asked first. -/
def KnownEnd.ofCut? (l r : List Char) : Option KnownEnd :=
  match known? l with
  | some value => some (.front l value r)
  | none => (known? r).map (.back l r ·)

variable {known?} in
/-- A known part leaves less than the name. -/
theorem length_rest_lt_of_lastCut? {name : List Char} {part : KnownEnd}
    (h : lastCut? (KnownEnd.ofCut? known?) name = some part) :
    part.rest.length < name.length := by
  obtain ⟨l, r, rfl, hl, hr, hcut⟩ := cut_of_lastCut? h
  have hl := List.length_pos_iff.2 hl
  have hr := List.length_pos_iff.2 hr
  unfold KnownEnd.ofCut? at hcut
  split at hcut
  · cases hcut
    simp only [KnownEnd.rest, List.length_append]
    omega
  · obtain ⟨_, _, rfl⟩ := Option.map_eq_some_iff.1 hcut
    simp only [KnownEnd.rest, List.length_append]
    omega

/-- A name as a product, if any end of it is known. The rest beside a known part is split further if
it can be, even where it is known itself. -/
def factor? (name : List Char) : Option Factors :=
  match _part : lastCut? (KnownEnd.ofCut? known?) name with
  | none => none
  | some (.front part value rest) => some (.front part value (further (factor? rest) rest))
  | some (.back rest part value) => some (.back (further (factor? rest) rest) part value)
termination_by name.length
decreasing_by
  all_goals exact length_rest_lt_of_lastCut? _part
where
  /-- The factors of a rest: its split, else itself as a piece. -/
  further (split : Option Factors) (rest : List Char) : Factors :=
    match split with
    | some factors => factors
    | none =>
      match known? rest with
      | some value => .known rest value
      | none => .leftover rest

end

/-! ### Values of names -/

namespace Scope

/-- A name as a product in a scope. -/
def factor? (scope : Scope) (name : String) : Option Factors :=
  Formulae.factor? (fun part ↦ scope.value? (String.ofList part)) name.toList

/-- The value of a name as a product that leaves nothing over. -/
def product? (scope : Scope) (name : String) : Option Float :=
  (scope.factor? name).bind (·.expr.constant?)

/-- The value of a name that is known or splits completely. -/
def wholeValue? (scope : Scope) (name : String) : Option Float :=
  (scope.value? name).or (scope.product? name)

/-- The splits tried for the value of a name: none if it is known. -/
def wholeValueEvents (scope : Scope) (name : String) : List Event :=
  if (scope.value? name).isSome then [] else (scope.factor? name).elim [] Factors.events

end Scope

/-! ### Calls -/

/-- The name of a call taken apart: a factor, and the function at the end of the name, if any. -/
structure ScaledFunction where
  factor : Float
  function? : Option (String × (Float → Float))

namespace ScaledFunction

/-- The call of an argument, as the product that it stands for. -/
def expr (scaled : ScaledFunction) (argument : Expr) : Expr :=
  Operator.mul.combine (.constant scaled.factor)
    (match scaled.function? with
      | some (name, f) => .apply₁ name (some f) argument
      | none => argument)

/-- The value of the call of a number. -/
def apply (scaled : ScaledFunction) (x : Float) : Float :=
  match scaled.function? with
  | some (_, f) => scaled.factor * f x
  | none => scaled.factor * x

/-- The event of having split a name. -/
def event (scaled : ScaledFunction) (name : String) : Event :=
  match scaled.function? with
  | some (function, _) => .callSplit name scaled.factor function
  | none => .callFactor name scaled.factor

/-- A split with its structure shown. -/
def inspect (scaled : ScaledFunction) : String :=
  let function := match scaled.function? with
    | some (name, _) => "Some(" ++ quoted name ++ ")"
    | none => "None"
  "CallSplit \x7b factor: " ++ Decimal.text .marked scaled.factor ++ ", function: " ++ function ++
    " \x7d"

end ScaledFunction

namespace Scope

/-- The longest end of a name that names a function, with what stands before it. The end is never
the whole name. -/
def functionEnd? (scope : Scope) (name : String) :
    Option (String × String × (Float → Float)) :=
  firstCut? (fun l r ↦ (scope.unary? (String.ofList r)).map (String.ofList l, String.ofList r, ·))
    name.toList

/-- The name of a call as a factor and a function, or as a factor alone if no end of it names a
function. -/
def scaledFunction? (scope : Scope) (name : String) : Option ScaledFunction :=
  match scope.functionEnd? name with
  | some (before, function, f) => (scope.wholeValue? before).map (⟨·, some (function, f)⟩)
  | none => (scope.wholeValue? name).map (⟨·, none⟩)

/-- The splits tried for the name of a call, and its own split if it has one. -/
def scaledFunctionEvents (scope : Scope) (name : String) : List Event :=
  let tried := match scope.functionEnd? name with
    | some (before, _, _) => scope.wholeValueEvents before
    | none => scope.wholeValueEvents name
  tried ++ ((scope.scaledFunction? name).map (·.event name)).toList

end Scope

end Formulae
