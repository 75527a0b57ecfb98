import Formulae.Standard
import Formulae.Text.Quoted

/-!
# Scopes

What names mean. A caller gives meanings in **tables**, one for each role a name can have, and may
leave any of them out; the tables together are a `Vocabulary`. A scope looks a name up in two
vocabularies and then among the standard names, and the first answer counts. A table can therefore
change the meaning of a name but never take it away.

The two vocabularies differ in their life time: one goes with a formula from the moment it is
parsed, the other, the **overrides**, is given for one evaluation. Whether a table is *set* is kept
apart from what it binds, since it is visible in a formula's structure.
-/

namespace Formulae

/-- Tables for the three roles of names. -/
structure Vocabulary where
  «variables» : Option (Table Float) := none
  unary : Option (Table (Float → Float)) := none
  binary : Option (Table (Float → Float → Float)) := none

namespace Vocabulary

/-- The value of a variable. -/
def value? (vocabulary : Vocabulary) (name : String) : Option Float :=
  vocabulary.«variables».bind (· name)

/-- The function of one argument of a name. -/
def unary? (vocabulary : Vocabulary) (name : String) : Option (Float → Float) :=
  vocabulary.unary.bind (· name)

/-- The function of two arguments of a name. -/
def binary? (vocabulary : Vocabulary) (name : String) : Option (Float → Float → Float) :=
  vocabulary.binary.bind (· name)

/-- The vocabulary of a single variable. -/
def single (name : String) (value : Float) : Vocabulary where
  «variables» := some fun asked ↦ if asked = name then some value else none

/-- Which tables are set, with their structure shown. -/
def inspect (vocabulary : Vocabulary) : String :=
  "Tables \x7b variables: " ++ flagText vocabulary.«variables».isSome ++ ", unary_functions: " ++
    flagText vocabulary.unary.isSome ++ ", binary_functions: " ++
    flagText vocabulary.binary.isSome ++ " \x7d"

end Vocabulary

/-- Everything that names are resolved against. -/
structure Scope where
  /-- The vocabulary of one evaluation, consulted first. -/
  overrides : Vocabulary := {}
  /-- The vocabulary of the formula. -/
  vocabulary : Vocabulary := {}
  /-- Whether a name that means nothing may be split into names that do. -/
  implied : Bool := false

namespace Scope

/-- The value that is given to a variable. -/
def value? (scope : Scope) (name : String) : Option Float :=
  (scope.overrides.value? name).or ((scope.vocabulary.value? name).or (Standard.value? name))

/-- The function of one argument that is given to a name. -/
def unary? (scope : Scope) (name : String) : Option (Float → Float) :=
  (scope.overrides.unary? name).or ((scope.vocabulary.unary? name).or (Standard.unary? name))

/-- The function of two arguments that is given to a name. -/
def binary? (scope : Scope) (name : String) : Option (Float → Float → Float) :=
  (scope.overrides.binary? name).or ((scope.vocabulary.binary? name).or (Standard.binary? name))

end Scope

end Formulae
