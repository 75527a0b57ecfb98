import Formulae.Expr
import Std.Data.TreeSet

/-!
# Open names

What a tree leaves to be resolved is a list of **symbols** — a name with the role it is used in —
in the order in which evaluation asks for them and as often as it does (`Expr.symbols`). The sets of
names that are reported (`OpenNames`) are a view of that list.

There is one reason for which a tree has no value: some symbol of it means nothing. The error
**is** that symbol (`Unbound`), so a caller can bind it and evaluate again.
-/

namespace Formulae

/-- What a name is used as. -/
inductive Role where
  /-- A number. -/
  | variable
  /-- A function of one argument. -/
  | unary
  /-- A function of two arguments. -/
  | binary
deriving DecidableEq

/-- A name in one of its roles. -/
structure Symbol where
  role : Role
  name : String
deriving DecidableEq

namespace Expr

/-- The symbols of a tree in front of some others: an unbound call's own before those of its
arguments, and those of the first argument before those of the second. -/
def symbolsBefore : Expr → List Symbol → List Symbol
  | constant _, later => later
  | var name, later => ⟨.variable, name⟩ :: later
  | call₁ none name argument, later => ⟨.unary, name⟩ :: argument.symbolsBefore later
  | call₁ (some _) _ argument, later => argument.symbolsBefore later
  | call₂ none name first second, later =>
    ⟨.binary, name⟩ :: first.symbolsBefore (second.symbolsBefore later)
  | call₂ (some _) _ first second, later => first.symbolsBefore (second.symbolsBefore later)

/-- The symbols that a tree leaves to be resolved. -/
def symbols (e : Expr) : List Symbol :=
  e.symbolsBefore []

/-- The symbols in front of others are the symbols, and then the others. -/
theorem symbolsBefore_eq_append (e : Expr) (later : List Symbol) :
    e.symbolsBefore later = e.symbols ++ later := by
  induction e generalizing later with
  | constant => rfl
  | var => rfl
  | call₁ f? name argument ih =>
    cases f? <;>
      · simp only [symbols, symbolsBefore]
        rw [ih later]
        rfl
  | call₂ f? name first second ih₁ ih₂ =>
    cases f? <;>
      · simp only [symbols, symbolsBefore]
        rw [ih₂ later, ih₁ (second.symbols ++ later), ih₁ (second.symbolsBefore [])]
        simp [symbols]

end Expr

/-! ### Sets of names -/

/-- The names that a tree leaves open, by role. -/
structure OpenNames where
  «variables» : Std.TreeSet String := ∅
  unary : Std.TreeSet String := ∅
  binary : Std.TreeSet String := ∅

namespace OpenNames

/-- One more open name. -/
def insert (names : OpenNames) : Symbol → OpenNames
  | ⟨.variable, name⟩ => { names with «variables» := names.«variables».insert name }
  | ⟨.unary, name⟩ => { names with unary := names.unary.insert name }
  | ⟨.binary, name⟩ => { names with binary := names.binary.insert name }

/-- The names of some symbols, by role. -/
def ofSymbols (symbols : List Symbol) : OpenNames :=
  symbols.foldl insert {}

/-- The names used in a role. -/
def ofRole (names : OpenNames) : Role → Std.TreeSet String
  | .variable => names.«variables»
  | .unary => names.unary
  | .binary => names.binary

/-- Nothing is left open. -/
def isEmpty (names : OpenNames) : Bool :=
  names.«variables».isEmpty && names.unary.isEmpty && names.binary.isEmpty

/-- Inserting a symbol adds its name to the names of its role, and to no others. -/
theorem mem_ofRole_insert {names : OpenNames} {s t : Symbol} :
    t.name ∈ (names.insert s).ofRole t.role ↔ s = t ∨ t.name ∈ names.ofRole t.role := by
  rcases s with ⟨_ | _ | _, name⟩ <;> rcases t with ⟨_ | _ | _, name'⟩ <;>
    simp [insert, ofRole, Std.TreeSet.mem_insert]

/-- A set of names between braces. -/
def setText (names : Std.TreeSet String) : String :=
  "\x7b" ++ ", ".intercalate (names.toList.map quoted) ++ "\x7d"

/-- The open names with their structure shown. -/
def inspect (names : OpenNames) : String :=
  "Unresolved \x7b variables: " ++ setText names.«variables» ++ ", unary_functions: " ++
    setText names.unary ++ ", binary_functions: " ++ setText names.binary ++ " \x7d"

end OpenNames

/-- The names that a tree leaves open. -/
def Expr.openNames (e : Expr) : OpenNames :=
  .ofSymbols e.symbols

/-! ### Unbound symbols -/

/-- A tree has no value because a symbol means nothing. -/
structure Unbound where
  /-- The first such symbol. -/
  symbol : Symbol
deriving DecidableEq

namespace Unbound

/-- What a name that was not found would have been. -/
def kindText : Role → String
  | .variable => "Variable"
  | .unary => "Function"
  | .binary => "Function"

/-- The report of an unbound symbol in one line. -/
def message (u : Unbound) : String :=
  kindText u.symbol.role ++ " '" ++ u.symbol.name ++ "' not found"

end Unbound

end Formulae
