import Formulae.Evaluation

/-!
# Gaps

A tree has a value in a scope exactly when every name that it leaves open means something there, and
if one does not, the first of them is reported. Collecting the open names and evaluating are two
recursions on the tree, and only the second one looks at the scope; what ties them is the order of
`Expr.symbols`, which is the order in which evaluation asks.

A symbol that means nothing is a **gap**. An outcome `Accounts` for a list of symbols if it is a
number and the list has no gap, or if it is the error of the first gap of the list. Outcomes are put
together as the lists are (`Accounts.cons`, `Accounts.bind`), so the induction on the tree has
nothing left to do but to name the rule for each constructor.
-/

namespace Formulae

/-! ### Symbols that mean something -/

/-- A symbol means something in a scope. A name of a variable is known, or splits completely where
splitting is allowed; a name of a function of one argument is known, or its call splits where
splitting is allowed; a name of a function of two arguments is known. -/
def Scope.Resolves (scope : Scope) : Symbol → Prop
  | ⟨.variable, name⟩ =>
    (∃ value, scope.value? name = some value) ∨
      scope.implied = true ∧ ∃ factors value, scope.factor? name = some factors ∧
        factors.expr = .constant value
  | ⟨.unary, name⟩ =>
    (∃ f, scope.unary? name = some f) ∨
      scope.implied = true ∧ ∃ scaled, scope.scaledFunction? name = some scaled
  | ⟨.binary, name⟩ => ∃ f, scope.binary? name = some f

namespace Scope

variable {scope : Scope} {name : String}

/-- A name of a variable means something if evaluation finds a number for it. -/
theorem resolves_variable_iff :
    scope.Resolves ⟨.variable, name⟩ ↔ ∃ value, scope.number? name = some value := by
  rw [Resolves, number?]
  rcases scope.value? name with - | value
  · rcases himplied : scope.implied with - | -
    · simp
    · -- the value is that of a complete split
      simp only [product?, Option.bind_eq_some_iff, Expr.constant?_eq_some_iff, Option.none_or,
        reduceCtorEq, exists_false, false_or, true_and, if_true]
      exact exists_comm
  · simp

/-- A name of a function of one argument means something if evaluation finds a function for it. -/
theorem resolves_unary_iff :
    scope.Resolves ⟨.unary, name⟩ ↔ ∃ f, scope.function? name = some f := by
  rw [Resolves, function?]
  rcases scope.unary? name with - | f
  · rcases himplied : scope.implied with - | -
    · simp [impliedFunction?, himplied]
    · rw [impliedFunction?, himplied]
      rcases scope.scaledFunction? name with - | scaled <;> simp
  · simp

theorem resolves_binary_iff :
    scope.Resolves ⟨.binary, name⟩ ↔ ∃ f, scope.binary? name = some f := Iff.rfl

theorem not_resolves_variable (h : scope.number? name = none) :
    ¬ scope.Resolves ⟨.variable, name⟩ := by
  rw [resolves_variable_iff, h]
  rintro ⟨_, ⟨⟩⟩

theorem not_resolves_unary (h : scope.function? name = none) :
    ¬ scope.Resolves ⟨.unary, name⟩ := by
  rw [resolves_unary_iff, h]
  rintro ⟨_, ⟨⟩⟩

theorem not_resolves_binary (h : scope.binary? name = none) :
    ¬ scope.Resolves ⟨.binary, name⟩ := by
  rw [resolves_binary_iff, h]
  rintro ⟨_, ⟨⟩⟩

end Scope

/-! ### The symbols of a tree -/

namespace Expr

variable (name : String) (argument first second : Expr)

@[simp] theorem symbols_constant (value : Float) : (constant value).symbols = [] := rfl

@[simp] theorem symbols_var : (var name).symbols = [⟨.variable, name⟩] := rfl

/-- A name that is open stands in front of what its argument leaves open. -/
@[simp] theorem symbols_call₁_none :
    (call₁ none name argument).symbols = ⟨.unary, name⟩ :: argument.symbols := rfl

@[simp] theorem symbols_call₁_some (f : Float → Float) :
    (call₁ (some f) name argument).symbols = argument.symbols := rfl

/-- A name that is open stands in front of what its arguments leave open, from left to right. -/
@[simp] theorem symbols_call₂_none :
    (call₂ none name first second).symbols =
      ⟨.binary, name⟩ :: (first.symbols ++ second.symbols) :=
  congrArg (List.cons (⟨.binary, name⟩ : Symbol)) (first.symbolsBefore_eq_append second.symbols)

@[simp] theorem symbols_call₂_some (f : Float → Float → Float) :
    (call₂ (some f) name first second).symbols = first.symbols ++ second.symbols :=
  first.symbolsBefore_eq_append second.symbols

end Expr

/-! ### Sets of open names -/

/-- Inserting symbols one after the other keeps every one of them, in its role. -/
theorem OpenNames.mem_ofRole_foldl {symbols : List Symbol} {names : OpenNames} {s : Symbol} :
    s.name ∈ (symbols.foldl insert names).ofRole s.role ↔
      s ∈ symbols ∨ s.name ∈ names.ofRole s.role := by
  induction symbols generalizing names with
  | nil => simp
  | cons t rest ih =>
    rw [List.foldl_cons, ih, mem_ofRole_insert, List.mem_cons]
    -- one symbol was inserted first, and the others after it
    constructor
    · rintro (hrest | rfl | hnames)
      · exact .inl (.inr hrest)
      · exact .inl (.inl rfl)
      · exact .inr hnames
    · rintro ((rfl | hrest) | hnames)
      · exact .inr (.inl rfl)
      · exact .inl hrest
      · exact .inr (.inr hnames)

/-- A name is open in a role exactly when the tree has it as a symbol of that role. -/
theorem Expr.mem_openNames_iff {e : Expr} {s : Symbol} :
    s.name ∈ e.openNames.ofRole s.role ↔ s ∈ e.symbols := by
  have hempty : ¬ s.name ∈ ({} : OpenNames).ofRole s.role := by
    rcases s with ⟨- | - | -, name⟩ <;> simp [OpenNames.ofRole]
  rw [Expr.openNames, OpenNames.ofSymbols, OpenNames.mem_ofRole_foldl, or_iff_left hempty]

/-! ### The first gap -/

/-- The first symbol of a list that means nothing in a scope. -/
def Scope.FirstGap (scope : Scope) (symbols : List Symbol) (s : Symbol) : Prop :=
  ∃ before after, symbols = before ++ s :: after ∧ (∀ t ∈ before, scope.Resolves t) ∧
    ¬ scope.Resolves s

namespace Scope

variable {scope : Scope} {symbols later : List Symbol} {s t : Symbol}

/-- A gap in front is the first one. -/
theorem firstGap_head (h : ¬ scope.Resolves s) : scope.FirstGap (s :: symbols) s :=
  ⟨[], symbols, rfl, nofun, h⟩

/-- The first gap stays the first one behind a symbol that means something. -/
theorem FirstGap.cons (h : scope.FirstGap symbols s) (ht : scope.Resolves t) :
    scope.FirstGap (t :: symbols) s := by
  obtain ⟨before, after, rfl, hbefore, hs⟩ := h
  exact ⟨t :: before, after, rfl, List.forall_mem_cons.2 ⟨ht, hbefore⟩, hs⟩

/-- What comes later is not looked at. -/
theorem FirstGap.append (h : scope.FirstGap symbols s) (later : List Symbol) :
    scope.FirstGap (symbols ++ later) s := by
  obtain ⟨before, after, rfl, hbefore, hs⟩ := h
  exact ⟨before, after ++ later, List.append_assoc .., hbefore, hs⟩

/-- Nor does it matter how many symbols mean something before the first gap. -/
theorem FirstGap.append_left (h : scope.FirstGap later s)
    (hsymbols : ∀ t ∈ symbols, scope.Resolves t) : scope.FirstGap (symbols ++ later) s := by
  obtain ⟨before, after, rfl, hbefore, hs⟩ := h
  refine ⟨symbols ++ before, after, (List.append_assoc ..).symm, fun t ht ↦ ?_, hs⟩
  exact (List.mem_append.1 ht).elim (hsymbols t) (hbefore t)

/-- Where there is a first gap, not every symbol means something. -/
theorem FirstGap.not_forall (h : scope.FirstGap symbols s) :
    ¬ ∀ t ∈ symbols, scope.Resolves t := by
  obtain ⟨before, after, rfl, -, hs⟩ := h
  exact fun hall ↦ hs (hall s (List.mem_append_right _ List.mem_cons_self))

/-- There is one first gap, at most. -/
theorem FirstGap.unique (h : scope.FirstGap symbols s) (h' : scope.FirstGap symbols t) : t = s := by
  induction symbols with
  | nil =>
    obtain ⟨before, after, heq, -⟩ := h
    exact absurd heq.symm (List.append_ne_nil_of_right_ne_nil _ (List.cons_ne_nil _ _))
  | cons head rest ih =>
    obtain ⟨before, after, heq, hbefore, hs⟩ := h
    obtain ⟨before', after', heq', hbefore', ht⟩ := h'
    -- If one gap stands in front, the other cannot come later.
    rcases before with - | ⟨head, before⟩ <;> rcases before' with - | ⟨head', before'⟩
    · cases heq
      cases heq'
      rfl
    · cases heq
      cases heq'
      exact absurd (hbefore' _ List.mem_cons_self) hs
    · cases heq
      cases heq'
      exact absurd (hbefore _ List.mem_cons_self) ht
    · cases heq
      obtain ⟨-, heq'⟩ := List.cons.inj heq'
      exact ih ⟨before, after, rfl, fun t ht ↦ hbefore t (List.mem_cons_of_mem _ ht), hs⟩
        ⟨before', after', heq', fun t ht ↦ hbefore' t (List.mem_cons_of_mem _ ht), ht⟩

/-! ### Outcomes -/

/-- The outcome is a number and no symbol is a gap, or it is the error of the first gap. -/
def Accounts (scope : Scope) (symbols : List Symbol) : Except Unbound Float → Prop
  | .ok _ => ∀ s ∈ symbols, scope.Resolves s
  | .error u => scope.FirstGap symbols u.symbol

variable {outcome : Except Unbound Float}

theorem accounts_ok (scope : Scope) (value : Float) : scope.Accounts [] (.ok value) := nofun

/-- The error of a gap in front accounts for everything behind it. -/
theorem accounts_gap (hs : ¬ scope.Resolves s) : scope.Accounts (s :: symbols) (.error ⟨s⟩) :=
  firstGap_head hs

/-- A symbol that means something can be asked for first. -/
theorem Accounts.cons (h : scope.Accounts symbols outcome) (ht : scope.Resolves t) :
    scope.Accounts (t :: symbols) outcome := by
  match outcome, h with
  | .ok _, hall => exact List.forall_mem_cons.2 ⟨ht, hall⟩
  | .error _, hgap => exact FirstGap.cons hgap ht

/-- Nothing is asked for when something is done with the number. -/
theorem Accounts.map (h : scope.Accounts symbols outcome) (f : Float → Float) :
    scope.Accounts symbols (outcome.map f) := by
  match outcome, h with
  | .ok _, hall => exact hall
  | .error _, hgap => exact hgap

/-- The second outcome is asked for only if there is no gap before it. -/
theorem Accounts.bind {k : Float → Except Unbound Float} (h : scope.Accounts symbols outcome)
    (hk : ∀ x, scope.Accounts later (k x)) : scope.Accounts (symbols ++ later) (outcome >>= k) := by
  match outcome, h with
  | .error _, hgap => exact FirstGap.append hgap later
  | .ok x, hall =>
    show scope.Accounts (symbols ++ later) (k x)
    match k x, hk x with
    | .ok _, hall' => exact fun s hs ↦ (List.mem_append.1 hs).elim (hall s) (hall' s)
    | .error _, hgap => exact FirstGap.append_left hgap hall

/-- An outcome that accounts for some symbols is a number exactly when none of them is a gap. -/
theorem Accounts.exists_ok_iff (h : scope.Accounts symbols outcome) :
    (∃ value, outcome = .ok value) ↔ ∀ s ∈ symbols, scope.Resolves s := by
  match outcome, h with
  | .ok value, hall => exact ⟨fun _ ↦ hall, fun _ ↦ ⟨value, rfl⟩⟩
  | .error u, hgap =>
    refine ⟨?_, fun hall ↦ absurd hall (FirstGap.not_forall hgap)⟩
    rintro ⟨_, ⟨⟩⟩

/-- And it is an error exactly when that is the error of the first gap. -/
theorem Accounts.eq_error_iff (h : scope.Accounts symbols outcome) {u : Unbound} :
    outcome = .error u ↔ scope.FirstGap symbols u.symbol := by
  match outcome, h with
  | .ok value, hall => exact ⟨nofun, fun hgap ↦ absurd hall (FirstGap.not_forall hgap)⟩
  | .error u', hgap =>
    refine ⟨fun heq ↦ ?_, fun hgap' ↦ ?_⟩
    · cases heq
      exact hgap
    · obtain ⟨s⟩ := u
      obtain ⟨s'⟩ := u'
      rw [show s = s' from FirstGap.unique hgap hgap']

end Scope

/-! ### Values of trees -/

/-- Evaluation asks for the symbols of a tree in their order, and for nothing behind the first
gap. -/
theorem accounts_evaluate (scope : Scope) (e : Expr) :
    scope.Accounts e.symbols (evaluate scope e) := by
  induction e with
  | constant value => exact scope.accounts_ok value
  | var name =>
    rw [evaluate]
    rcases hname : scope.number? name with - | value
    · exact Scope.accounts_gap (Scope.not_resolves_variable hname)
    · exact (scope.accounts_ok value).cons (Scope.resolves_variable_iff.2 ⟨value, hname⟩)
  | call₁ f? name argument ih =>
    rw [evaluate]
    rcases f? with - | f
    · rw [Option.none_or, Expr.symbols_call₁_none]
      rcases hname : scope.function? name with - | f
      · exact Scope.accounts_gap (Scope.not_resolves_unary hname)
      · exact (ih.map f).cons (Scope.resolves_unary_iff.2 ⟨f, hname⟩)
    · exact ih.map f
  | call₂ f? name first second ih₁ ih₂ =>
    -- a function that is found goes through the arguments from left to right
    have harguments (f : Float → Float → Float) :
        scope.Accounts (first.symbols ++ second.symbols) (do
          let x ← evaluate scope first
          let y ← evaluate scope second
          return f x y) :=
      ih₁.bind fun x ↦ ih₂.map (f x)
    rw [evaluate]
    rcases f? with - | f
    · rw [Option.none_or, Expr.symbols_call₂_none]
      rcases hname : scope.binary? name with - | f
      · exact Scope.accounts_gap (Scope.not_resolves_binary hname)
      · exact (harguments f).cons (Scope.resolves_binary_iff.2 ⟨f, hname⟩)
    · rw [Option.some_or, Expr.symbols_call₂_some]
      exact harguments f

/-- **The open names are a correct check, and the first gap is reported.** A tree has a value in a
scope exactly when all its open names mean something there, each in its role. Otherwise evaluation
reports the first symbol of the tree that means nothing. -/
theorem evaluate_reports_first_gap (scope : Scope) (e : Expr) :
    ((∃ value, evaluate scope e = .ok value) ↔
      ∀ s : Symbol, s.name ∈ e.openNames.ofRole s.role → scope.Resolves s) ∧
    ∀ u : Unbound, evaluate scope e = .error u ↔
      ∃ before after, e.symbols = before ++ u.symbol :: after ∧
        (∀ s ∈ before, scope.Resolves s) ∧ ¬ scope.Resolves u.symbol := by
  have haccounts := accounts_evaluate scope e
  refine ⟨?_, fun u ↦ haccounts.eq_error_iff⟩
  rw [haccounts.exists_ok_iff]
  exact forall_congr' fun s ↦ by rw [Expr.mem_openNames_iff]

end Formulae
