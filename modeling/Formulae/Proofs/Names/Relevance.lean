import Formulae.Proofs.Names.Factoring
import Formulae.Proofs.Names.Repair
import Formulae.Proofs.Parse.Limit
import Formulae.Proofs.RoundTrip.Settled

/-!
# The names that matter

A text asks for the names that are written in it and, where names may be split, for parts of them.
No table is ever asked for anything else, neither while the text is parsed nor when its tree is
evaluated, so two vocabularies that agree on these names cannot be told apart by the text
(`Settings.outcome_congr`).

Every look-up is traced back to a word of the text. A search for a cut asks for the parts that the
cuts of a name have, a split goes on with such a part, and so all that is asked of a word are its
parts (`Scope.AgreesFor`). The names of a tree are words of the text again. A split function keeps
its own name in the tree, but it is bound, and nobody asks for the name of a bound call.

A word is made of characters of names, and so is every part of it. To bind the empty name, or a name
with a blank or a glyph in it, is therefore of no effect.
-/

namespace Formulae

/-! ### Searches and splits -/

section

variable {α : Type} {f g : List Char → List Char → Option α} {before after name : List Char}

theorem lastCutFrom?_congr (hafter : after ≠ [])
    (h : ∀ l r, l ++ r = before.reverse ++ after → l ≠ [] → r ≠ [] → f l r = g l r) :
    lastCutFrom? f before after = lastCutFrom? g before after := by
  induction before generalizing after with
  | nil => rfl
  | cons c before ih =>
    have hhere := h (c :: before).reverse after rfl (by simp) hafter
    have hlater := ih (List.cons_ne_nil c after) fun l r heq ↦ h l r (by simp [heq])
    rw [lastCutFrom?, lastCutFrom?, hhere, hlater]

/-- A search from the right end asks only about the cuts of the name. -/
theorem lastCut?_congr (h : ∀ l r, l ++ r = name → l ≠ [] → r ≠ [] → f l r = g l r) :
    lastCut? f name = lastCut? g name := by
  unfold lastCut?
  split
  · rfl
  · next c before hname =>
    have hname : name = before.reverse ++ [c] := by
      rw [← List.reverse_cons, ← hname, List.reverse_reverse]
    exact lastCutFrom?_congr (List.cons_ne_nil c []) (hname ▸ h)

theorem firstCutFrom?_congr
    (h : ∀ l r, l ++ r = before.reverse ++ after → r ≠ [] → f l r = g l r) :
    firstCutFrom? f before after = firstCutFrom? g before after := by
  induction after generalizing before with
  | nil => rfl
  | cons c after ih =>
    have hhere := h before.reverse (c :: after) rfl (List.cons_ne_nil c after)
    have hlater := @ih (c :: before) fun l r heq ↦ h l r (by simp [heq])
    rw [firstCutFrom?, firstCutFrom?, hhere, hlater]

/-- A search from the left end asks only about the cuts of the name. -/
theorem firstCut?_congr (h : ∀ l r, l ++ r = name → r ≠ [] → f l r = g l r) :
    firstCut? f name = firstCut? g name := by
  rcases name with - | ⟨c, after⟩
  · rfl
  · exact firstCutFrom?_congr h

end

section

variable {known? known?' : List Char → Option Float}

theorem further_congr {rest : List Char} (h : known? rest = known?' rest)
    (split : Option Factors) :
    factor?.further known? split rest = factor?.further known?' split rest := by
  rw [factor?.further.eq_def, factor?.further.eq_def, h]

/-- The first step of a split asks only for the parts of cuts. -/
theorem lastCut?_ofCut?_congr {name : List Char}
    (h : ∀ part, part ≠ [] → part <:+: name → known? part = known?' part) :
    lastCut? (KnownEnd.ofCut? known?) name = lastCut? (KnownEnd.ofCut? known?') name := by
  refine lastCut?_congr ?_
  rintro l r rfl hl hr
  rw [KnownEnd.ofCut?, KnownEnd.ofCut?, h l hl (List.prefix_append l r).isInfix,
    h r hr (List.suffix_append l r).isInfix]

/-- A split asks only for parts of the name. -/
theorem factor?_congr {name : List Char}
    (h : ∀ part, part ≠ [] → part <:+: name → known? part = known?' part) :
    factor? known? name = factor? known?' name := by
  fun_induction factor? known? name with
  | case1 name hpart =>
    exact (factor?_of_none ((lastCut?_ofCut?_congr h).symm.trans hpart)).symm
  | case2 name part value rest hpart ih =>
    rw [factor?_of_front ((lastCut?_ofCut?_congr h).symm.trans hpart)]
    obtain ⟨l, r, rfl, -, hr, hcut⟩ := cut_of_lastCut? hpart
    obtain ⟨rfl, rfl, -⟩ := KnownEnd.ofCut?_eq_front hcut
    have hrest : r <:+: l ++ r := (List.suffix_append l r).isInfix
    rw [further_congr (h r hr hrest), ih fun part hne hpart ↦ h part hne (hpart.trans hrest)]
  | case3 name rest part value hpart ih =>
    rw [factor?_of_back ((lastCut?_ofCut?_congr h).symm.trans hpart)]
    obtain ⟨l, r, rfl, hl, -, hcut⟩ := cut_of_lastCut? hpart
    obtain ⟨rfl, rfl, -⟩ := KnownEnd.ofCut?_eq_back hcut
    have hrest : l <:+: l ++ r := (List.prefix_append l r).isInfix
    rw [further_congr (h l hl hrest), ih fun part hne hpart ↦ h part hne (hpart.trans hrest)]

end

/-! ### Meanings of names -/

/-- What may be asked for in place of a word: the word itself and, where names may be split, the
parts of it. -/
def Asks (implied : Bool) (word name : String) : Prop :=
  name = word ∨ implied = true ∧ name ≠ "" ∧ name.toList <:+: word.toList

/-- Two scopes mean the same by whatever may be asked for in place of a word. -/
structure Scope.AgreesFor (left right : Scope) (word : String) : Prop where
  implied_eq : left.implied = right.implied
  value?_eq : ∀ name, Asks left.implied word name → left.value? name = right.value? name
  unary?_eq : ∀ name, Asks left.implied word name → left.unary? name = right.unary? name
  binary?_eq : ∀ name, Asks left.implied word name → left.binary? name = right.binary? name

namespace Scope.AgreesFor

variable {left right : Scope} {word name : String}

theorem asks_self (implied : Bool) (word : String) : Asks implied word word := .inl rfl

theorem asks_ofList {part : List Char} (himplied : left.implied = true) (hpart : part ≠ [])
    (hwithin : part <:+: word.toList) : Asks left.implied word (String.ofList part) := by
  refine .inr ⟨himplied, fun hnil ↦ hpart ?_, ?_⟩
  · rw [← @String.toList_ofList part, hnil]
    rfl
  · rwa [String.toList_ofList]

theorem factor?_eq (h : left.AgreesFor right word) (himplied : left.implied = true)
    (hname : name.toList <:+: word.toList) : left.factor? name = right.factor? name :=
  factor?_congr fun _ hpart hwithin ↦
    h.value?_eq _ (asks_ofList himplied hpart (hwithin.trans hname))

theorem product?_eq (h : left.AgreesFor right word) (himplied : left.implied = true)
    (hname : name.toList <:+: word.toList) : left.product? name = right.product? name := by
  rw [product?, product?, h.factor?_eq himplied hname]

theorem wholeValue?_eq (h : left.AgreesFor right word) (himplied : left.implied = true)
    (hname : Asks left.implied word name) : left.wholeValue? name = right.wholeValue? name := by
  have hwithin : name.toList <:+: word.toList := by
    obtain rfl | ⟨-, -, hwithin⟩ := hname
    · exact List.infix_refl _
    · exact hwithin
  rw [wholeValue?, wholeValue?, h.value?_eq name hname, h.product?_eq himplied hwithin]

theorem functionEnd?_eq (h : left.AgreesFor right word) (himplied : left.implied = true) :
    left.functionEnd? word = right.functionEnd? word := by
  refine firstCut?_congr fun l r heq hr ↦ ?_
  rw [h.unary?_eq _ (asks_ofList himplied hr (heq ▸ (List.suffix_append l r).isInfix))]

theorem scaledFunction?_eq (h : left.AgreesFor right word) (himplied : left.implied = true) :
    left.scaledFunction? word = right.scaledFunction? word := by
  rw [scaledFunction?, scaledFunction?, h.functionEnd?_eq himplied]
  rcases hend : right.functionEnd? word with - | ⟨before, function, f⟩
  · rw [h.wholeValue?_eq himplied (asks_self _ word)]
  · -- what stands before the function is a part of the word as well
    obtain ⟨l, r, hcut, hl, -, hanswer, -⟩ := firstCut?_eq_some_iff.1 hend
    obtain ⟨_, -, ⟨⟩⟩ := Option.map_eq_some_iff.1 hanswer
    have hasks : Asks left.implied word (String.ofList l) :=
      asks_ofList himplied hl (hcut ▸ (List.prefix_append l r).isInfix)
    simp only [h.wholeValue?_eq himplied hasks]

theorem impliedFunction?_eq (h : left.AgreesFor right word) :
    left.impliedFunction? word = right.impliedFunction? word := by
  rw [impliedFunction?, impliedFunction?, ← h.implied_eq]
  split
  · next himplied => exact h.scaledFunction?_eq himplied
  · rfl

theorem number?_eq (h : left.AgreesFor right word) : left.number? word = right.number? word := by
  rw [number?, number?, ← h.implied_eq, h.value?_eq _ (asks_self _ word)]
  split
  · next himplied => rw [h.product?_eq himplied (List.infix_refl _)]
  · rfl

theorem function?_eq (h : left.AgreesFor right word) :
    left.function? word = right.function? word := by
  rw [function?, function?, h.unary?_eq _ (asks_self _ word), h.impliedFunction?_eq]

/-- Such a word is represented in the same way. -/
theorem alike (h : left.AgreesFor right word) : left.Alike right word where
  exprOfName := by rw [exprOfName, exprOfName, h.number?_eq]
  exprOfCall₁ e := by
    rw [exprOfCall₁, exprOfCall₁, h.unary?_eq _ (asks_self _ word), h.impliedFunction?_eq]
  exprOfCall₂ e e' := by
    rw [exprOfCall₂, exprOfCall₂, h.binary?_eq _ (asks_self _ word)]

end Scope.AgreesFor

/-- A tree has the same value in two scopes that mean the same by its symbols. -/
theorem evaluate_congr {left right : Scope} {e : Expr}
    (h : ∀ s ∈ e.symbols, left.AgreesFor right s.name) : evaluate left e = evaluate right e := by
  induction e with
  | constant value => rfl
  | var name =>
    rw [evaluate, evaluate, (h _ (List.mem_singleton_self _)).number?_eq]
  | call₁ f? name argument ih =>
    rcases f? with - | f
    · obtain ⟨hname, hargument⟩ := List.forall_mem_cons.1 h
      rw [evaluate, evaluate, hname.function?_eq, ih hargument]
    · rw [evaluate, evaluate, ih h]
      rfl
  | call₂ f? name first second ih₁ ih₂ =>
    rcases f? with - | f
    · rw [Expr.symbols_call₂_none] at h
      obtain ⟨hname, harguments⟩ := List.forall_mem_cons.1 h
      obtain ⟨hfirst, hsecond⟩ := List.forall_mem_append.1 harguments
      rw [evaluate, evaluate, hname.binary?_eq _ (Scope.AgreesFor.asks_self _ _), ih₁ hfirst,
        ih₂ hsecond]
    · rw [Expr.symbols_call₂_some] at h
      obtain ⟨hfirst, hsecond⟩ := List.forall_mem_append.1 h
      rw [evaluate, evaluate, ih₁ hfirst, ih₂ hsecond]
      rfl

/-! ### Texts -/

/-- What a text may ask for: its words, and their parts where names may be split. -/
def Asked (implied : Bool) (text name : String) : Prop :=
  ∃ lexemes lexeme word, scan text = .ok lexemes ∧ lexeme ∈ lexemes ∧
    lexeme.token = .identifier word ∧ Asks implied word name

/-- Two scopes mean the same by some names, in every role. -/
def Scope.AgreesOn (left right : Scope) (names : String → Prop) : Prop :=
  ∀ name, names name → left.value? name = right.value? name ∧
    left.unary? name = right.unary? name ∧ left.binary? name = right.binary? name

section

variable {left right : Scope} {implied : Bool} {text word name : String} {lexemes : List Lexeme}
  {i : Nat}

/-- Whoever agrees on what a text asks for agrees on what is asked for in place of its words. -/
theorem Scope.AgreesOn.agreesFor (h : left.AgreesOn right (Asked left.implied text))
    (himplied : left.implied = right.implied) (hscan : scan text = .ok lexemes)
    (htoken : tokenAt? (row lexemes) i = some (.identifier word)) : left.AgreesFor right word := by
  rw [tokenAt?_row] at htoken
  obtain ⟨lexeme, hlexeme, hword⟩ := Option.map_eq_some_iff.1 htoken
  have hasked {name : String} (hname : Asks left.implied word name) :
      Asked left.implied text name :=
    ⟨lexemes, lexeme, word, hscan, List.mem_of_getElem? hlexeme, hword, hname⟩
  exact ⟨himplied, fun name hname ↦ (h name (hasked hname)).1,
    fun name hname ↦ (h name (hasked hname)).2.1, fun name hname ↦ (h name (hasked hname)).2.2⟩

/-- A text asks only for what is made of characters of names. -/
theorem Asked.isNamePart (h : Asked implied text name) : IsNamePart name := by
  obtain ⟨lexemes, lexeme, word, hscan, hlexeme, htoken, hname⟩ := h
  have hword := isIdentifier_of_scanFrom hscan hlexeme htoken
  obtain rfl | ⟨-, hne, hwithin⟩ := hname
  · exact hword.toIsNamePart
  · refine ⟨fun hnil ↦ hne (String.toList_eq_nil_iff.1 hnil), fun c hc ↦ ?_⟩
    exact hword.isNameChar c (hwithin.subset hc)

end

/-! ### Bindings -/

/-- No token is this name, nor is it a part of one: it is empty, or has a blank or a glyph in it. -/
def Unwritable (name : String) : Prop :=
  name = "" ∨ ∃ c ∈ name.toList, isBlank c = true ∨ (Glyph.ofChar? c).isSome = true

theorem Unwritable.not_isNamePart {name : String} (h : Unwritable name) : ¬ IsNamePart name := by
  intro hname
  obtain rfl | ⟨c, hc, hblank | hglyph⟩ := h
  · exact hname.ne_nil rfl
  · cases hblank.symm.trans (isBlank_of_isNameChar (hname.isNameChar c hc))
  · rw [ofChar?_of_isNameChar (hname.isNameChar c hc)] at hglyph
    cases hglyph

/-- A binding changes no other name, in any role. -/
theorem Vocabulary.bind_of_ne {vocabulary : Vocabulary} {s : Symbol} (meaning : s.role.Meaning)
    {name : String} (h : name ≠ s.name) :
    (vocabulary.bind s meaning).value? name = vocabulary.value? name ∧
      (vocabulary.bind s meaning).unary? name = vocabulary.unary? name ∧
      (vocabulary.bind s meaning).binary? name = vocabulary.binary? name := by
  rcases s with ⟨- | - | -, bound⟩
  · exact ⟨if_neg h, rfl, rfl⟩
  · exact ⟨rfl, if_neg h, rfl⟩
  · exact ⟨rfl, rfl, if_neg h⟩

/-- Scopes that differ in a binding of one of their vocabularies agree on all other names. -/
theorem Scope.agreesOn_bind {overrides vocabulary : Vocabulary} {implied : Bool} {s : Symbol}
    (meaning : s.role.Meaning) {names : String → Prop} (h : ∀ name, names name → name ≠ s.name) :
    Scope.AgreesOn ⟨overrides.bind s meaning, vocabulary, implied⟩
        ⟨overrides, vocabulary, implied⟩ names ∧
      Scope.AgreesOn ⟨overrides, vocabulary.bind s meaning, implied⟩
        ⟨overrides, vocabulary, implied⟩ names := by
  constructor
  · intro name hname
    obtain ⟨hvalue, hunary, hbinary⟩ := overrides.bind_of_ne meaning (h name hname)
    simp only [value?, unary?, binary?, hvalue, hunary, hbinary, and_self]
  · intro name hname
    obtain ⟨hvalue, hunary, hbinary⟩ := vocabulary.bind_of_ne meaning (h name hname)
    simp only [value?, unary?, binary?, hvalue, hunary, hbinary, and_self]

/-! ### Outcomes -/

namespace Settings

/-- All that a text comes to: why it is rejected, or its tree and what the tree evaluates to. -/
def outcome (settings : Settings) (text : String) (overrides : Vocabulary) :
    Except Rejection (Expr × Except Unbound Float) :=
  (settings.parse text).map fun formula ↦ (formula.root, formula.evaluate overrides)

/-- The scope of an evaluation. -/
def lateScope (settings : Settings) (overrides : Vocabulary) : Scope where
  overrides := overrides
  vocabulary := settings.vocabulary
  implied := settings.implied

variable {left right : Settings} {text : String} {lexemes : List Lexeme}

/-- A word of the text may be asked for in both scopes of a parse. -/
theorem conclude_run_congr (himplied : left.implied = right.implied)
    (hlimit : left.depthLimit = right.depthLimit)
    (hwords : ∀ i word, tokenAt? (row lexemes) i = some (.identifier word) →
      left.scope.AgreesFor right.scope word) :
    conclude (left.input text lexemes) (run (left.input text lexemes)) =
      conclude (right.input text lexemes) (run (right.input text lexemes)) := by
  have halike : (left.input text lexemes).Alike (right.input text lexemes) :=
    { token?_eq _ := rfl
      opens_iff _ _ _ := .rfl
      touching_eq _ _ := rfl
      implied_eq := himplied
      names_alike i name hname := by
        rw [← Input.tokenAt?_row] at hname
        exact (hwords i name hname).alike }
  have hrun : conclude (right.input text lexemes) (plainRun (right.input text lexemes)) =
      (conclude (left.input text lexemes) (plainRun (left.input text lexemes))).mapError id := by
    refine conclude_plainRun_of_alike halike hlimit (fun i ↦ ?_) fun h h' hfurthest ↦ ?_
    · exact congrArg (Rejection.tooDeep · _) hlimit.symm
    · rw [Head.rejection, Head.rejection, hfurthest]
      rfl
  rw [← conclude_plainRun, ← conclude_plainRun, hrun]
  cases conclude (left.input text lexemes) (plainRun (left.input text lexemes)) <;> rfl

/-- Settings that agree on what a text asks for parse it to the same tree, or reject it alike. -/
theorem map_root_parse_congr (himplied : left.implied = right.implied)
    (hlimit : left.depthLimit = right.depthLimit)
    (hparse : left.scope.AgreesOn right.scope (Asked left.implied text)) :
    (left.parse text).map Formula.root = (right.parse text).map Formula.root := by
  rcases hscan : scan text with r | lexemes
  · rw [parse_of_scan_error hscan, parse_of_scan_error hscan]
  · rw [parse_of_scan hscan, parse_of_scan hscan,
      conclude_run_congr himplied hlimit fun i word ↦ hparse.agreesFor himplied hscan]
    cases conclude (right.input text lexemes) (run (right.input text lexemes)) <;> rfl

/-- The symbols of a parsed tree are words of the text. -/
theorem exists_tokenAt?_of_parse {settings : Settings} {formula : Formula}
    (hparse : settings.parse text = .ok formula) :
    ∃ lexemes, scan text = .ok lexemes ∧ ∀ s ∈ formula.root.symbols, s.WrittenIn (row lexemes) := by
  obtain ⟨lexemes, phrase, hscan, hphrase, -, rfl⟩ := parse_eq_ok_iff.1 hparse
  refine ⟨lexemes, hscan, fun s hs ↦ ?_⟩
  exact hphrase.writtenIn nofun s (phrase.mem_symbols_expr.1 hs).1

/-- A formula is evaluated in the scope that its settings and the overrides make up. -/
theorem outcome_of_parse {settings : Settings} {formula : Formula} (overrides : Vocabulary)
    (hparse : settings.parse text = .ok formula) :
    settings.outcome text overrides =
      .ok (formula.root, evaluate (settings.lateScope overrides) formula.root) := by
  obtain ⟨lexemes, phrase, -, -, -, rfl⟩ := parse_eq_ok_iff.1 hparse
  rw [outcome, hparse]
  rfl

theorem outcome_eq_of_agreesOn {overrides overrides' : Vocabulary}
    (himplied : left.implied = right.implied) (hlimit : left.depthLimit = right.depthLimit)
    (hparse : left.scope.AgreesOn right.scope (Asked left.implied text))
    (hlate : (left.lateScope overrides).AgreesOn (right.lateScope overrides')
      (Asked left.implied text)) :
    left.outcome text overrides = right.outcome text overrides' := by
  have hroot := map_root_parse_congr himplied hlimit hparse
  rcases hleft : left.parse text with r | formula <;>
    rcases hright : right.parse text with r' | formula' <;> rw [hleft, hright] at hroot
  case error.error =>
    cases hroot
    rw [outcome, outcome, hleft, hright]
    rfl
  case ok.ok =>
    have hroot : formula.root = formula'.root := Except.ok.inj hroot
    obtain ⟨lexemes, hscan, hwritten⟩ := exists_tokenAt?_of_parse hleft
    have hvalue : evaluate (left.lateScope overrides) formula.root =
        evaluate (right.lateScope overrides') formula.root := by
      refine evaluate_congr fun s hs ↦ ?_
      obtain ⟨i, htoken⟩ := hwritten s hs
      exact hlate.agreesFor himplied hscan htoken
    rw [outcome_of_parse overrides hleft, outcome_of_parse overrides' hright, ← hroot, hvalue]
  all_goals cases hroot

/-- **Only the names that a text asks for matter.** Two settings that split names alike and have the
same limit come to the same outcome on a text, whatever else their tables and overrides say, if they
agree on all that the text asks for, while it is parsed and when it is evaluated. In particular, to
bind a name that no text can ask for has no effect at all. -/
theorem outcome_congr :
    (∀ (left right : Settings) (text : String) (overrides overrides' : Vocabulary),
      left.implied = right.implied → left.depthLimit = right.depthLimit →
      left.scope.AgreesOn right.scope (Asked left.implied text) →
      (left.lateScope overrides).AgreesOn (right.lateScope overrides')
        (Asked left.implied text) →
      left.outcome text overrides = right.outcome text overrides') ∧
    ∀ (settings : Settings) (text : String) (overrides : Vocabulary) (s : Symbol)
      (meaning : s.role.Meaning), Unwritable s.name →
      { settings with vocabulary := settings.vocabulary.bind s meaning }.outcome text overrides =
          settings.outcome text overrides ∧
        settings.outcome text (overrides.bind s meaning) = settings.outcome text overrides := by
  refine ⟨fun left right text overrides overrides' ↦ outcome_eq_of_agreesOn, ?_⟩
  intro settings text overrides s meaning hname
  have hother (name : String) (hasked : Asked settings.implied text name) : name ≠ s.name := by
    rintro rfl
    exact hname.not_isNamePart hasked.isNamePart
  constructor
  · exact outcome_eq_of_agreesOn rfl rfl (Scope.agreesOn_bind meaning hother).2
      (Scope.agreesOn_bind meaning hother).2
  · exact outcome_eq_of_agreesOn rfl rfl (fun _ _ ↦ ⟨rfl, rfl, rfl⟩)
      (Scope.agreesOn_bind meaning hother).1

/-- Values of `a` and `b`, so that `ab` is a product. -/
def productValues (x y : Float) : Settings where
  vocabulary := (Vocabulary.bind {} ⟨.variable, "a"⟩ x).bind ⟨.variable, "b"⟩ y
  implied := true

/-- Besides, `c` has a value. -/
def productValuesAndMore (x y z : Float) : Settings :=
  { productValues x y with vocabulary := (productValues x y).vocabulary.bind ⟨.variable, "c"⟩ z }

/-- The value of `ab` depends neither on `c` nor on what `a b` would mean as one name. -/
theorem outcome_congr_product :
    let left := productValuesAndMore Numeric.pi Numeric.e Numeric.tau
    let right := productValues Numeric.pi Numeric.e
    left.implied = right.implied ∧ left.depthLimit = right.depthLimit ∧
      left.scope.AgreesOn right.scope (Asked left.implied "ab") ∧
      (left.lateScope {}).AgreesOn (right.lateScope {}) (Asked left.implied "ab") ∧
      right.outcome "ab" {} =
        .ok (.constant (Numeric.pi * Numeric.e), .ok (Numeric.pi * Numeric.e)) ∧
      left.outcome "ab" {} = right.outcome "ab" {} ∧
      Unwritable "a b" ∧
      right.outcome "ab" (Vocabulary.bind {} ⟨.variable, "a b"⟩ Numeric.tau) =
        right.outcome "ab" {} := by
  intro left right
  have hscan : scan "ab" = .ok [⟨.identifier "ab", "ab", ⟨0, 1⟩⟩] := by
    decide +kernel
  have hother (name : String) (hasked : Asked true "ab" name) : name ≠ "c" := by
    rintro rfl
    obtain ⟨lexemes, lexeme, word, hscan', hlexeme, hword, hname⟩ := hasked
    cases hscan.symm.trans hscan'
    obtain rfl := List.mem_singleton.1 hlexeme
    cases hword
    obtain heq | ⟨-, -, hwithin⟩ := hname
    · exact absurd heq (by decide)
    · exact absurd (hwithin.subset (List.mem_singleton_self 'c')) (by decide)
  have houtcome (x y : Float) : (productValues x y).outcome "ab" {} =
      .ok (.constant (x * y), .ok (x * y)) := by
    have hsplit : (productValues x y).scope.factor? "ab" =
        some (.front ['a'] x (.known ['b'] y)) := by
      cbv
    have hvalue : (productValues x y).scope.value? "ab" = none := by
      cbv
    have hroot : (productValues x y).scope.exprOfName "ab" = .constant (x * y) := by
      rw [Scope.exprOfName, Scope.number?, hvalue, Scope.product?, hsplit]
      rfl
    have hparse : (productValues x y).parse "ab" =
        .ok ⟨.constant (x * y), true, (productValues x y).vocabulary⟩ := by
      refine parse_eq_ok_iff.2 ⟨_, .name "ab", hscan, ?_, Nat.le_add_left 1 63, ?_⟩
      · exact Derives.tier_of_operand (.name rfl (by rintro ⟨⟩)) .additive
      · exact congrArg (Formula.mk · _ _) hroot.symm
    rw [outcome_of_parse {} hparse]
    rfl
  have hagrees (x y z : Float) : ((productValuesAndMore x y z).lateScope {}).AgreesOn
      ((productValues x y).lateScope {}) (Asked true "ab") :=
    (@Scope.agreesOn_bind {} (productValues x y).vocabulary true ⟨.variable, "c"⟩ z _ hother).2
  have hparse : left.scope.AgreesOn right.scope (Asked left.implied "ab") :=
    hagrees Numeric.pi Numeric.e Numeric.tau
  have hlate : (left.lateScope {}).AgreesOn (right.lateScope {}) (Asked left.implied "ab") :=
    hagrees Numeric.pi Numeric.e Numeric.tau
  have hunwritable : Unwritable "a b" := .inr ⟨' ', by simp, .inl (by decide)⟩
  exact ⟨rfl, rfl, hparse, hlate, houtcome Numeric.pi Numeric.e,
    outcome_congr.1 left right "ab" {} {} rfl rfl hparse hlate, hunwritable,
    (outcome_congr.2 right "ab" {} ⟨.variable, "a b"⟩ Numeric.tau hunwritable).2⟩

end Settings

end Formulae
