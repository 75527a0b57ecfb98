import Formulae.Formula
import Formulae.Proofs.Names.Gaps
import Mathlib.Data.List.Nodup
import Mathlib.Data.List.Perm.Subperm

/-!
# Repairing gaps

Whoever evaluates a formula, binds the symbol that is reported, and evaluates again comes to a
value, and is never asked twice for the same symbol. It does not matter what the symbols are bound
to, nor what was bound before.

It is not so that every round has fewer gaps than the one before. Under implied multiplication the
first cut of a name with a known part wins, so a new binding can take away the split of another
name: with `a` and `bc` known, `abc` is a product, but not any more once `ab` is bound. What does
grow is the set of symbols that the overrides bind. A bound symbol means something whatever else is
bound (`Scope.resolves_of_binds`), so a symbol that is reported is a new one of the symbols of the
tree, and there are only so many of them.
-/

namespace Formulae

/-! ### Bindings -/

/-- What a name can mean in a role. -/
def Role.Meaning : Role → Type
  | .variable => Float
  | .unary => Float → Float
  | .binary => Float → Float → Float

/-- A table with one more entry, which counts before all others. -/
def Table.insert {α : Type} (table : Table α) (name : String) (a : α) : Table α :=
  fun asked ↦ if asked = name then some a else table asked

namespace Vocabulary

/-- The vocabulary in which a symbol has the given meaning, and all others the one they had. -/
def bind (vocabulary : Vocabulary) : (s : Symbol) → s.role.Meaning → Vocabulary
  | ⟨.variable, name⟩, value =>
    { vocabulary with «variables» := some (Table.insert vocabulary.value? name value) }
  | ⟨.unary, name⟩, f =>
    { vocabulary with unary := some (Table.insert vocabulary.unary? name f) }
  | ⟨.binary, name⟩, f =>
    { vocabulary with binary := some (Table.insert vocabulary.binary? name f) }

/-- A table of the vocabulary binds the symbol. -/
def Binds (vocabulary : Vocabulary) : Symbol → Prop
  | ⟨.variable, name⟩ => (vocabulary.value? name).isSome
  | ⟨.unary, name⟩ => (vocabulary.unary? name).isSome
  | ⟨.binary, name⟩ => (vocabulary.binary? name).isSome

/-- One more binding binds its symbol and leaves all others as they were. -/
theorem binds_bind_iff {vocabulary : Vocabulary} {s t : Symbol} {meaning : s.role.Meaning} :
    (vocabulary.bind s meaning).Binds t ↔ t = s ∨ vocabulary.Binds t := by
  have hinsert {α : Type} (table : Table α) (name asked : String) (a : α) :
      (table.insert name a asked).isSome ↔ asked = name ∨ (table asked).isSome := by
    rw [Table.insert]
    split <;> simp_all
  rcases s with ⟨- | - | -, name⟩ <;> rcases t with ⟨- | - | -, asked⟩ <;>
    simp only [Binds, Symbol.mk.injEq, reduceCtorEq, false_and, true_and, false_or]
  case variable.variable | unary.unary | binary.binary => exact hinsert _ name asked meaning
  all_goals rfl

end Vocabulary

/-- A symbol that the overrides bind means something, whatever else they bind. -/
theorem Scope.resolves_of_binds {scope : Scope} {s : Symbol} (h : scope.overrides.Binds s) :
    scope.Resolves s := by
  rcases s with ⟨- | - | -, name⟩
  · obtain ⟨value, hvalue⟩ := Option.isSome_iff_exists.1 h
    exact .inl ⟨value, by rw [Scope.value?, hvalue, Option.some_or]⟩
  · obtain ⟨f, hf⟩ := Option.isSome_iff_exists.1 h
    exact .inl ⟨f, by rw [Scope.unary?, hf, Option.some_or]⟩
  · obtain ⟨f, hf⟩ := Option.isSome_iff_exists.1 h
    exact ⟨f, by rw [Scope.binary?, hf, Option.some_or]⟩

/-! ### The number of open names -/

namespace OpenNames

variable (names : OpenNames)

/-- How many names are open, in all three roles. -/
def size : Nat :=
  names.«variables».size + names.unary.size + names.binary.size

/-- The open names as symbols. -/
def symbols : List Symbol :=
  names.«variables».toList.map (⟨.variable, ·⟩) ++ names.unary.toList.map (⟨.unary, ·⟩) ++
    names.binary.toList.map (⟨.binary, ·⟩)

theorem length_symbols : names.symbols.length = names.size := by
  simp only [symbols, size, List.length_append, List.length_map, Std.TreeSet.length_toList]

theorem mem_symbols {s : Symbol} (h : s.name ∈ names.ofRole s.role) : s ∈ names.symbols := by
  rcases s with ⟨- | - | -, name⟩ <;> simp_all [symbols, ofRole, Std.TreeSet.mem_toList]

/-- Distinct symbols whose names are open are no more than there are open names. -/
theorem length_le_size {reported : List Symbol} (hnodup : reported.Nodup)
    (hopen : ∀ s ∈ reported, s.name ∈ names.ofRole s.role) : reported.length ≤ names.size := by
  rw [← length_symbols]
  exact (hnodup.subperm fun s hs ↦ names.mem_symbols (hopen s hs)).length_le

end OpenNames

/-! ### Rounds -/

namespace Formula

variable {formula : Formula} {overrides : ℕ → Vocabulary} {reported : List Symbol}

/-- The overrides of every round bind, in addition, the symbol that the round before reported. -/
def Repairs (formula : Formula) (overrides : ℕ → Vocabulary) : Prop :=
  ∀ k u, formula.evaluate (overrides k) = .error u →
    ∃ meaning, overrides (k + 1) = (overrides k).bind u.symbol meaning

/-- The first rounds have reported some symbols, one each: all of them different, open in the tree,
and bound by now. -/
structure Reported (formula : Formula) (overrides : ℕ → Vocabulary) (reported : List Symbol) :
    Prop where
  evaluate : ∀ k s, reported[k]? = some s → formula.evaluate (overrides k) = .error ⟨s⟩
  nodup : reported.Nodup
  isOpen : ∀ s ∈ reported, s.name ∈ formula.openNames.ofRole s.role
  binds : ∀ s ∈ reported, (overrides reported.length).Binds s

theorem reported_nil : formula.Reported overrides [] :=
  ⟨nofun, List.nodup_nil, nofun, nofun⟩

/-- A round that reports a symbol reports a new one. -/
theorem Reported.snoc (h : formula.Reported overrides reported)
    (hrepairs : formula.Repairs overrides)
    {u : Unbound} (hu : formula.evaluate (overrides reported.length) = .error u) :
    formula.Reported overrides (reported ++ [u.symbol]) := by
  obtain ⟨meaning, hnext⟩ := hrepairs _ u hu
  obtain ⟨before, after, hsymbols, -, hgap⟩ := (accounts_evaluate _ formula.root).eq_error_iff.1 hu
  refine ⟨fun k s hs ↦ ?_, ?_, ?_, ?_⟩
  · rcases Nat.lt_or_ge k reported.length with hlt | hge
    · rw [List.getElem?_append_left hlt] at hs
      exact h.evaluate k s hs
    · rw [List.getElem?_append_right hge, List.getElem?_singleton] at hs
      split at hs
      · cases hs
        rwa [show k = reported.length by omega]
      · cases hs
  · -- a symbol that was reported before is bound, and no gap
    refine h.nodup.append (List.nodup_singleton _) fun s hs hnew ↦ ?_
    obtain rfl := List.mem_singleton.1 hnew
    exact hgap (Scope.resolves_of_binds (h.binds _ hs))
  · refine List.forall_mem_append.2 ⟨h.isOpen, List.forall_mem_singleton.2 ?_⟩
    exact Expr.mem_openNames_iff.2 (hsymbols ▸ List.mem_append_right _ List.mem_cons_self)
  · rw [List.length_append, List.length_singleton, hnext]
    refine List.forall_mem_append.2 ⟨fun s hs ↦ ?_, List.forall_mem_singleton.2 ?_⟩
    · exact Vocabulary.binds_bind_iff.2 (.inr (h.binds s hs))
    · exact Vocabulary.binds_bind_iff.2 (.inl rfl)

/-- **Every gap can be repaired, one name at a time.** If each reported symbol is bound, to
anything, before the next evaluation, then no symbol is reported twice, all that are reported are
open in the formula, and there is a value after at most as many reports as there are open names. -/
theorem evaluate_of_repairs (formula : Formula) (overrides : ℕ → Vocabulary)
    (hrepairs : formula.Repairs overrides) :
    ∃ reported : List Symbol,
      (∀ k s, reported[k]? = some s → formula.evaluate (overrides k) = .error ⟨s⟩) ∧
      (∃ value, formula.evaluate (overrides reported.length) = .ok value) ∧
      reported.Nodup ∧ (∀ s ∈ reported, s.name ∈ formula.openNames.ofRole s.role) ∧
      reported.length ≤ formula.openNames.size := by
  have hlength {reported : List Symbol} (h : formula.Reported overrides reported) :
      reported.length ≤ formula.openNames.size :=
    formula.openNames.length_le_size h.nodup h.isOpen
  -- There can only be so many reports, so one of the rounds has none.
  suffices hends : ∀ left reported, formula.Reported overrides reported →
      formula.openNames.size < reported.length + left →
      ∃ reported value, formula.Reported overrides reported ∧
        formula.evaluate (overrides reported.length) = .ok value by
    obtain ⟨reported, value, h, hvalue⟩ :=
      hends (formula.openNames.size + 1) [] reported_nil (by simp)
    exact ⟨reported, h.evaluate, ⟨value, hvalue⟩, h.nodup, h.isOpen, hlength h⟩
  intro left
  induction left with
  | zero =>
    intro reported h hlt
    have hle := hlength h
    omega
  | succ left ih =>
    intro reported h hlt
    rcases hround : formula.evaluate (overrides reported.length) with u | value
    · exact ih _ (h.snoc hrepairs hround) (by simp; omega)
    · exact ⟨reported, value, h, hround⟩

/-- A sum of two names, the first of which is a product of `a` and `bc`. -/
def splitSum (value : Float) : Formula where
  root := .call₂ (some Operator.add.apply) "+" (.var "abc") (.var "ab")
  implied := true
  vocabulary := (Vocabulary.bind {} ⟨.variable, "a"⟩ value).bind ⟨.variable, "bc"⟩ value

/-- Overrides that bind `ab`, and then `abc`. -/
def splitSumRounds (value : Float) : ℕ → Vocabulary
  | 0 => {}
  | 1 => Vocabulary.bind {} ⟨.variable, "ab"⟩ value
  | _ => (Vocabulary.bind {} ⟨.variable, "ab"⟩ value).bind ⟨.variable, "abc"⟩ value

/-- To bind `ab` takes the split of `abc` away, which is reported next. -/
theorem evaluate_of_repairs_splitSum :
    (splitSum Numeric.pi).evaluate {} = .error ⟨⟨.variable, "ab"⟩⟩ ∧
      (splitSum Numeric.pi).Repairs (splitSumRounds Numeric.pi) ∧
      ∃ reported : List Symbol,
        (∀ k s, reported[k]? = some s →
          (splitSum Numeric.pi).evaluate (splitSumRounds Numeric.pi k) = .error ⟨s⟩) ∧
        (∃ value, (splitSum Numeric.pi).evaluate (splitSumRounds Numeric.pi reported.length) =
          .ok value) ∧
        reported.Nodup ∧
        (∀ s ∈ reported, s.name ∈ (splitSum Numeric.pi).openNames.ofRole s.role) ∧
        reported.length ≤ (splitSum Numeric.pi).openNames.size := by
  have hfirst (x : Float) : (splitSum x).evaluate {} = .error ⟨⟨.variable, "ab"⟩⟩ := by
    have hsplit : ((splitSum x).scope {}).factor? "abc" =
        some (.front ['a'] x (.known ['b', 'c'] x)) := by
      cbv
    refine (accounts_evaluate _ _).eq_error_iff.2 ⟨[⟨.variable, "abc"⟩], [], rfl, ?_, ?_⟩
    · exact List.forall_mem_singleton.2 (.inr ⟨rfl, _, _, hsplit, rfl⟩)
    · exact Scope.not_resolves_variable (by cbv)
  have hsecond (x : Float) : (splitSum x).evaluate (splitSumRounds x 1) =
      .error ⟨⟨.variable, "abc"⟩⟩ := by
    refine (accounts_evaluate _ _).eq_error_iff.2 ⟨[], [⟨.variable, "ab"⟩], rfl, ?_, ?_⟩
    · exact fun _ hs ↦ absurd hs List.not_mem_nil
    · exact Scope.not_resolves_variable (by cbv)
  have hthird (x : Float) (k : ℕ) :
      ∃ value, (splitSum x).evaluate (splitSumRounds x (k + 2)) = .ok value := by
    refine (accounts_evaluate _ _).exists_ok_iff.2 ?_
    have hbinds : ∀ s ∈ (splitSum x).root.symbols, (splitSumRounds x (k + 2)).Binds s :=
      List.forall_mem_cons.2 ⟨rfl, List.forall_mem_singleton.2 rfl⟩
    exact fun s hs ↦ Scope.resolves_of_binds (hbinds s hs)
  have hrepairs (x : Float) : (splitSum x).Repairs (splitSumRounds x) := by
    intro k u hu
    rcases k with - | - | k
    · cases (hfirst x).symm.trans hu
      exact ⟨x, rfl⟩
    · cases (hsecond x).symm.trans hu
      exact ⟨x, rfl⟩
    · obtain ⟨value, hvalue⟩ := hthird x k
      cases hvalue.symm.trans hu
  exact ⟨hfirst Numeric.pi, hrepairs Numeric.pi,
    evaluate_of_repairs (splitSum Numeric.pi) (splitSumRounds Numeric.pi) (hrepairs Numeric.pi)⟩

end Formula

end Formulae
