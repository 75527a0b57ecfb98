import Formulae.Proofs.Parse.Comparison

/-!
# Sharing the outcomes of operands

The parser of the library runs the body of an operand at most once at every site, and answers from
the stored outcome when it comes there again. The plain recursive-descent parser is the same
definition with nothing shared. Both give the same result for every text: the same tree, or the same
rejection with the same labels in the same order.

An answer from the store skips everything that the body would have noted. That this is never missed
is because it has all been noted before. A run that is repeated from a record that has taken in what
the first run noted finds the same and notes nothing new (`operandBy_id_again`, a comparison of the
plain parser with itself), and records only grow. So every stored outcome is what the plain parser
would find at its site from now on, at no cost to the record (`Stored`), and the two parsers keep
step (`simulates_operandBy_onceBySite`, a comparison of the plain parser with the sharing one).
-/

namespace Formulae

open Expectation (Within)

variable {input : Input}

/-! ### Repeating a run -/

/-- The comparison of a run with one that has a fixed record, from which the first one must not
depart. -/
def Comparison.again (input : Input) (record : Option Expectation) : Comparison input input where
  covers _ := True
  alike _ g _ := g = record
  gone f := ¬ Within f record
  waived := True
  rejects _ _ := True
  covers_of_succ _ := trivial
  token?_eq _ := rfl
  opens_iff _ _ := Iff.rfl
  touching_eq _ _ := rfl
  implied_eq := rfl
  names_alike _ _ := .refl _ _
  alike_add {f g _ i} label _ hg := by
    by_cases hwithin : Within (Expectation.add f i label) record
    · subst hg
      exact .inl ((Expectation.Mentions.add f i label).mono hwithin).add_eq
    · exact .inr hwithin
  gone_mono hle hgone hwithin := hgone (hle.trans hwithin)
  gone_of_reaches hcovers _ := absurd trivial hcovers
  limit_le := Nat.le_refl _
  rejects_of_not_waived := .inl trivial

/-- The plain operand from a head on the given level. -/
def plainOperand (input : Input) (depth : Nat) : Parser Expr :=
  Parser.operandBy input id (input.limit - depth)

theorem forward_plainOperand (depth : Nat) :
    Parser.Forward input depth 1 (plainOperand input depth) :=
  Parser.forward_operandBy_id (by omega)

theorem agrees_again (input : Input) {h g : Head} (hsite : g.site = h.site) :
    (Comparison.again input g.furthest).Agrees (plainOperand input h.depth h)
      (plainOperand input h.depth g) := by
  have hsim : (Comparison.again input g.furthest).Simulates h.depth 1 (plainOperand input h.depth)
      (plainOperand input h.depth) := Comparison.simulates_operandBy_id (by omega) (by omega)
  exact hsim.agrees rfl ⟨congrArg Site.position hsite, congrArg Site.depth hsite, trivial, rfl⟩

/-- The outcome of an operand that the plain parser finds at a head without any addition to the
record. -/
def Replays (input : Input) (h : Head) : Operand → Prop
  | some (e, stop) => ∃ h', plainOperand input h.depth h = .ok e h' ∧ h'.position = stop ∧
      h'.depth = h.depth ∧ h'.furthest = h.furthest
  | none => ∃ h', plainOperand input h.depth h = .error .noMatch h' ∧ h'.depth = h.depth ∧
      h'.furthest = h.furthest

/-- A run that matched is repeated from any record that has taken in what it noted. -/
theorem replays_of_ok {h h₁ g : Head} {e : Expr} (hrun : plainOperand input h.depth h = .ok e h₁)
    (hsite : g.site = h.site) (hwithin : Within h₁.furthest g.furthest) :
    Replays input g (some (e, h₁.position)) := by
  have hadv := (forward_plainOperand h.depth).advanced rfl hrun
  have hagrees := agrees_again input hsite
  rw [hrun] at hagrees
  rcases hagrees with (hcovers | hgone) | ⟨g₁, hg₁, hstep⟩
  · exact absurd trivial hcovers
  · exact absurd hwithin hgone
  · have hdepth : g.depth = h.depth := congrArg Site.depth hsite
    rw [← hdepth] at hg₁
    exact ⟨g₁, hg₁, hstep.position_eq, hstep.depth_eq.trans (hadv.depth_eq.trans hdepth.symm),
      hstep.alike⟩

/-- So is a run that did not match. -/
theorem replays_of_noMatch {h h₁ g : Head}
    (hrun : plainOperand input h.depth h = .error .noMatch h₁)
    (hsite : g.site = h.site) (hwithin : Within h₁.furthest g.furthest) :
    Replays input g none := by
  have hmiss := (forward_plainOperand h.depth).missed rfl hrun
  have hagrees := agrees_again input hsite
  rw [hrun] at hagrees
  rcases hagrees with hgone | ⟨g₁, hg₁, hd, hfurthest⟩
  · exact absurd hwithin hgone
  · have hdepth : g.depth = h.depth := congrArg Site.depth hsite
    rw [← hdepth] at hg₁
    exact ⟨g₁, hg₁, hd.trans (hmiss.depth_eq.trans hdepth.symm), hfurthest⟩

/-! ### Stored outcomes -/

/-- Every stored outcome is the one that the plain parser finds at its site, from the given record
or any later one, and without any addition to it. -/
def Stored (input : Input) (furthest : Option Expectation) (s : Std.TreeMap Site Operand) : Prop :=
  ∀ site outcome, s[site]? = some outcome →
    ∀ g : Head, g.site = site → Within furthest g.furthest → Replays input g outcome

theorem Stored.mono {f g : Option Expectation} {s : Std.TreeMap Site Operand}
    (h : Stored input f s) (hwithin : Within f g) : Stored input g s :=
  fun site outcome hfound k hsite hk ↦ h site outcome hfound k hsite (hwithin.trans hk)

theorem Stored.insert {f : Option Expectation} {s : Std.TreeMap Site Operand} {site : Site}
    {outcome : Operand} (h : Stored input f s)
    (hnew : ∀ g : Head, g.site = site → Within f g.furthest → Replays input g outcome) :
    Stored input f (s.insert site outcome) := by
  intro site' outcome' hfound
  rw [Std.TreeMap.getElem?_insert] at hfound
  split at hfound
  · rename_i heq
    cases Std.LawfulEqOrd.eq_of_compare heq
    cases hfound
    exact hnew
  · exact h site' outcome' hfound

theorem stored_empty (f : Option Expectation) : Stored input f ∅ := by
  intro site outcome hfound
  rw [Std.TreeMap.getElem?_emptyc] at hfound
  cases hfound

/-! ### Keeping step -/

/-- The comparison of the plain parser with the sharing one. -/
def Comparison.sharing (input : Input) : Comparison input input where
  covers _ := True
  alike f g s := g = f ∧ Stored input f s
  gone _ := False
  waived := False
  rejects r r' := r' = r ∧ ∃ column, r = .tooDeep input.limit column
  covers_of_succ _ := trivial
  token?_eq _ := rfl
  opens_iff _ _ := Iff.rfl
  touching_eq _ _ := rfl
  implied_eq := rfl
  names_alike _ _ := .refl _ _
  alike_add _ _ := fun ⟨hfurthest, hstored⟩ ↦ .inl ⟨by rw [hfurthest], hstored.mono (.add _ _ _)⟩
  gone_mono _ := id
  gone_of_reaches hcovers _ := absurd trivial hcovers
  limit_le := Nat.le_refl _
  rejects_of_not_waived := .inr ⟨rfl, fun _ ↦ id, fun i ↦ ⟨trivial, rfl, input.column i, rfl⟩⟩

/-- An outcome that is stored can be answered with again. -/
theorem agrees_remembered {p : Parser Expr} {h h' : Head}
    (hstep : (Comparison.sharing input).InStep h h')
    (hp : (Comparison.sharing input).Agrees (plainOperand input h.depth h) (p h')) :
    (Comparison.sharing input).Agrees (plainOperand input h.depth h)
      (Parser.remembered h' (p h')) := by
  have hsite : h.site = h'.site := by
    rw [Head.site, Head.site, hstep.position_eq, hstep.depth_eq]
  match hrun : plainOperand input h.depth h, hp with
  | .ok e h₁, .inr ⟨h₁', hresult, hstep₁⟩ =>
    rw [hresult]
    refine .inr ⟨_, rfl, hstep₁.position_eq, hstep₁.depth_eq, trivial, hstep₁.alike.1, ?_⟩
    refine hstep₁.alike.2.insert fun g hg hwithin ↦ ?_
    rw [hstep₁.position_eq]
    exact replays_of_ok hrun (hg.trans hsite.symm) hwithin
  | .error .noMatch h₁, .inr ⟨h₁', hresult, hdepth, hsame, hstored₁⟩ =>
    rw [hresult]
    refine .inr ⟨_, rfl, hdepth, hsame, ?_⟩
    exact hstored₁.insert fun g hg hwithin ↦ replays_of_noMatch hrun (hg.trans hsite.symm) hwithin
  | .error (.rejected r) h₁, .inr ⟨r', h₁', hresult, hrejects⟩ =>
    rw [hresult]
    exact .inr ⟨r', h₁', rfl, hrejects⟩
  | .ok e h₁, .inl (.inl hcovers) => exact absurd trivial hcovers

/-- What is stored is what the plain parser answers. -/
theorem agrees_replay {h h' : Head} {outcome : Operand}
    (hstep : (Comparison.sharing input).InStep h h')
    (hfound : h'.operands[h'.site]? = some outcome) :
    ∃ result, Parser.replay? h' = some result ∧
      (Comparison.sharing input).Agrees (plainOperand input h.depth h) result := by
  obtain ⟨hfurthest, hstored⟩ := hstep.alike
  have hsite : h.site = h'.site := by
    rw [Head.site, Head.site, hstep.position_eq, hstep.depth_eq]
  have hreplays := hstored h'.site outcome hfound h hsite (.refl _)
  rw [Parser.replay?, hfound]
  rcases outcome with - | ⟨e, stop⟩
  · obtain ⟨h₁, hrun, hdepth, hsame⟩ := hreplays
    rw [hrun]
    refine ⟨_, rfl, .inr ⟨h', rfl, hstep.depth_eq.trans hdepth.symm, ?_⟩⟩
    rw [hsame]
    exact hstep.alike
  · obtain ⟨h₁, hrun, rfl, hdepth, hsame⟩ := hreplays
    rw [hrun]
    refine ⟨_, rfl, .inr ⟨_, rfl, rfl, hstep.depth_eq.trans hdepth.symm, trivial, ?_⟩⟩
    rw [hsame]
    exact hstep.alike

theorem agrees_onceBySite {p : Parser Expr} {h h' : Head}
    (hstep : (Comparison.sharing input).InStep h h')
    (hp : (Comparison.sharing input).Agrees (plainOperand input h.depth h) (p h')) :
    (Comparison.sharing input).Agrees (plainOperand input h.depth h) (Parser.onceBySite p h') := by
  rcases hfound : h'.operands[h'.site]? with - | outcome
  · have hreplay : Parser.replay? h' = none := by rw [Parser.replay?, hfound]
    rw [Parser.onceBySite, hreplay]
    exact agrees_remembered hstep hp
  · obtain ⟨result, hreplay, hagrees⟩ := agrees_replay hstep hfound
    rw [Parser.onceBySite, hreplay]
    exact hagrees

theorem simulates_onceBySite {depth : Nat} {p : Parser Expr}
    (hp : (Comparison.sharing input).Simulates depth 1 (plainOperand input depth) p) :
    (Comparison.sharing input).Simulates depth 1 (plainOperand input depth)
      (Parser.onceBySite p) := by
  refine ⟨hp.forward, fun {h h'} hd hstep ↦ ?_⟩
  subst hd
  exact agrees_onceBySite hstep (hp.agrees rfl hstep)

/-- **An operand that shares its outcomes keeps step with the plain one.** The body does so by
induction on the levels left, and answers from the store do because of what is stored. -/
theorem simulates_operandBy_onceBySite {depth levels : Nat}
    (hlevels : input.limit - depth = levels) :
    (Comparison.sharing input).Simulates depth 1 (plainOperand input depth)
      (Parser.operandBy input Parser.onceBySite levels) := by
  induction levels generalizing depth with
  | zero =>
    refine simulates_onceBySite ?_
    rw [plainOperand, hlevels]
    exact .oneDeeper fun hlt ↦ absurd hlt (by omega)
  | succ levels ih =>
    refine simulates_onceBySite ?_
    have hbelow : input.limit - (depth + 1) = levels := by omega
    have hoperand := ih hbelow
    rw [plainOperand, hbelow] at hoperand
    rw [plainOperand, hlevels]
    exact .oneDeeper fun _ ↦ Comparison.simulates_alternatives hoperand

/-! ### Whole texts -/

namespace Settings

/-- The result of parsing a whole text with nothing shared. -/
def plainRun (input : Input) : Parser.Result Expr :=
  runWith id input

theorem agrees_run (input : Input) :
    (Comparison.sharing input).Agrees (plainRun input) (run input) := by
  have hoperand : (Comparison.sharing input).Simulates 0 1 (plainOperand input 0)
      (Parser.operandBy input Parser.onceBySite input.limit) :=
    simulates_operandBy_onceBySite (Nat.sub_zero _)
  exact (Comparison.simulates_complete hoperand).agrees rfl
    ⟨rfl, rfl, trivial, rfl, stored_empty none⟩

/-- Sharing changes neither the tree nor the rejection that a run comes to. -/
theorem conclude_plainRun (input : Input) :
    conclude input (plainRun input) = conclude input (run input) := by
  match plainRun input, agrees_run input with
  | .ok e h, .inr ⟨h', hrun, _⟩ =>
    rw [hrun]
    rfl
  | .error .noMatch h, .inr ⟨h', hrun, _, hfurthest, _⟩ =>
    rw [hrun]
    show Except.error (h.rejection input) = Except.error (h'.rejection input)
    rw [Head.rejection, Head.rejection, hfurthest]
  | .error (.rejected r) h, .inr ⟨r', h', hrun, hr, _⟩ =>
    cases hr
    rw [hrun]
    rfl
  | .ok e h, .inl (.inl hcovers) => exact absurd trivial hcovers

/-- Only its nesting makes the plain parser reject a text outright. -/
theorem exists_tooDeep_of_plainRun {r : Rejection} {h : Head}
    (hrun : plainRun input = .error (.rejected r) h) :
    ∃ column, r = .tooDeep input.limit column := by
  have hagrees := agrees_run input
  rw [hrun] at hagrees
  rcases hagrees with hwaived | ⟨r', h', -, -, hcolumn⟩
  · exact hwaived.elim
  · exact hcolumn

/-- Parse a text with the outcomes of operands shared in the given way. -/
def parseWith (settings : Settings) (share : Parser Expr → Parser Expr) (text : String) :
    Except Rejection Formula := do
  let lexemes ← scan text
  let input := settings.input text lexemes
  let root ← conclude input (runWith share input)
  return ⟨root, settings.implied, settings.vocabulary⟩

/-- **Sharing is invisible.** A parser that stores the outcome of every operand and one that stores
nothing accept the same texts with the same formula, and reject the others alike. -/
theorem parseWith_id (settings : Settings) (text : String) :
    settings.parseWith id text = settings.parse text := by
  have hrun (input : Input) :
      conclude input (runWith id input) = conclude input (run input) := conclude_plainRun input
  simp only [parseWith, parse, hrun]

end Settings

end Formulae
