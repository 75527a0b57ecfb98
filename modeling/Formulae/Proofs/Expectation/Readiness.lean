import Formulae.Proofs.Expectation.Viability
import Formulae.Proofs.Grammar.Soundness

/-!
# Places where phrases fit

A place in a row is **ready** for a nonterminal when whatever can be derived there leaves the row
viable. The parser passes such places on: a place that is ready for a chain is ready for the first
operand of the chain, the place behind that operand can be continued by links, and so forth. None of
this depends on what the row really has at the place or behind it, so it is said of all rows that
have the same pieces in front of it (`Shares`).

Two things can keep a piece from standing at a place. Behind a sign, an operand has to touch the
sign, and where an operand is implied, it must not start with one; this is what a place **admits**.
And a parenthesis that touches a name is no operand: it opens a call, whose arguments can go on in
another way (`Callable`).

To say that a row is viable and not complete, one more `-` is put behind it. Wherever an operand has
just ended, something can be subtracted.
-/

namespace Formulae

section

variable (row : List Piece) (implied : Bool)

/-- Whatever is derived at the position as the nonterminal leaves a viable row. -/
def Fits (n : Nonterminal) (admits : Piece → Prop) (i : Nat) : Prop :=
  ∀ ⦃row' : List Piece⦄ ⦃phrase : Phrase⦄, Shares row row' i → Parted row' i →
    (∀ piece, row'[i]? = some piece → admits piece) →
    Derives row' implied n i row'.length phrase → Viable implied (row' ++ [⟨.glyph .minus, false⟩])

/-- Whatever links are derived at the position leave a viable row. -/
def Continues (tier : Tier) (i : Nat) : Prop :=
  ∀ ⦃row' : List Piece⦄, Shares row row' i → Parted row' i →
    (∀ lhs, ∃ phrase, Derives row' implied (.rest tier lhs) i row'.length phrase) →
    Viable implied (row' ++ [⟨.glyph .minus, false⟩])

/-- Whatever expression is derived behind the piece at the position can be closed. -/
def Closes (i : Nat) : Prop :=
  ∀ ⦃row' : List Piece⦄ ⦃phrase : Phrase⦄, Shares row row' (i + 1) →
    Derives row' implied (.tier .additive) (i + 1) row'.length phrase →
    Viable implied (row' ++ [⟨.glyph .closeParen, false⟩])

/-- If a name ends at the position, whatever argument it is called with can be closed. -/
def Callable (i : Nat) : Prop :=
  ∀ ⦃row' : List Piece⦄ ⦃name : String⦄ ⦃phrase : Phrase⦄, Shares row row' i →
    tokenAt? row' (i - 1) = some (.identifier name) → Opens row' i →
    Derives row' implied (.tier .additive) (i + 1) row'.length phrase →
    Viable implied (row' ++ [⟨.glyph .closeParen, false⟩])

/-- A phrase of the nonterminal fits at the position, and so does what the row has there. -/
structure Ready (n : Nonterminal) (admits : Piece → Prop) (i : Nat) : Prop where
  le_length : i ≤ row.length
  clear : Clear row implied i
  callable : Callable row implied i
  admits_here : ∀ piece, row[i]? = some piece → admits piece
  exists_admits : ∃ touches, ∀ token, token ≠ .glyph .minus → admits ⟨token, touches⟩
  minus : Truthful implied (row.take i) .minus
  fits : Fits row implied n admits i

end

variable {row : List Piece} {implied : Bool} {n : Nonterminal} {tier : Tier}
  {admits : Piece → Prop} {i j k l : Nat}

/-! ### What fits -/

/-- What is derived behind the beginning leaves it viable. -/
theorem Fits.viable {phrase : Phrase} (h : Fits row implied n admits i) (hi : i ≤ row.length)
    (more : List Piece) (hparted : Parted (row.take i ++ more) i)
    (hadmits : ∀ piece, more[0]? = some piece → admits piece)
    (hderives : Derives (row.take i ++ more) implied n i (i + more.length) phrase) :
    Viable implied (row.take i ++ more) := by
  rw [← length_take_append hi] at hderives
  refine (h (.take_append hi more) hparted (fun piece hpiece ↦ hadmits piece ?_) hderives).of_append
  rwa [← getElem?_take_append hi more 0]

/-- A place in front of which no name can stand is ready if everything that is derived there
fits. -/
theorem Ready.of_fits (hi : i ≤ row.length) (hparted : ∀ row', Shares row row' i → Parted row' i)
    (hn : ∀ {row' k phrase}, Derives row' implied .operand i k phrase →
      Derives row' implied n i k phrase)
    (hhere : ∀ piece, row[i]? = some piece → admits piece)
    (hadmits : ∃ touches, ∀ token, admits ⟨token, touches⟩)
    (hfits : Fits row implied n admits i) : Ready row implied n admits i where
  le_length := hi
  clear name hname hopens := absurd hopens (hparted row (fun _ _ ↦ rfl) name hname)
  callable row' name _ hshares hname hopens _ := absurd hopens (hparted row' hshares name hname)
  admits_here := hhere
  exists_admits := hadmits.imp fun _ h token _ ↦ h token
  minus := by
    obtain ⟨touches, hadmits⟩ := hadmits
    have hderives : Derives (row.take i ++ [⟨.glyph .minus, touches⟩, ⟨.number 0, true⟩]) implied
        .operand i (i + 2) (.negative (.number 0)) :=
      .negative (tokenAt?_take_append hi _ 0) ((touches_take_append hi _ 1).2 rfl)
        (.number (tokenAt?_take_append hi _ 1))
    have hviable := hfits.viable hi _ (hparted _ (.take_append hi _))
      (fun piece hpiece ↦ ?_) (hn hderives)
    · exact .inr ⟨⟨.glyph .minus, touches⟩, rfl, hviable.of_cons⟩
    · cases hpiece
      exact hadmits _
  fits := hfits

/-- Everything fits at the start of a row. -/
theorem ready_zero (row : List Piece) (implied : Bool) :
    Ready row implied (.tier .additive) (fun _ ↦ True) 0 := by
  refine .of_fits (Nat.zero_le _) (fun row' _ name hname hopens ↦ ?_) (·.tier_of_operand .additive)
    (fun _ _ ↦ trivial) ⟨false, fun _ ↦ trivial⟩ fun row' phrase _ _ _ hderives ↦ ?_
  · rw [tokenAt?_of_opens hopens] at hname
    cases hname
  · obtain ⟨phrase', hphrase'⟩ := hderives.exists_sub
    have haccepted : Accepted implied (row' ++ [⟨.glyph .minus, false⟩, ⟨.number 0, false⟩]) :=
      ⟨phrase', by rwa [List.length_append]⟩
    exact haccepted.viable.of_cons

/-- Everything fits behind a piece behind which expressions can be closed. -/
theorem Closes.ready {glyph : Glyph} (h : Closes row implied i)
    (htoken : tokenAt? row i = some (.glyph glyph)) :
    Ready row implied (.tier .additive) (fun _ ↦ True) (i + 1) := by
  refine .of_fits (lt_length_of_tokenAt? htoken) (fun row' hshares ↦ ?_)
    (·.tier_of_operand .additive) (fun _ _ ↦ trivial) ⟨false, fun _ ↦ trivial⟩
    fun row' phrase hshares _ _ hderives ↦ ?_
  · exact .succ_of_token ((hshares.tokenAt? (Nat.lt_succ_self i)).trans htoken) nofun
  · obtain ⟨phrase', hphrase'⟩ := hderives.exists_sub
    have hle : i + 1 ≤ row'.length := hderives.le
    have hviable := h (hshares.trans (.append hle _)) (by rwa [List.length_append])
    rw [List.append_assoc] at hviable
    exact hviable.of_cons

/-! ### Chains -/

theorem Ready.inner (h : Ready row implied (.tier tier) admits i) :
    Ready row implied tier.inner admits i :=
  { h with fits := fun _ _ hshares hparted hadmits hderives ↦
      h.fits hshares hparted hadmits (.chain hderives .stop) }

/-- Where something is derived, no parenthesis calls the name in front. -/
theorem Derives.parted {row' : List Piece} {phrase : Phrase}
    (h : Derives (row.take k) implied n i k phrase) (hn : n.width = 1)
    (hclear : Clear row implied i) (hshares : Shares row row' k) : Parted row' i := by
  have hlt : i + 1 ≤ k := hn ▸ h.add_width_le
  intro name hname hopens
  rw [hshares.tokenAt? (by omega)] at hname
  have hopens' : Opens row i := hopens.of_eq (hshares i hlt)
  refine h.ne_openParen_of_blocked hn (hclear name hname hopens') ?_
  rw [tokenAt?_take_of_lt hlt, tokenAt?_of_opens hopens']

/-- Links fit behind the first operand of a chain. -/
theorem Ready.continues {first : Phrase} (h : Ready row implied (.tier tier) admits i)
    (hfirst : Derives (row.take k) implied tier.inner i k first) :
    Continues row implied tier k := by
  intro row' hshares hparted hrest
  have hlt := hfirst.lt_of_inner
  obtain ⟨phrase, hphrase⟩ := hrest first
  refine h.fits (hshares.mono (Nat.le_of_lt hlt)) (hfirst.parted tier.width_inner h.clear hshares)
    (fun piece hpiece ↦ h.admits_here piece ?_)
    (.chain (hfirst.of_shares hshares.of_take (by omega) hparted) hphrase)
  rwa [hshares i hlt] at hpiece

namespace Continues

/-- Links fit behind a link. -/
theorem link {joint : Joint} {rhs : Phrase} (h : Continues row implied tier i)
    (hclear : Clear row implied i) (hjoins : Joins row implied tier i k joint)
    (hrhs : Derives (row.take l) implied tier.inner k l rhs) : Continues row implied tier l := by
  intro row' hshares hparted hrest
  have hle := hjoins.le
  have hlt := hrhs.lt_of_inner
  refine h (hshares.mono (by omega)) (fun name hname hopens ↦ ?_)
    (Derives.exists_rest (hjoins.congr (hshares i (by omega)))
      (hrhs.of_shares hshares.of_take (by omega) hparted) hrest)
  rw [hshares.tokenAt? (by omega)] at hname
  refine hrhs.not_opens_of_joins (hjoins.congr (getElem?_take_of_lt (by omega))) hclear hname
    (hopens.of_eq ?_)
  rw [hshares i (by omega), getElem?_take_of_lt (by omega)]

/-- Something can be subtracted where links fit. -/
theorem viable_minus (h : Continues row implied tier i) (hi : i ≤ row.length) :
    Viable implied (row.take i ++ [⟨.glyph .minus, false⟩]) := by
  have hlength := List.length_take_of_le hi
  refine h (.take row i) (.of_length_le (Nat.le_of_eq hlength)) fun lhs ↦ ⟨lhs, ?_⟩
  rw [hlength]
  exact .stop

theorem truthful_operator (h : Continues row implied tier i) (hi : i ≤ row.length) :
    Truthful implied (row.take i) .operator :=
  .inr ⟨_, ⟨.additive, .sub, rfl⟩, h.viable_minus hi⟩

/-- Every operand fits behind a written operator. -/
theorem ready_of_written {token : Token} {op : Operator} (h : Continues row implied tier i)
    (htoken : tokenAt? row i = some token) (hop : tier.operator? token = some op) :
    Ready row implied tier.inner (fun _ ↦ True) (i + 1) := by
  have hname : ∀ name, token ≠ .identifier name := by
    rintro name rfl
    cases tier <;> cases hop
  have hparen : token ≠ .glyph .openParen := by
    rintro rfl
    cases tier <;> cases hop
  refine .of_fits (lt_length_of_tokenAt? htoken) (fun row' hshares ↦ ?_)
    (·.inner_of_operand tier) (fun _ _ ↦ trivial) ⟨false, fun _ ↦ trivial⟩
    fun row' phrase hshares _ _ hderives ↦ ?_
  · exact .succ_of_token ((hshares.tokenAt? (Nat.lt_succ_self i)).trans htoken) hname
  · have htoken' := (hshares.tokenAt? (Nat.lt_succ_self i)).trans htoken
    exact h (hshares.mono (Nat.le_succ i)) (.of_token htoken' hparen)
      (Derives.exists_rest (.written htoken' hop) hderives fun lhs ↦ ⟨lhs, .stop⟩)

/-- An operand without a sign fits where a factor can be implied. -/
theorem ready_of_implied (h : Continues row true .multiplicative i) (hi : i ≤ row.length)
    (hclear : Clear row true i) (hcallable : Callable row true i)
    (hminus : tokenAt? row i ≠ some (.glyph .minus)) :
    Ready row true (.tier .exponent) (·.token ≠ .glyph .minus) i where
  le_length := hi
  clear := hclear
  callable := hcallable
  admits_here piece hpiece htoken := hminus (by rw [tokenAt?, hpiece, Option.map_some, htoken])
  exists_admits := ⟨false, fun _ htoken ↦ htoken⟩
  minus := .inr ⟨⟨.glyph .minus, false⟩, rfl, h.viable_minus hi⟩
  fits row' phrase hshares hparted hadmits hderives := by
    refine h hshares hparted (Derives.exists_rest (.implied rfl fun htoken ↦ ?_) hderives
      fun lhs ↦ ⟨lhs, .stop⟩)
    obtain ⟨piece, hpiece, htoken⟩ := Option.map_eq_some_iff.1 htoken
    exact hadmits piece hpiece htoken

end Continues

/-! ### Operands -/

/-- A parenthesis can call the name in front of it. -/
theorem Callable.truthful_openParen {name : String} (h : Callable row implied i)
    (hi : i ≤ row.length) (hname : tokenAt? (row.take i) (i - 1) = some (.identifier name)) :
    Truthful implied (row.take i) .openParen := by
  have hshares := Shares.take_append hi [⟨.glyph .openParen, true⟩, ⟨.number 0, false⟩]
  have hnumber : Derives (row.take i ++ [⟨.glyph .openParen, true⟩, ⟨.number 0, false⟩]) implied
    .operand (i + 1) (i + 2) (.number 0) := .number (tokenAt?_take_append hi _ 1)
  have hviable := h hshares
    ((hshares.tokenAt? (lt_of_tokenAt?_take hname)).trans (tokenAt?_of_take hname))
    ((opens_take_append hi _ 0).2 rfl) (by
      rw [length_take_append hi]
      exact hnumber.tier_of_operand .additive)
  rw [List.append_assoc] at hviable
  exact .inr ⟨_, ⟨rfl, fun _ _ ↦ rfl⟩, hviable.of_cons⟩

/-- A parenthesis that touches a name opens its argument. -/
theorem Callable.closes {name : String} (h : Callable row implied (i + 1))
    (hname : tokenAt? row i = some (.identifier name)) (hopens : Opens row (i + 1)) :
    Closes row implied (i + 1) := by
  intro row' phrase hshares hderives
  exact h (hshares.mono (Nat.le_succ _)) ((hshares.tokenAt? (by omega)).trans hname)
    (hopens.of_eq (hshares _ (Nat.lt_succ_self _)).symm) hderives

theorem Closes.truthful_closeParen {phrase : Phrase} (h : Closes row implied i)
    (hderives : Derives (row.take j) implied (.tier .additive) (i + 1) j phrase)
    (hj : j ≤ row.length) : Truthful implied (row.take j) .closeParen := by
  have hle : i + 1 ≤ j := hderives.le
  refine .inr ⟨⟨.glyph .closeParen, false⟩, rfl, ?_⟩
  refine h ((Shares.take row j).mono hle) (?_ : Derives _ _ _ _ _ phrase)
  rwa [List.length_take_of_le hj]

namespace Ready

variable (h : Ready row implied .operand admits i)

include h

/-- An operand that starts as the row does fits, unless it starts with a parenthesis. -/
theorem viable_of_token {token : Token} {row' : List Piece} {phrase : Phrase}
    (htoken : tokenAt? row i = some token) (hparen : token ≠ .glyph .openParen)
    (hshares : Shares row row' (i + 1))
    (hderives : Derives row' implied .operand i row'.length phrase) : Viable implied row' := by
  refine (h.fits (hshares.mono (Nat.le_succ i))
    (.of_token ((hshares.tokenAt? (Nat.lt_succ_self i)).trans htoken) hparen)
    (fun piece hpiece ↦ h.admits_here piece ?_) hderives).of_append
  rwa [hshares i (Nat.lt_succ_self i)] at hpiece

/-- An operand can be a name. -/
theorem truthful_identifier : Truthful implied (row.take i) .identifier := by
  obtain ⟨touches, hadmits⟩ := h.exists_admits
  have htoken := tokenAt?_take_append h.le_length [⟨.identifier "x", touches⟩] 0
  have hlength := length_take_append h.le_length [⟨.identifier "x", touches⟩]
  refine .inr ⟨⟨.identifier "x", touches⟩, ⟨"x", rfl⟩, h.fits.viable h.le_length _
    (.of_token htoken nofun) (fun piece hpiece ↦ ?_) (.name htoken fun hopens ↦ ?_)⟩
  · cases hpiece
    exact hadmits _ nofun
  · have hlt := lt_length_of_tokenAt? (tokenAt?_of_opens hopens)
    rw [hlength] at hlt
    exact Nat.lt_irrefl _ hlt

/-- An operand can be a number. -/
theorem truthful_number : Truthful implied (row.take i) .number := by
  obtain ⟨touches, hadmits⟩ := h.exists_admits
  have htoken := tokenAt?_take_append h.le_length [⟨.number 0, touches⟩] 0
  refine .inr ⟨⟨.number 0, touches⟩, ⟨0, rfl⟩, h.fits.viable h.le_length _
    (.of_token htoken nofun) (fun piece hpiece ↦ ?_) (.number htoken)⟩
  cases hpiece
  exact hadmits _ nofun

/-- An operand can start with a parenthesis, or one can call the name in front of it. -/
theorem truthful_openParen : Truthful implied (row.take i) .openParen := by
  have hi := h.le_length
  have hlast : lastToken? (row.take i) = tokenAt? (row.take i) (i - 1) := by
    rw [lastToken?, List.length_take_of_le hi]
  by_cases hname : ∃ name, tokenAt? (row.take i) (i - 1) = some (.identifier name)
  · obtain ⟨name, hname⟩ := hname
    exact h.callable.truthful_openParen hi hname
  · obtain ⟨touches, hadmits⟩ := h.exists_admits
    have hnumber : Derives (row.take i ++ [⟨.glyph .openParen, touches⟩, ⟨.number 0, false⟩,
        ⟨.glyph .closeParen, false⟩]) implied .operand (i + 1) (i + 2) (.number 0) :=
      .number (tokenAt?_take_append hi _ 1)
    have hviable := h.fits.viable hi _ (fun name hname' hopens ↦ ?_) (fun piece hpiece ↦ ?_)
      (.parens (tokenAt?_take_append hi _ 0) (hnumber.tier_of_operand .additive)
        (tokenAt?_take_append hi _ 2))
    · exact .inr ⟨_, ⟨rfl, fun name hname' ↦ absurd ⟨name, hlast.symm.trans hname'⟩ hname⟩,
        hviable.of_cons⟩
    · rcases i with - | i
      · cases hname'
      · have hshares := Shares.append (Nat.le_of_eq (List.length_take_of_le hi).symm)
          [⟨.glyph .openParen, touches⟩, ⟨.number 0, false⟩, ⟨.glyph .closeParen, false⟩]
        exact hname ⟨name, (hshares.tokenAt? (Nat.lt_succ_self i)).symm.trans hname'⟩
    · cases hpiece
      exact hadmits _ (by simp)

/-- An expression in parentheses can be closed, whether the parenthesis is one of an operand or one
of a call. -/
theorem closes_of_openParen (hopen : tokenAt? row i = some (.glyph .openParen)) :
    Closes row implied i := by
  intro row' phrase hshares hderives
  by_cases hparted : Parted row' i
  · -- nothing is called, so the expression in parentheses is an operand that fits
    have hlt : i + 1 ≤ row'.length := hderives.le
    have hclose := tokenAt?_append_add row' [⟨.glyph .closeParen, false⟩] 0
    have hshares' := hshares.trans (.append hlt [⟨.glyph .closeParen, false⟩])
    have hviable := h.fits (hshares'.mono (Nat.le_succ i))
      (hparted.of_shares (.append hlt _)) (fun piece hpiece ↦ h.admits_here piece ?_) (by
        rw [List.length_append]
        exact .parens ((hshares'.tokenAt? (Nat.lt_succ_self i)).trans hopen)
          (hderives.append (by omega) (.of_token hclose nofun)) hclose)
    · exact hviable.of_append
    · rwa [hshares' i (Nat.lt_succ_self i)] at hpiece
  · obtain ⟨name, hname, hopens⟩ : ∃ name, tokenAt? row' (i - 1) = some (.identifier name) ∧
        Opens row' i := by
      by_contra hnot
      exact hparted fun name hname hopens ↦ hnot ⟨name, hname, hopens⟩
    exact h.callable (hshares.mono (Nat.le_succ i)) hname hopens hderives

/-! ### Calls -/

section

variable {name : String} (hname : tokenAt? row i = some (.identifier name))

include hname

/-- A name that is an operand can be called. -/
theorem callable_succ : Callable row implied (i + 1) := by
  intro row' name' phrase hshares _ hopens hderives
  have hle : i + 1 + 1 ≤ row'.length := hderives.le
  have hshares' := Shares.append (Nat.le_refl row'.length) [⟨.glyph .closeParen, false⟩]
  have hclose := tokenAt?_append_add row' [⟨.glyph .closeParen, false⟩] 0
  have hname' := (hshares.tokenAt? (Nat.lt_succ_self i)).trans hname
  have hcall : Derives (row' ++ [⟨.glyph .closeParen, false⟩]) implied .operand i (row'.length + 1)
      (.call₁ name phrase) :=
    .call₁ ((hshares'.tokenAt? (by omega)).trans hname') (hopens.of_eq (hshares' _ hle).symm)
      (hderives.append (by omega) (.of_token hclose nofun)) hclose
  exact h.viable_of_token hname nofun (hshares.trans (.append (by omega) _)) (by
    rwa [List.length_append])

/-- A call that has a first argument can have a second one. -/
theorem viable_second {row' : List Piece} {first second : Phrase} (hopens : Opens row (i + 1))
    (hfirst : Derives (row.take j) implied (.tier .additive) (i + 2) j first)
    (hshares : Shares row row' j) (hcomma : tokenAt? row' j = some (.glyph .comma))
    (hsecond : Derives row' implied (.tier .additive) (j + 1) row'.length second) :
    Viable implied (row' ++ [⟨.glyph .closeParen, false⟩]) := by
  have hle : i + 2 + 1 ≤ j := hfirst.add_width_le
  have hle' : j + 1 + 1 ≤ row'.length := hsecond.add_width_le
  have hshares' := Shares.append (Nat.le_refl row'.length) [⟨.glyph .closeParen, false⟩]
  have hclose := tokenAt?_append_add row' [⟨.glyph .closeParen, false⟩] 0
  have hcomma' := (hshares'.tokenAt? (by omega)).trans hcomma
  have htotal := hshares.trans (hshares'.mono (by omega))
  have hcall : Derives (row' ++ [⟨.glyph .closeParen, false⟩]) implied .operand i (row'.length + 1)
      (.call₂ name first second) :=
    .call₂ ((htotal.tokenAt? (by omega)).trans hname) (hopens.of_eq (htotal _ (by omega)).symm)
      (hfirst.of_shares htotal.of_take (by omega) (.of_token hcomma' nofun)) hcomma'
      (hsecond.append (by omega) (.of_token hclose nofun)) hclose
  exact h.viable_of_token hname nofun (htotal.mono (by omega)) (by rwa [List.length_append])

theorem closes_second {first : Phrase} (hopens : Opens row (i + 1))
    (hfirst : Derives (row.take j) implied (.tier .additive) (i + 2) j first)
    (hcomma : tokenAt? row j = some (.glyph .comma)) : Closes row implied j :=
  fun _ _ hshares hsecond ↦ h.viable_second hname hopens hfirst (hshares.mono (Nat.le_succ j))
    ((hshares.tokenAt? (Nat.lt_succ_self j)).trans hcomma) hsecond

theorem truthful_comma {first : Phrase} (hopens : Opens row (i + 1))
    (hfirst : Derives (row.take j) implied (.tier .additive) (i + 2) j first)
    (hj : j ≤ row.length) : Truthful implied (row.take j) .comma := by
  have hnumber : Derives (row.take j ++ [⟨.glyph .comma, false⟩, ⟨.number 0, false⟩]) implied
    .operand (j + 1) (j + 2) (.number 0) := .number (tokenAt?_take_append hj _ 1)
  have hviable := h.viable_second hname hopens hfirst (.take_append hj _)
    (tokenAt?_take_append hj _ 0) (by
      rw [length_take_append hj]
      exact hnumber.tier_of_operand .additive)
  rw [List.append_assoc] at hviable
  exact .inr ⟨⟨.glyph .comma, false⟩, rfl, hviable.of_cons⟩

end

/-! ### Signs -/

section

variable (hminus : tokenAt? row i = some (.glyph .minus))

include hminus

/-- An operand that touches its sign fits behind it. -/
theorem negated (htouches : Touches row (i + 1)) :
    Ready row implied .operand (·.touches = true) (i + 1) := by
  refine .of_fits (lt_length_of_tokenAt? hminus) (fun row' hshares ↦ ?_) id
    (fun piece hpiece ↦ ?_) ⟨true, fun _ ↦ rfl⟩ fun row' phrase hshares _ hadmits hderives ↦ ?_
  · exact .succ_of_token ((hshares.tokenAt? (Nat.lt_succ_self i)).trans hminus) (by simp)
  · rw [Touches, hpiece] at htouches
    exact Option.some.inj htouches
  · have hminus' := (hshares.tokenAt? (Nat.lt_succ_self i)).trans hminus
    have hlt : i + 1 < row'.length := hderives.add_width_le
    refine h.fits (hshares.mono (Nat.le_succ i)) (.of_token hminus' (by simp))
      (fun piece hpiece ↦ h.admits_here piece ?_) (.negative hminus' ?_ hderives)
    · rwa [hshares i (Nat.lt_succ_self i)] at hpiece
    · rw [Touches, List.getElem?_eq_getElem hlt]
      exact congrArg some (hadmits _ (List.getElem?_eq_getElem hlt))

/-- An operand that touches its sign can follow it. -/
theorem truthful_touchingOperand : Truthful implied (row.take (i + 1)) .touchingOperand := by
  have hlt := lt_length_of_tokenAt? hminus
  have hshares := Shares.take_append hlt [⟨.number 0, true⟩]
  have hminus' := (hshares.tokenAt? (Nat.lt_succ_self i)).trans hminus
  have hnegative : Derives (row.take (i + 1) ++ [⟨.number 0, true⟩]) implied .operand i (i + 1 + 1)
      (.negative (.number 0)) :=
    .negative hminus' ((touches_take_append hlt _ 0).2 rfl) (.number (tokenAt?_take_append hlt _ 0))
  have hviable := h.viable_of_token hminus nofun hshares (by rwa [length_take_append hlt])
  exact .inr ⟨⟨.number 0, true⟩, ⟨(lastToken?_take hlt).trans hminus, rfl, rfl⟩, hviable⟩

end

end Ready

end Formulae
