import Formulae.Proofs.Grammar.Unambiguity

/-!
# Viable beginnings

A row is **viable** when more pieces can make it an expression. This is what a parser that reports
errors has to decide at every piece, and the grammar alone settles it: nothing here is about
parsers.

Rows are extended at their end, so a derivation has to survive pieces that are put behind it. It
does unless one of them opens a call at the name it ends with (`Derives.of_shares`). Chains only
ever grow: a link can be put behind every rest (`Derives.exists_rest_link`), so every expression can
go on with a `-` and another operand (`Derives.exists_sub`).

A label is **truthful** behind a row if what it names can really follow (`Truthful`). For the end of
the input that means that the row is an expression as it stands.
-/

namespace Formulae

/-! ### Rows with a common beginning -/

/-- The second row has the first pieces of the first one. -/
def Shares (row row' : List Piece) (i : Nat) : Prop :=
  ∀ k < i, row'[k]? = row[k]?

/-- No parenthesis at the position touches a name in front of it. -/
def Parted (row : List Piece) (i : Nat) : Prop :=
  ∀ name, tokenAt? row (i - 1) = some (.identifier name) → ¬ Opens row i

section

variable {row row' row'' more : List Piece} {i j k : Nat} {token : Token}

namespace Shares

/-- Rows that share a beginning share every shorter one. -/
theorem mono (h : Shares row row' j) (hij : i ≤ j) : Shares row row' i :=
  fun k hk ↦ h k (Nat.lt_of_lt_of_le hk hij)

theorem trans (h : Shares row row' i) (h' : Shares row' row'' i) : Shares row row'' i :=
  fun k hk ↦ (h' k hk).trans (h k hk)

/-- Shared pieces have the same tokens. -/
theorem tokenAt? (h : Shares row row' i) (hk : k < i) :
    Formulae.tokenAt? row' k = Formulae.tokenAt? row k := by
  rw [Formulae.tokenAt?, h k hk, Formulae.tokenAt?]

/-- A row shares its first pieces with the row of these alone. -/
theorem take (row : List Piece) (i : Nat) : Shares row (row.take i) i :=
  fun _ hk ↦ getElem?_take_of_lt hk

/-- A row shares its pieces with every longer one. -/
theorem append (hi : i ≤ row.length) (more : List Piece) : Shares row (row ++ more) i :=
  fun _ hk ↦ List.getElem?_append_left (Nat.lt_of_lt_of_le hk hi)

theorem of_take (h : Shares row row' i) : Shares (row.take i) row' i :=
  fun k hk ↦ (h k hk).trans (getElem?_take_of_lt hk).symm

/-- What is put behind the first pieces of a row does not change them. -/
theorem take_append (hi : i ≤ row.length) (more : List Piece) :
    Shares row (row.take i ++ more) i :=
  (take row i).trans (append (Nat.le_of_eq (List.length_take_of_le hi).symm) more)

end Shares

/-- Places behind a row are places of what follows it. -/
theorem getElem?_append_add (row more : List Piece) (k : Nat) :
    (row ++ more)[row.length + k]? = more[k]? := by
  rw [List.getElem?_append_right (Nat.le_add_right _ _), Nat.add_sub_cancel_left]

theorem tokenAt?_append_add (row more : List Piece) (k : Nat) :
    tokenAt? (row ++ more) (row.length + k) = tokenAt? more k := by
  rw [tokenAt?, getElem?_append_add, tokenAt?]

section

variable (hi : i ≤ row.length) (more : List Piece)

include hi

theorem length_take_append : (row.take i ++ more).length = i + more.length := by
  rw [List.length_append, List.length_take_of_le hi]

/-- Places behind the first pieces of a row are places of what was put there. -/
theorem getElem?_take_append (k : Nat) : (row.take i ++ more)[i + k]? = more[k]? := by
  have hget := getElem?_append_add (row.take i) more k
  rwa [List.length_take_of_le hi] at hget

theorem tokenAt?_take_append (k : Nat) :
    tokenAt? (row.take i ++ more) (i + k) = tokenAt? more k := by
  rw [tokenAt?, getElem?_take_append hi, tokenAt?]

theorem touches_take_append (k : Nat) : Touches (row.take i ++ more) (i + k) ↔ Touches more k := by
  rw [Touches, getElem?_take_append hi, Touches]

theorem opens_take_append (k : Nat) : Opens (row.take i ++ more) (i + k) ↔ Opens more k := by
  rw [Opens, getElem?_take_append hi, Opens]

end

/-- Only a parenthesis can call a name. -/
theorem Parted.of_token (htoken : tokenAt? row i = some token)
    (hparen : token ≠ .glyph .openParen) : Parted row i := by
  intro name _ hopens
  rw [tokenAt?_of_opens hopens] at htoken
  cases htoken
  exact hparen rfl

/-- Nothing is called behind the end of a row. -/
theorem Parted.of_length_le (hi : row.length ≤ i) : Parted row i := by
  intro name _ hopens
  have hlt := lt_length_of_tokenAt? (tokenAt?_of_opens hopens)
  omega

/-- Whether a name is called can be seen from the piece behind it. -/
theorem Parted.of_shares (h : Parted row i) (hshares : Shares row row' (i + 1)) :
    Parted row' i := by
  intro name hname hopens
  rw [hshares.tokenAt? (Nat.lt_succ_of_le (Nat.sub_le i 1))] at hname
  exact h name hname (hopens.of_eq (hshares i (Nat.lt_succ_self i)))

/-- Nothing but a name can be called. -/
theorem Parted.succ_of_token (htoken : tokenAt? row i = some token)
    (hname : ∀ name, token ≠ .identifier name) : Parted row (i + 1) := by
  intro name hname' _
  rw [Nat.add_sub_cancel, htoken] at hname'
  cases hname'
  exact hname name rfl

end

namespace Derives

variable {row row' more : List Piece} {implied : Bool} {n : Nonterminal} {tier : Tier}
  {i j k l : Nat} {joint : Joint} {lhs rhs phrase : Phrase}

/-! ### More pieces behind a derivation -/

/-- A derivation reads only pieces in front of its end, and whether its last name is called. -/
theorem of_shares (h : Derives row implied n i j phrase) (hshares : Shares row row' j) (hj : 0 < j)
    (hparted : Parted row' j) : Derives row' implied n i j phrase := by
  refine h.congr (fun k _ hk ↦ hshares k hk) fun name hname hopens ↦ ?_
  rw [← hshares.tokenAt? (by omega)] at hname
  exact absurd hopens (hparted name hname)

/-- A derivation up to the end of a row remains one where pieces follow that do not call its last
name. -/
theorem append (h : Derives row implied n i row.length phrase) (hrow : 0 < row.length)
    (hparted : Parted (row ++ more) row.length) :
    Derives (row ++ more) implied n i row.length phrase :=
  h.of_shares (.append (Nat.le_refl _) more) hrow hparted

/-! ### Longer chains -/

/-- A link behind a rest. -/
theorem exists_rest_link (hjoins : Joins row implied tier j k joint)
    (hrhs : Derives row implied tier.inner k l rhs)
    (h : Derives row implied (.rest tier lhs) i j phrase) :
    ∃ phrase', Derives row implied (.rest tier lhs) i l phrase' := by
  generalize hn : Nonterminal.rest tier lhs = n at h
  -- the link goes where the rest stops, and the links before it stay what they are
  induction h generalizing lhs with
  | stop =>
    cases hn
    exact exists_rest hjoins hrhs (fun lhs' ↦ ⟨lhs', .stop⟩) _
  | left hleft hjoins' hrhs' _ _ ih =>
    cases hn
    obtain ⟨phrase', hrest⟩ := ih hjoins rfl
    exact ⟨phrase', .left hleft hjoins' hrhs' hrest⟩
  | right hright hjoins' hrhs' _ _ ih =>
    cases hn
    obtain ⟨phrase', hrest⟩ := ih hjoins rfl
    exact ⟨_, .right hright hjoins' hrhs' hrest⟩
  | _ => cases hn

/-- Something can be subtracted from every expression. -/
theorem exists_sub (h : Derives row implied (.tier .additive) i row.length phrase) :
    ∃ phrase', Derives (row ++ [⟨.glyph .minus, false⟩, ⟨.number 0, false⟩]) implied
      (.tier .additive) i (row.length + 2) phrase' := by
  have hlt := h.add_width_le
  have hminus : tokenAt? (row ++ [⟨.glyph .minus, false⟩, ⟨.number 0, false⟩]) row.length =
    some (.glyph .minus) := tokenAt?_append_add row _ 0
  cases h.append (by rw [Nonterminal.width_tier] at hlt; omega) (.of_token hminus nofun) with
  | chain hfirst hrest =>
    have hnumber : Derives (row ++ [⟨.glyph .minus, false⟩, ⟨.number 0, false⟩]) implied .operand
        (row.length + 1) (row.length + 2) (.number 0) := .number (tokenAt?_append_add row _ 1)
    obtain ⟨phrase', hrest'⟩ := exists_rest_link (.written hminus rfl)
      (hnumber.inner_of_operand .additive) hrest
    exact ⟨phrase', .chain hfirst hrest'⟩

end Derives

/-! ### Viability -/

/-- More pieces can make the row an expression. -/
def Viable (implied : Bool) (row : List Piece) : Prop :=
  ∃ more, Accepted implied (row ++ more)

/-- The last token of a row. -/
def lastToken? (row : List Piece) : Option Token :=
  tokenAt? row (row.length - 1)

/-- A label names the piece, if it stands behind the row. Behind a name, a parenthesis has to touch
it, and so does an operand behind a sign. -/
def Label.Names (row : List Piece) (piece : Piece) : Label → Prop
  | identifier => ∃ name, piece.token = .identifier name
  | number => ∃ value, piece.token = .number value
  | openParen => piece.token = .glyph .openParen ∧
      ∀ name, lastToken? row = some (.identifier name) → piece.touches = true
  | closeParen => piece.token = .glyph .closeParen
  | comma => piece.token = .glyph .comma
  | minus => piece.token = .glyph .minus
  | operator => ∃ tier op, Tier.operator? tier piece.token = some op
  | touchingOperand => lastToken? row = some (.glyph .minus) ∧ piece.touches = true ∧
      piece.token.startsOperand = true
  | endOfInput => False
  | expression => False
  | other _ => False

/-- What a label names can follow the row. -/
def Truthful (implied : Bool) (row : List Piece) (label : Label) : Prop :=
  label = .endOfInput ∧ Accepted implied row ∨
    ∃ piece, label.Names row piece ∧ Viable implied (row ++ [piece])

section

variable {implied : Bool} {row more : List Piece} {label : Label}

/-- An expression needs no more pieces. -/
theorem Accepted.viable (h : Accepted implied row) : Viable implied row :=
  ⟨[], by rwa [List.append_nil]⟩

/-- Every beginning of a viable row is viable. -/
theorem Viable.of_append (h : Viable implied (row ++ more)) : Viable implied row := by
  obtain ⟨more', h⟩ := h
  exact ⟨more ++ more', by rwa [← List.append_assoc]⟩

/-- A viable row is viable up to any of its pieces. -/
theorem Viable.of_cons {piece : Piece} (h : Viable implied (row ++ piece :: more)) :
    Viable implied (row ++ [piece]) := by
  rw [List.append_cons] at h
  exact h.of_append

/-- The first pieces of a viable row are a viable row. -/
theorem Viable.take (h : Viable implied row) (i : Nat) : Viable implied (row.take i) := by
  rw [← List.take_append_drop i row] at h
  exact h.of_append

/-- Where a label is truthful, the row is viable. -/
theorem Truthful.viable (h : Truthful implied row label) : Viable implied row := by
  rcases h with ⟨-, haccepted⟩ | ⟨piece, -, hviable⟩
  · exact haccepted.viable
  · exact hviable.of_append

/-- The last token of a beginning is the one in front of its end. -/
theorem lastToken?_take {i : Nat} (hi : i < row.length) :
    lastToken? (row.take (i + 1)) = tokenAt? row i := by
  rw [lastToken?, List.length_take_of_le hi]
  exact tokenAt?_take_of_lt (Nat.lt_succ_self i)

end

end Formulae
