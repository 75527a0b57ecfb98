import Formulae.Proofs.RoundTrip.Rendering
import Formulae.Proofs.Scanning.Insertion

/-!
# Texts put together

A text that is written as a phrase (`Writes`) can be used as a part of a longer one. It is scanned
there as it is by itself, if what follows begins with a character that ends every word, and it is
derived there as it is by itself, wherever it stands (`Derives.shift`). The only thing about it that
may change is whether its first token touches something, and no derivation asks for that.

So the phrases of longer texts are given by the phrases of their parts: a power of two operands, a
call of an argument, an expression in parentheses, a product of two factors.
-/

namespace Formulae

open Lexicon

/-! ### Spellings in front of more -/

/-- The same pieces, except that the first one need not touch what the first one touched. -/
structure Retouched (pieces pieces' : List Piece) : Prop where
  token : pieces'.map Piece.token = pieces.map Piece.token
  tail : pieces'.tail = pieces.tail

namespace Retouched

variable {pieces pieces' : List Piece}

theorem refl (pieces : List Piece) : Retouched pieces pieces :=
  ⟨rfl, rfl⟩

theorem length_eq (h : Retouched pieces pieces') : pieces'.length = pieces.length := by
  simpa using congrArg List.length h.token

theorem tokenAt?_eq (h : Retouched pieces pieces') (k : ℕ) :
    tokenAt? pieces' k = tokenAt? pieces k := by
  rw [tokenAt?, tokenAt?, ← List.getElem?_map, h.token, List.getElem?_map]

theorem getElem?_succ (h : Retouched pieces pieces') (k : ℕ) :
    pieces'[k + 1]? = pieces[k + 1]? := by
  rw [← List.getElem?_tail, h.tail, List.getElem?_tail]

end Retouched

/-- A token stays the first one in front of a character that separates words. -/
theorem firstToken?_append {spelling cs more : List Char} {token : Token} {d : Char}
    (hblank : ∀ c ∈ spelling.head?, isBlank c = false)
    (hfirst : firstToken? (spelling ++ cs) = some (token, spelling)) (hd : Separates d) :
    firstToken? (spelling ++ (cs ++ d :: more)) = some (token, spelling) := by
  obtain ⟨c, word, rfl⟩ :=
    List.exists_cons_of_ne_nil (List.length_pos_iff.1 (length_pos_of_firstToken? hfirst))
  have hc : isBlank c = false := hblank c rfl
  have h : token.IsFirst (c :: word) (c :: word ++ (cs ++ [])) := by
    rw [List.append_nil]
    exact (firstToken?_eq_some_iff hc).1 hfirst
  have hinserted : token.IsFirst (c :: word) (c :: word ++ (cs ++ (d :: more ++ []))) := by
    refine h.insert ?_
    rintro _ ⟨⟩
    exact hd
  rw [List.append_nil] at hinserted
  exact (firstToken?_eq_some_iff hc).2 hinserted

namespace Spells

variable {touches : Bool} {cs more : List Char} {pieces : List Piece}

/-- A spelling may stand behind something else. -/
theorem retouch (h : Spells touches cs pieces) (touches' : Bool) :
    ∃ pieces', Spells touches' cs pieces' ∧ Retouched pieces pieces' := by
  cases h with
  | nil => exact ⟨[], .nil, .refl _⟩
  | blank hblank hrest => exact ⟨_, .blank hblank hrest, .refl _⟩
  | token hblank hfirst hrest => exact ⟨_, .token hblank hfirst hrest, rfl, rfl⟩

/-- A spelling goes on with another one that begins with a character that separates words. Whether
the two touch depends on how the first one ends. -/
theorem append {d : Char} {later : Bool → List Piece} (h : Spells touches cs pieces)
    (hd : Separates d) (hlater : ∀ touches, Spells touches (d :: more) (later touches)) :
    ∃ touches', Spells touches (cs ++ d :: more) (pieces ++ later touches') := by
  induction h with
  | @nil touches => exact ⟨touches, hlater touches⟩
  | blank hblank _ ih =>
    obtain ⟨touches', hrest⟩ := ih
    exact ⟨touches', .blank hblank hrest⟩
  | token hblank hfirst _ ih =>
    obtain ⟨touches', hrest⟩ := ih
    refine ⟨touches', ?_⟩
    rw [List.append_assoc]
    exact .token hblank (firstToken?_append hblank hfirst hd) hrest

/-- What is scanned is spelled. -/
theorem exists_of_scanFrom {place : Place} {lexemes : List Lexeme}
    (hscan : scanFrom place cs = .ok lexemes) (touches : Bool) :
    ∃ pieces, Spells touches cs pieces := by
  induction place, cs using scanFrom.induct generalizing lexemes touches with
  | case1 => exact ⟨[], .nil⟩
  | case2 place c rest hblank ih =>
    rw [scanFrom_blank hblank] at hscan
    obtain ⟨pieces, hrest⟩ := ih hscan false
    exact ⟨pieces, .blank hblank hrest⟩
  | case3 place c rest hblank token spelling hfirst ih =>
    have hblank := Bool.of_not_eq_true hblank
    rw [scanFrom_taken hblank hfirst] at hscan
    rcases hrest : scanFrom (place.after spelling) ((c :: rest).drop spelling.length) with r | later
    · rw [hrest] at hscan
      cases hscan
    · obtain ⟨after, hafter⟩ := ((firstToken?_eq_some_iff hblank).1 hfirst).isPrefix
      rw [← hafter, List.drop_left] at hrest ih
      obtain ⟨pieces, hspells⟩ := ih hrest true
      refine ⟨⟨token, touches⟩ :: pieces, ?_⟩
      rw [← hafter]
      refine .token (fun d hd ↦ ?_) (hafter ▸ hfirst) hspells
      -- the spelling begins as the text does
      obtain ⟨word, rfl⟩ := List.head?_eq_some_iff.1 hd
      rwa [(List.cons_prefix_cons.1 ⟨after, hafter⟩).1]
  | case4 place c rest hblank hfirst =>
    cases (scanFrom_stray (Bool.of_not_eq_true hblank) hfirst).symm.trans hscan

theorem of_scan {text : String} {lexemes : List Lexeme} (hscan : scan text = .ok lexemes) :
    Spells false text.toList (row lexemes) := by
  obtain ⟨pieces, hspells⟩ := exists_of_scanFrom hscan false
  obtain ⟨lexemes', hscan', rfl⟩ := hspells.exists_scan
  cases hscan.symm.trans hscan'
  exact hspells

end Spells

/-! ### Texts that begin with a name -/

/-- The text begins with a character that names begin with. -/
def BeginsName (text : String) : Prop :=
  ∃ c ∈ text.toList.head?, isNameStart c = true

theorem BeginsName.append {text : String} (h : BeginsName text) (more : String) :
    BeginsName (text ++ more) := by
  obtain ⟨c, hc, hstart⟩ := h
  obtain ⟨cs, hcons⟩ := List.head?_eq_some_iff.1 hc
  refine ⟨c, ?_, hstart⟩
  rw [String.toList_append, hcons]
  rfl

theorem IsIdentifier.beginsName {word : String} (hword : IsIdentifier word) : BeginsName word := by
  obtain ⟨c, cs, hcons⟩ := List.exists_cons_of_ne_nil hword.ne_nil
  have hc : c ∈ word.toList.head? := by
    rw [hcons]
    rfl
  exact ⟨c, hc, hword.isNameStart_head hc⟩

/-- What begins with a name is spelled with a name in front. -/
theorem Spells.exists_eq_cons_identifier {touches : Bool} {pieces : List Piece} {text : String}
    (h : Spells touches text.toList pieces) (hbegins : BeginsName text) :
    ∃ name later, pieces = ⟨.identifier name, touches⟩ :: later := by
  obtain ⟨c, hc, hstart⟩ := hbegins
  obtain ⟨cs, hcons⟩ := List.head?_eq_some_iff.1 hc
  have hname := (isNameStart_iff.1 hstart).1
  generalize text.toList = chars at h hcons
  cases h with
  | nil => cases hcons
  | blank hblank =>
    cases hcons
    rw [isBlank_of_isNameChar hname] at hblank
    cases hblank
  | token hblank hfirst =>
    rw [hcons, firstToken?, ofChar?_of_isNameChar hname] at hfirst
    dsimp only at hfirst
    rw [if_pos hstart] at hfirst
    cases hfirst
    exact ⟨_, _, rfl⟩

/-! ### Derivations within longer rows -/

variable {whole pieces pieces' after : List Piece} {implied : Bool} {n : Nonterminal} {i : ℕ}
  {phrase argument lhs rhs : Phrase}

/-- A derivation of a whole row is one wherever these pieces stand, unless its last name is called
by what follows. -/
theorem Derives.of_remains (h : Derives pieces implied n 0 pieces.length phrase)
    (hpieces : Retouched pieces pieces') (hremains : Remains whole i (pieces' ++ after))
    (hafter : after.head? ≠ some ⟨.glyph .openParen, true⟩) :
    ∃ j, Remains whole j after ∧ Derives whole implied n i j phrase := by
  have hlength := hpieces.length_eq
  have hrow (k : ℕ) : whole[i + k]? = (pieces' ++ after)[k]? := by
    rw [← hremains.drop_eq, List.getElem?_drop]
  have hpiece {k : ℕ} (hk : k < pieces.length) : whole[i + k]? = pieces'[k]? := by
    rw [hrow, List.getElem?_append_left (hlength ▸ hk)]
  have hend : whole[i + pieces.length]? = after.head? := by
    rw [hrow, List.getElem?_append_right (Nat.le_of_eq hlength), hlength, Nat.sub_self,
      List.head?_eq_getElem?]
  refine ⟨i + pieces.length, ⟨?_, ?_⟩, h.shift ⟨fun k _ hk ↦ ?_, fun k hpos hk ↦ ?_, ?_⟩⟩
  · rw [← List.drop_drop, hremains.drop_eq, ← hlength, List.drop_left]
  · have hle := hremains.le
    have hdrop := congrArg List.length hremains.drop_eq
    rw [List.length_drop, List.length_append] at hdrop
    omega
  · rw [← hpieces.tokenAt?_eq, tokenAt?, hpiece hk, tokenAt?]
  · obtain ⟨k, rfl⟩ := Nat.exists_eq_add_one_of_ne_zero (Nat.ne_of_gt hpos)
    rw [hpiece hk, hpieces.getElem?_succ]
  · intro _ _ _ hopens
    rw [Opens, hend] at hopens
    exact absurd hopens hafter

/-- So is one that is the last part of a longer row. -/
theorem Derives.of_remains_last (h : Derives pieces implied n 0 pieces.length phrase)
    (hpieces : Retouched pieces pieces') (hremains : Remains whole i pieces') :
    ∃ j, Remains whole j [] ∧ Derives whole implied n i j phrase := by
  rw [← List.append_nil pieces'] at hremains
  exact h.of_remains hpieces hremains (by simp)

/-! ### Texts of phrases -/

/-- A text is written as a phrase of a nonterminal. -/
def Writes (implied : Bool) (n : Nonterminal) (text : String) (phrase : Phrase) : Prop :=
  ∃ lexemes, scan text = .ok lexemes ∧
    Derives (row lexemes) implied n 0 lexemes.length phrase

namespace Writes

variable {word text first second : String}

theorem exists_spells (h : Writes implied n text phrase) :
    ∃ pieces, Spells false text.toList pieces ∧
      Derives pieces implied n 0 pieces.length phrase := by
  obtain ⟨lexemes, hscan, hphrase⟩ := h
  refine ⟨row lexemes, .of_scan hscan, ?_⟩
  rwa [length_row]

theorem of_spells {j : ℕ} (hspells : Spells false text.toList whole) (hend : Remains whole j [])
    (hphrase : Derives whole implied n 0 j phrase) : Writes implied n text phrase := by
  obtain ⟨lexemes, hscan, rfl⟩ := hspells.exists_scan
  rw [hend.eq_length, length_row] at hphrase
  exact ⟨lexemes, hscan, hphrase⟩

/-- A chain may consist of one operand. -/
theorem tier (h : Writes implied .operand text phrase) (tier : Tier) :
    Writes implied (.tier tier) text phrase := by
  obtain ⟨lexemes, hscan, hphrase⟩ := h
  exact ⟨lexemes, hscan, hphrase.tier_of_operand tier⟩

/-- A chain of any tier is an expression. -/
theorem additive {tier : Tier} (h : Writes implied (.tier tier) text phrase) :
    Writes implied (.tier .additive) text phrase := by
  obtain ⟨lexemes, hscan, hphrase⟩ := h
  exact ⟨lexemes, hscan, hphrase.additive_of_tier⟩

theorem name (hword : IsIdentifier word) : Writes implied .operand word (.name word) := by
  have hspells : Spells false word.toList [⟨.identifier word, false⟩] := by
    rw [← List.append_nil word.toList]
    exact .identifier hword delimited_nil .nil
  exact of_spells hspells (Remains.all _).succ (.name rfl nofun)

/-- An expression in front of a closing parenthesis, which ends it wherever the two stand. -/
theorem exists_closed (h : Writes implied (.tier .additive) text phrase) :
    ∃ closed, Spells true (text.toList ++ [Glyph.closeParen.char]) closed ∧
      ∀ {whole i}, Remains whole i closed → ∃ j,
        Derives whole implied (.tier .additive) i j phrase ∧
          tokenAt? whole j = some (.glyph .closeParen) ∧ Remains whole (j + 1) [] := by
  obtain ⟨pieces, hspells, hphrase⟩ := h.exists_spells
  obtain ⟨pieces', hspells', hretouched⟩ := hspells.retouch true
  obtain ⟨touches, hclosed⟩ :=
    hspells'.append (separates_char .closeParen nofun nofun) fun _ ↦ Spells.nil.glyph .closeParen
  refine ⟨pieces' ++ [⟨.glyph .closeParen, touches⟩], hclosed, fun hremains ↦ ?_⟩
  obtain ⟨j, hclose, hphrase⟩ := hphrase.of_remains hretouched hremains (by simp)
  exact ⟨j, hphrase, hclose.tokenAt?, hclose.succ⟩

/-- An expression in parentheses. -/
theorem parens (h : Writes implied (.tier .additive) text phrase) :
    Writes implied .operand ("(" ++ text ++ ")") (.parens phrase) := by
  obtain ⟨closed, hspells, hclosed⟩ := h.exists_closed
  have hopen := Remains.all (⟨.glyph .openParen, false⟩ :: closed)
  obtain ⟨j, hphrase, hclose, hend⟩ := hclosed hopen.succ
  refine of_spells ?_ hend (.parens hopen.tokenAt? hphrase hclose)
  rw [String.toList_append, String.toList_append, List.append_assoc]
  exact hspells.glyph .openParen

/-- A call of an argument. -/
theorem call₁ (hword : IsIdentifier word) (h : Writes implied (.tier .additive) text argument) :
    Writes implied .operand (word ++ "(" ++ text ++ ")") (.call₁ word argument) := by
  obtain ⟨closed, hspells, hclosed⟩ := h.exists_closed
  have hname := Remains.all (⟨.identifier word, false⟩ :: ⟨.glyph .openParen, true⟩ :: closed)
  obtain ⟨j, hargument, hclose, hend⟩ := hclosed hname.succ.succ
  refine of_spells ?_ hend
    (.call₁ hname.tokenAt? (hname.succ.opens_iff.2 rfl) hargument hclose)
  rw [String.toList_append, String.toList_append, String.toList_append, List.append_assoc,
    List.append_assoc]
  exact .identifier hword (delimited_cons (isNameChar_char .openParen)) (hspells.glyph .openParen)

/-- A power of two operands. -/
theorem power (hfirst : Writes implied .operand first lhs)
    (hsecond : Writes implied .operand second rhs) :
    Writes implied (.tier .exponent) (first ++ "^" ++ second)
      (.joined (.written .pow) lhs rhs) := by
  obtain ⟨pieces, hspells, hlhs⟩ := hfirst.exists_spells
  obtain ⟨later, hlater, hrhs⟩ := hsecond.exists_spells
  obtain ⟨later', hlater', hretouched⟩ := hlater.retouch true
  obtain ⟨touches, hwhole⟩ :=
    hspells.append (separates_char .caret nofun nofun) fun _ ↦ hlater'.glyph .caret
  obtain ⟨k, hcaret, hlhs⟩ := hlhs.of_remains (.refl pieces)
    (.all (pieces ++ ⟨.glyph .caret, touches⟩ :: later')) (by simp)
  obtain ⟨j, hend, hrhs⟩ := hrhs.of_remains_last hretouched hcaret.succ
  refine of_spells ?_ hend (.chain hlhs (.right rfl (.written hcaret.tokenAt? rfl) hrhs .stop))
  rw [String.toList_append, String.toList_append, List.append_assoc]
  exact hwhole

/-- A product of two factors with a space between them, of which the second begins with a name. -/
theorem product (hfirst : Writes true (.tier .exponent) first lhs)
    (hsecond : Writes true (.tier .exponent) second rhs)
    (hbegins : BeginsName second) :
    Writes true (.tier .multiplicative) (first ++ " " ++ second) (.joined .implied lhs rhs) := by
  obtain ⟨pieces, hspells, hlhs⟩ := hfirst.exists_spells
  obtain ⟨later, hlater, hrhs⟩ := hsecond.exists_spells
  obtain ⟨word, more, rfl⟩ := hlater.exists_eq_cons_identifier hbegins
  obtain ⟨touches, hwhole⟩ := hspells.append (separates_of_isBlank (by decide : isBlank ' ' = true))
    fun _ ↦ hlater.space
  obtain ⟨k, hfactor, hlhs⟩ := hlhs.of_remains (.refl pieces)
    (.all (pieces ++ ⟨.identifier word, false⟩ :: more)) (by simp)
  obtain ⟨j, hend, hrhs⟩ := hrhs.of_remains_last (.refl _) hfactor
  have hminus : tokenAt? (pieces ++ ⟨.identifier word, false⟩ :: more) k ≠
      some (.glyph .minus) := by
    rw [hfactor.tokenAt?]
    exact nofun
  refine of_spells ?_ hend (.chain hlhs (.left rfl (.implied rfl hminus) hrhs .stop))
  rw [String.toList_append, String.toList_append, List.append_assoc]
  exact hwhole

end Writes

/-- A text that is written as an expression is parsed to its tree, if the limit allows for it. -/
theorem Settings.parse_of_writes {settings : Settings} {text : String}
    (h : Writes settings.implied (.tier .additive) text phrase)
    (hlimit : phrase.nesting ≤ settings.depthLimit) :
    settings.parse text = .ok ⟨phrase.expr settings.scope, settings.implied,
      settings.vocabulary⟩ := by
  obtain ⟨lexemes, hscan, hphrase⟩ := h
  exact parse_eq_ok_iff.2 ⟨lexemes, phrase, hscan, hphrase, hlimit, rfl⟩

end Formulae
