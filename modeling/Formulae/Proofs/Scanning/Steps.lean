import Formulae.Lexeme

/-!
# Steps of the scanner

What the scanner does with the first character of a text: it skips a blank, it takes a token, or it
gives up (`scanFrom_nil`, `scanFrom_blank`, `scanFrom_taken`, `scanFrom_stray`). Everything about
whole texts is proved through these four equations, and the scanner is not unfolded again.
-/

namespace Formulae

/-! ### Classes of characters -/

/-- A name begins with any character of names but digits and points. -/
theorem isNameStart_iff {c : Char} :
    isNameStart c = true ↔ isNameChar c = true ∧ ¬ (c.isDigit = true ∨ c = '.') := by
  simp [isNameStart, and_assoc]

theorem isBlank_of_isNameChar {c : Char} (h : isNameChar c = true) : isBlank c = false := by
  simp only [isNameChar, Bool.and_eq_true, Bool.not_eq_true'] at h
  exact h.1

/-- What spells a glyph is no part of a name. -/
theorem ofChar?_of_isNameChar {c : Char} (h : isNameChar c = true) : Glyph.ofChar? c = none := by
  simp only [isNameChar, Bool.and_eq_true, Option.isNone_iff_eq_none] at h
  exact h.2

/-- Glyphs end the names in front of them. -/
theorem isNameChar_char (glyph : Glyph) : isNameChar glyph.char = false := by
  rw [isNameChar, Glyph.ofChar?_char, Option.isNone_some, Bool.and_false]

/-! ### Places -/

namespace Place

/-- The offset counts the bytes that were passed. -/
theorem offset_after (place : Place) (cs : List Char) :
    (place.after cs).offset = place.offset + (String.ofList cs).utf8ByteSize := by
  -- the fold starts from any offset, so that is what the induction is about
  show cs.foldl (fun offset c ↦ offset + c.utf8Size) place.offset = _
  generalize place.offset = offset
  induction cs generalizing offset with
  | nil => rfl
  | cons c cs ih =>
    have hcons : String.ofList (c :: cs) = String.singleton c ++ String.ofList cs := by
      rw [String.singleton_eq_ofList, ← String.ofList_append]
      rfl
    rw [List.foldl_cons, ih, hcons, String.utf8ByteSize_append, String.utf8ByteSize_singleton,
      Nat.add_assoc]

@[simp]
theorem after_nil (place : Place) : place.after [] = place :=
  rfl

/-- Text can be passed in parts. -/
theorem after_append (place : Place) (cs ds : List Char) :
    place.after (cs ++ ds) = (place.after cs).after ds := by
  simp only [after, List.foldl_append, List.length_append, Nat.add_assoc]

/-- What was passed is only counted, so its order does not matter. -/
theorem after_comm (place : Place) (cs ds : List Char) :
    (place.after cs).after ds = (place.after ds).after cs := by
  have hoffset : ((place.after cs).after ds).offset = ((place.after ds).after cs).offset := by
    simp only [offset_after]
    omega
  have hcolumn : ((place.after cs).after ds).column = ((place.after ds).after cs).column :=
    Nat.add_right_comm place.column cs.length ds.length
  exact Place.mk.injEq .. ▸ ⟨hoffset, hcolumn⟩

theorem offset_le_after (place : Place) (cs : List Char) :
    place.offset ≤ (place.after cs).offset := by
  rw [offset_after]
  exact Nat.le_add_right _ _

/-- Every character takes a byte at least. -/
theorem offset_lt_after (place : Place) {cs : List Char} (hne : cs ≠ []) :
    place.offset < (place.after cs).offset := by
  obtain ⟨c, cs, rfl⟩ := List.exists_cons_of_ne_nil hne
  have hfirst : (place.after [c]).offset = place.offset + c.utf8Size := rfl
  have hpos := c.utf8Size_pos
  have hle := (place.after [c]).offset_le_after cs
  rw [← after_append, List.singleton_append] at hle
  omega

/-- Of two beginnings of a text, the one that ends first is a beginning of the other. -/
theorem isPrefix_of_offset_le (place : Place) {cs ds text : List Char} (hcs : cs <+: text)
    (hds : ds <+: text) (hle : (place.after cs).offset ≤ (place.after ds).offset) : cs <+: ds := by
  rcases List.prefix_or_prefix_of_prefix hcs hds with h | ⟨more, rfl⟩
  · exact h
  · rcases more with - | ⟨c, more⟩
    · simp only [List.append_nil, List.prefix_rfl]
    · -- the first one would be longer, and end later
      have hlt := (place.after ds).offset_lt_after (List.cons_ne_nil c more)
      rw [← after_append] at hlt
      exact absurd hle (Nat.not_le.2 hlt)

/-- Of two beginnings of a text, the shorter one has fewer bytes. -/
theorem offset_le_iff (place : Place) {cs ds text : List Char} (hcs : cs <+: text)
    (hds : ds <+: text) :
    (place.after cs).offset ≤ (place.after ds).offset ↔ cs.length ≤ ds.length := by
  constructor
  · intro hle
    exact (place.isPrefix_of_offset_le hcs hds hle).length_le
  · intro hle
    obtain ⟨more, rfl⟩ := List.prefix_of_prefix_length_le hcs hds hle
    rw [after_append]
    exact (place.after cs).offset_le_after more

end Place

/-! ### Steps of the scanner -/

section

variable {place : Place} {token : Token} {spelling cs : List Char} {c : Char}

theorem scanFrom_nil (place : Place) : scanFrom place [] = .ok [] := by
  rw [scanFrom]

/-- A blank is passed over, and nothing but the place remembers it. -/
theorem scanFrom_blank (hblank : isBlank c = true) :
    scanFrom place (c :: cs) = scanFrom (place.after [c]) cs := by
  rw [scanFrom, if_pos hblank]

/-- The first token becomes a lexeme at the place, and the scanner goes on behind its spelling. -/
theorem scanFrom_taken (hblank : isBlank c = false)
    (hfirst : firstToken? (c :: cs) = some (token, spelling)) :
    scanFrom place (c :: cs) =
      (scanFrom (place.after spelling) ((c :: cs).drop spelling.length)).map
        (⟨token, String.ofList spelling, place⟩ :: ·) := by
  rw [scanFrom, if_neg (by simp [hblank])]
  split
  · next htaken =>
    cases hfirst.symm.trans htaken
    rfl
  · next htaken =>
    cases hfirst.symm.trans htaken

/-- Where no token stands, the first character is the fault. -/
theorem scanFrom_stray (hblank : isBlank c = false) (hfirst : firstToken? (c :: cs) = none) :
    scanFrom place (c :: cs) = .error (.stray c.toString place.column) := by
  rw [scanFrom, if_neg (by simp [hblank])]
  split
  · next htaken =>
    cases hfirst.symm.trans htaken
  · rfl

/-- Scanning fails on stray text only. -/
theorem exists_stray_of_scanFrom {r : Rejection} (hscan : scanFrom place cs = .error r) :
    ∃ text column, r = .stray text column := by
  induction place, cs using scanFrom.induct with
  | case1 place =>
    rw [scanFrom_nil] at hscan
    cases hscan
  | case2 place c cs hblank ih =>
    rw [scanFrom_blank hblank] at hscan
    exact ih hscan
  | case3 place c cs hblank token spelling hfirst ih =>
    rw [scanFrom_taken (Bool.of_not_eq_true hblank) hfirst] at hscan
    rcases hrest : scanFrom (place.after spelling) ((c :: cs).drop spelling.length) with r' | more
    · rw [hrest] at hscan
      cases hscan
      exact ih hrest
    · rw [hrest] at hscan
      cases hscan
  | case4 place c cs hblank hnone =>
    rw [scanFrom_stray (Bool.of_not_eq_true hblank) hnone] at hscan
    cases hscan
    exact ⟨_, _, rfl⟩

/-- One step on a text that is cut behind its first token. -/
theorem scanFrom_token (hblank : ∀ c ∈ spelling.head?, isBlank c = false)
    (hfirst : firstToken? (spelling ++ cs) = some (token, spelling)) :
    scanFrom place (spelling ++ cs) = (scanFrom (place.after spelling) cs).map
      (⟨token, String.ofList spelling, place⟩ :: ·) := by
  obtain ⟨c, ds, rfl⟩ := List.exists_cons_of_length_pos (length_pos_of_firstToken? hfirst)
  have hdrop : (c :: (ds ++ cs)).drop (c :: ds).length = cs := List.drop_left
  rw [List.cons_append] at hfirst ⊢
  rw [scanFrom_taken (hblank c rfl) hfirst, hdrop]

end

end Formulae
