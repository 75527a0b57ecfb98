import Formulae.Proofs.Scanning.FirstToken

/-!
# Partitions of a text

What it means that lexemes are those of a text, said about the whole text at once and without a
scanner: each of them stands in the text and is the longest word there, no two of them overlap, and
what none of them covers is blank (`Partition`). A text has one partition at most, and the scanner
finds it. If there is none, the text has one up to a point that begins nothing, and this point is
what the scanner rejects.

A partition is one of the beginning of a text, in front of a rest. The rest matters, since a word at
the end of the beginning must not go on with it. Partitions of adjacent pieces are put together
(`Partition.append`) and taken apart again (`Partition.of_append`).
-/

namespace Formulae

/-- The lexeme covers the byte at an offset. -/
def Lexeme.Covers (lexeme : Lexeme) (offset : ℕ) : Prop :=
  lexeme.start ≤ offset ∧ offset < lexeme.stop

/-- The lexemes are those of a text that starts at a place and ends in front of a rest. -/
structure Partition (place : Place) (text rest : List Char) (lexemes : List Lexeme) : Prop where
  /-- Each lexeme stands somewhere in the text, and is the longest token there. -/
  stands : ∀ lexeme ∈ lexemes, ∃ before after,
    before ++ lexeme.spelling.toList ++ after = text ∧ lexeme.place = place.after before ∧
      lexeme.token.IsFirst lexeme.spelling.toList (lexeme.spelling.toList ++ (after ++ rest))
  /-- No lexeme starts before the ones in front of it have stopped. -/
  ordered : lexemes.Pairwise (·.stop ≤ ·.start)
  /-- What no lexeme covers is blank. -/
  blank : ∀ before c after, before ++ c :: after = text →
    (∀ lexeme ∈ lexemes, ¬ lexeme.Covers (place.after before).offset) → isBlank c = true

/-- A point that no digit follows. It begins no token. -/
def IsStray (cs : List Char) : Prop :=
  ∃ rest, cs = '.' :: rest ∧ ∀ c ∈ rest.head?, c.isDigit = false

variable {place : Place} {text first second rest before after cs : List Char} {c : Char}
variable {lexeme : Lexeme} {lexemes here later : List Lexeme}

/-! ### Where lexemes stand -/

/-- A lexeme stops at the place behind its spelling. -/
theorem Lexeme.stop_eq (h : lexeme.place = place.after before) :
    lexeme.stop = (place.after (before ++ lexeme.spelling.toList)).offset := by
  rw [stop, h, Place.after_append, Place.offset_after _ lexeme.spelling.toList,
    String.ofList_toList]

namespace Partition

/-- No lexeme is empty. -/
theorem start_lt_stop (h : Partition place text rest lexemes) (hlexeme : lexeme ∈ lexemes) :
    lexeme.start < lexeme.stop := by
  obtain ⟨before, after, -, hplace, hfirst⟩ := h.stands lexeme hlexeme
  rw [lexeme.stop_eq hplace, Place.after_append, Lexeme.start, hplace]
  exact Place.offset_lt_after _ hfirst.ne_nil

/-- No lexeme starts in front of the text. -/
theorem le_start (h : Partition place text rest lexemes) (hlexeme : lexeme ∈ lexemes) :
    place.offset ≤ lexeme.start := by
  obtain ⟨before, after, -, hplace, -⟩ := h.stands lexeme hlexeme
  rw [Lexeme.start, hplace]
  exact place.offset_le_after before

theorem stop_le (h : Partition place text rest lexemes) (hlexeme : lexeme ∈ lexemes) :
    lexeme.stop ≤ (place.after text).offset := by
  obtain ⟨before, after, rfl, hplace, -⟩ := h.stands lexeme hlexeme
  rw [lexeme.stop_eq hplace, Place.after_append place (before ++ _)]
  exact Place.offset_le_after _ after

/-- Different lexemes do not overlap. -/
theorem disjoint {other : Lexeme} (h : Partition place text rest lexemes)
    (hlexeme : lexeme ∈ lexemes) (hother : other ∈ lexemes) (hne : lexeme ≠ other) :
    lexeme.stop ≤ other.start ∨ other.stop ≤ lexeme.start := by
  have hsymm : Std.Symm fun l m : Lexeme ↦ l.stop ≤ m.start ∨ m.stop ≤ l.start :=
    ⟨fun _ _ ↦ Or.symm⟩
  have hapart : lexemes.Pairwise fun l m ↦ l.stop ≤ m.start ∨ m.stop ≤ l.start :=
    h.ordered.imp .inl
  exact hapart.forall hlexeme hother hne

/-! ### Building partitions -/

/-- Blanks are cut into nothing. -/
theorem blanks (h : ∀ c ∈ text, isBlank c = true) (place : Place) (rest : List Char) :
    Partition place text rest [] where
  stands := nofun
  ordered := .nil
  blank before c after happend _ := h c (by simp [← happend])

theorem nil (place : Place) (rest : List Char) : Partition place [] rest [] :=
  blanks (fun _ hc ↦ absurd hc List.not_mem_nil) place rest

/-- A text that is one token is cut into one lexeme. -/
theorem single_token {token : Token} {word : List Char} (h : token.IsFirst word (word ++ rest))
    (place : Place) : Partition place word rest [⟨token, String.ofList word, place⟩] where
  stands lexeme hlexeme := by
    obtain rfl := List.mem_singleton.1 hlexeme
    refine ⟨[], [], ?_, rfl, ?_⟩
    · simp
    · simpa using h
  ordered := List.pairwise_singleton _ _
  blank before c after happend hcovers := by
    refine absurd ⟨place.offset_le_after before, ?_⟩ (hcovers _ (List.mem_singleton_self _))
    have hlt := (place.after before).offset_lt_after (List.cons_ne_nil c after)
    rw [← Place.after_append, happend] at hlt
    have hplace : place = place.after [] := rfl
    rwa [Lexeme.stop_eq hplace, List.nil_append, String.toList_ofList]

/-- **Partitions of adjacent pieces are put together.** -/
theorem append (hfirst : Partition place first (second ++ rest) here)
    (hsecond : Partition (place.after first) second rest later) :
    Partition place (first ++ second) rest (here ++ later) where
  stands lexeme hlexeme := by
    rcases List.mem_append.1 hlexeme with hhere | hlater
    · obtain ⟨before, after, rfl, hplace, hisFirst⟩ := hfirst.stands lexeme hhere
      refine ⟨before, after ++ second, by simp, hplace, ?_⟩
      rwa [List.append_assoc]
    · obtain ⟨before, after, rfl, hplace, hisFirst⟩ := hsecond.stands lexeme hlater
      refine ⟨first ++ before, after, by simp, ?_, hisFirst⟩
      rw [hplace, Place.after_append]
  ordered := by
    refine List.pairwise_append.2 ⟨hfirst.ordered, hsecond.ordered, fun l hl m hm ↦ ?_⟩
    exact (hfirst.stop_le hl).trans (hsecond.le_start hm)
  blank before c after h hcovers := by
    have hbehind (more : List Char) (hbefore : before = first ++ more)
        (hmore : more ++ c :: after = second) : isBlank c = true := by
      refine hsecond.blank more c after hmore fun lexeme hlexeme ↦ ?_
      rw [← Place.after_append, ← hbefore]
      exact hcovers lexeme (List.mem_append_right here hlexeme)
    rcases List.append_eq_append_iff.1 h with
      ⟨- | ⟨d, more⟩, hbefore, hmore⟩ | ⟨more, hbefore, hmore⟩
    · exact hbehind [] (by simpa using hbefore.symm) hmore
    · cases hmore
      refine hfirst.blank before c more hbefore.symm fun lexeme hlexeme ↦ ?_
      exact hcovers lexeme (List.mem_append_left later hlexeme)
    · exact hbehind more hbefore hmore.symm

/-! ### Taking partitions apart -/

/-- The lexemes behind a piece of a text partition what is behind that piece. -/
theorem of_append (h : Partition place (first ++ second) rest (here ++ later))
    (hhere : ∀ lexeme ∈ here, lexeme.stop ≤ (place.after first).offset)
    (hlater : ∀ lexeme ∈ later, (place.after first).offset ≤ lexeme.start) :
    Partition (place.after first) second rest later where
  stands lexeme hlexeme := by
    obtain ⟨before, after, happend, hplace, hisFirst⟩ :=
      h.stands lexeme (List.mem_append_right here hlexeme)
    have hle := hlater lexeme hlexeme
    rw [Lexeme.start, hplace] at hle
    have hbefore : before <+: first ++ second := ⟨_, by rw [← happend, List.append_assoc]⟩
    obtain ⟨before, rfl⟩ :=
      place.isPrefix_of_offset_le (List.prefix_append first second) hbefore hle
    refine ⟨before, after, ?_, ?_, hisFirst⟩
    · simpa using happend
    · rw [hplace, Place.after_append]
  ordered := (List.pairwise_append.1 h.ordered).2.1
  blank before c after happend hcovers := by
    refine h.blank (first ++ before) c after (by simp [← happend]) fun lexeme hlexeme ↦ ?_
    rw [Place.after_append]
    rcases List.mem_append.1 hlexeme with hlexeme | hlexeme
    · intro hcover
      have hle := (hhere lexeme hlexeme).trans (Place.offset_le_after _ before)
      exact absurd hcover.2 (Nat.not_lt.2 hle)
    · exact hcovers lexeme hlexeme

/-- The lexemes in front of the end of a piece of a text partition that piece. -/
theorem of_append_left (h : Partition place (first ++ second) rest (here ++ later))
    (hhere : ∀ lexeme ∈ here, lexeme.stop ≤ (place.after first).offset)
    (hlater : ∀ lexeme ∈ later, (place.after first).offset ≤ lexeme.start) :
    Partition place first (second ++ rest) here where
  stands lexeme hlexeme := by
    obtain ⟨before, after, happend, hplace, hisFirst⟩ :=
      h.stands lexeme (List.mem_append_left later hlexeme)
    have hle := hhere lexeme hlexeme
    rw [lexeme.stop_eq hplace] at hle
    obtain ⟨after, rfl⟩ :=
      place.isPrefix_of_offset_le ⟨_, happend⟩ (List.prefix_append first second) hle
    obtain rfl := List.append_cancel_left (happend.trans (List.append_assoc _ after second))
    exact ⟨before, after, rfl, hplace, by rwa [List.append_assoc] at hisFirst⟩
  ordered := (List.pairwise_append.1 h.ordered).1
  blank before c after happend hcovers := by
    refine h.blank before c (after ++ second) (by simp [← happend]) fun lexeme hlexeme ↦ ?_
    rcases List.mem_append.1 hlexeme with hlexeme | hlexeme
    · exact hcovers lexeme hlexeme
    · intro hcover
      have hle := (hlater lexeme hlexeme).trans hcover.1
      have hlt := (place.after before).offset_lt_after (List.cons_ne_nil c after)
      rw [← Place.after_append, happend] at hlt
      exact absurd hle (Nat.not_le.2 hlt)

theorem eq_nil (h : Partition place [] rest lexemes) : lexemes = [] := by
  rw [List.eq_nil_iff_forall_not_mem]
  intro lexeme hlexeme
  have hlt := h.start_lt_stop hlexeme
  have hstart := h.le_start hlexeme
  have hstop := h.stop_le hlexeme
  rw [Place.after_nil] at hstop
  omega

/-- No lexeme starts with a blank. -/
theorem of_blank (hc : isBlank c = true) (h : Partition place (c :: text) rest lexemes) :
    Partition (place.after [c]) text rest lexemes := by
  have h' : Partition place ([c] ++ text) rest ([] ++ lexemes) := h
  refine h'.of_append nofun fun lexeme hlexeme ↦ ?_
  obtain ⟨before, after, happend, hplace, hfirst⟩ := h.stands lexeme hlexeme
  rcases before with - | ⟨d, before⟩
  · rw [← List.append_assoc, ← List.nil_append lexeme.spelling.toList, happend,
      List.cons_append] at hfirst
    rw [hfirst.isBlank_head] at hc
    cases hc
  · cases happend
    rw [Lexeme.start, hplace, ← List.singleton_append, Place.after_append]
    exact Place.offset_le_after _ before

/-- Where no blank stands a lexeme starts, and it is the first one. -/
theorem exists_first (hc : isBlank c = false) (h : Partition place (c :: text) rest lexemes) :
    ∃ token word text' later, c :: text = word ++ text' ∧
      lexemes = ⟨token, String.ofList word, place⟩ :: later ∧
      token.IsFirst word (word ++ (text' ++ rest)) ∧
      Partition (place.after word) text' rest later := by
  obtain ⟨lexeme, hlexeme, hstart, -⟩ :
      ∃ lexeme ∈ lexemes, lexeme.Covers place.offset := by
    by_contra hnone
    rw [h.blank [] c text rfl fun lexeme hlexeme hcover ↦ hnone ⟨lexeme, hlexeme, hcover⟩] at hc
    cases hc
  rcases lexemes with - | ⟨head, later⟩
  · cases hlexeme
  · -- the lexeme that starts here is the first one, since the first one does not stop before
    have hordered := (List.pairwise_cons.1 h.ordered).1
    have hhead : head.start ≤ place.offset := by
      rcases List.mem_cons.1 hlexeme with rfl | hlater
      · exact hstart
      · exact ((h.start_lt_stop List.mem_cons_self).le.trans (hordered lexeme hlater)).trans hstart
    obtain ⟨token, spelling, place'⟩ := head
    obtain ⟨before, after, happend, hplace, hfirst⟩ := h.stands _ List.mem_cons_self
    have hnil : before = [] := by
      by_contra hne
      have hlt := place.offset_lt_after hne
      rw [Lexeme.start, hplace] at hhead
      omega
    subst hnil
    cases hplace
    have hstop : Lexeme.stop ⟨token, spelling, place⟩ =
        (place.after ([] ++ spelling.toList)).offset := Lexeme.stop_eq rfl
    rw [List.nil_append] at happend hstop
    rw [← happend] at h
    refine ⟨token, spelling.toList, after, later, happend.symm, ?_, hfirst, ?_⟩
    · rw [String.ofList_toList]
      rfl
    · have h' : Partition place (spelling.toList ++ after) rest
          ([⟨token, spelling, place⟩] ++ later) := h
      refine h'.of_append (fun lexeme hlexeme ↦ ?_) fun lexeme hlexeme ↦ ?_
      · rw [List.mem_singleton.1 hlexeme]
        exact hstop.le
      · rw [← hstop]
        exact hordered lexeme hlexeme

/-! ### The partition and the scanner -/

/-- The scanner finds the lexemes of a partition, and then those of the rest. -/
theorem scanFrom_append (h : Partition place text rest lexemes) :
    scanFrom place (text ++ rest) = (scanFrom (place.after text) rest).map (lexemes ++ ·) := by
  induction hlength : text.length using Nat.strong_induction_on generalizing place text lexemes with
  | h length ih =>
    subst hlength
    rcases text with - | ⟨c, text⟩
    · rw [h.eq_nil, List.nil_append, Place.after_nil]
      cases scanFrom place rest <;> rfl
    · rcases hblank : isBlank c with - | -
      · obtain ⟨token, word, text', later, happend, rfl, hfirst, hlater⟩ := h.exists_first hblank
        have hlt : text'.length < (c :: text).length := by
          have hpos := List.length_pos_iff.2 hfirst.ne_nil
          rw [happend, List.length_append]
          omega
        rw [happend, List.append_assoc, hfirst.scanFrom place, ih _ hlt hlater rfl,
          Place.after_append]
        cases scanFrom ((place.after word).after text') rest <;> rfl
      · rw [List.cons_append, scanFrom_blank hblank, ih _ (Nat.lt_succ_self _) (h.of_blank hblank)
          rfl, ← Place.after_append, List.singleton_append]

/-- A partition of the whole text is what the scanner finds. -/
theorem scanFrom_eq_ok (h : Partition place text [] lexemes) :
    scanFrom place text = .ok lexemes := by
  have hscan := h.scanFrom_append
  rw [List.append_nil, scanFrom_nil] at hscan
  rw [hscan]
  exact congrArg Except.ok (List.append_nil lexemes)

/-- A partition up to a point that starts nothing makes the scanner stop there. -/
theorem scanFrom_eq_error (h : Partition place text rest lexemes) (hstray : IsStray rest) :
    scanFrom place (text ++ rest) = .error (.stray "." (place.column + text.length)) := by
  obtain ⟨rest, rfl, hrest⟩ := hstray
  have hblank : isBlank '.' = false := by decide
  rw [h.scanFrom_append, scanFrom_stray hblank ((firstToken?_eq_none_iff hblank).2 ⟨rfl, hrest⟩)]
  rfl

end Partition

/-- Every text has a partition, up to its end or to a point that begins no token. -/
theorem exists_partition (place : Place) (cs : List Char) : ∃ text rest lexemes,
    text ++ rest = cs ∧ Partition place text rest lexemes ∧ (rest = [] ∨ IsStray rest) := by
  induction place, cs using scanFrom.induct with
  | case1 place => exact ⟨[], [], [], rfl, .nil place [], .inl rfl⟩
  | case2 place c cs hblank ih =>
    obtain ⟨text, rest, lexemes, rfl, hpartition, hend⟩ := ih
    have hhere : Partition place [c] (text ++ rest) [] :=
      .blanks (List.forall_mem_singleton.2 hblank) place _
    exact ⟨c :: text, rest, lexemes, rfl, hhere.append hpartition, hend⟩
  | case3 place c cs hblank token word hfirst ih =>
    rw [firstToken?_eq_some_iff (Bool.of_not_eq_true hblank)] at hfirst
    obtain ⟨later, happend⟩ := hfirst.isPrefix
    rw [← happend] at hfirst ih ⊢
    rw [List.drop_left] at ih
    obtain ⟨text, rest, lexemes, rfl, hpartition, hend⟩ := ih
    exact ⟨word ++ text, rest, _, List.append_assoc _ _ _,
      (Partition.single_token hfirst place).append hpartition, hend⟩
  | case4 place c cs hblank hnone =>
    rw [firstToken?_eq_none_iff (Bool.of_not_eq_true hblank)] at hnone
    obtain ⟨rfl, hrest⟩ := hnone
    exact ⟨[], _, [], rfl, .nil place _, .inr ⟨cs, rfl, hrest⟩⟩

/-- What the scanner finds is a partition of the whole text. -/
theorem partition_of_scanFrom (h : scanFrom place cs = .ok lexemes) :
    Partition place cs [] lexemes := by
  obtain ⟨text, rest, found, rfl, hpartition, rfl | hstray⟩ := exists_partition place cs
  · rw [List.append_nil] at h ⊢
    cases hpartition.scanFrom_eq_ok.symm.trans h
    exact hpartition
  · cases (hpartition.scanFrom_eq_error hstray).symm.trans h

/-- **The scanner cuts a text into its partition.** It gives the lexemes of the text's partition,
and it fails on exactly those texts that have a partition only up to a point that begins no token.
It then reports this point at its column. -/
theorem scan_eq_iff_partition (text : String) :
    (∀ lexemes, scan text = .ok lexemes ↔ Partition {} text.toList [] lexemes) ∧
      ∀ r, scan text = .error r ↔ ∃ done rest lexemes, text.toList = done ++ rest ∧
        IsStray rest ∧ Partition {} done rest lexemes ∧ r = .stray "." (done.length + 1) := by
  refine ⟨fun lexemes ↦ ⟨partition_of_scanFrom, Partition.scanFrom_eq_ok⟩, fun r ↦ ?_⟩
  refine ⟨fun hscan ↦ ?_, ?_⟩
  · obtain ⟨done, rest, lexemes, happend, hpartition, hend⟩ := exists_partition {} text.toList
    rw [scan, ← happend] at hscan
    rcases hend with rfl | hstray
    · rw [List.append_nil] at hscan
      cases hpartition.scanFrom_eq_ok.symm.trans hscan
    · cases (hpartition.scanFrom_eq_error hstray).symm.trans hscan
      exact ⟨done, rest, lexemes, happend.symm, hstray, hpartition, by rw [Nat.add_comm]⟩
  · rintro ⟨done, rest, lexemes, happend, hstray, hpartition, rfl⟩
    rw [scan, happend, hpartition.scanFrom_eq_error hstray, Nat.add_comm]

end Formulae
