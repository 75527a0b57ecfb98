import Formulae.Proofs.Parse.Limit
import Formulae.Proofs.Scanning.Insertion

/-!
# Layout

Blanks between lexemes are there for the reader of a formula. There are two places where they mean
something: behind a sign, which belongs to an operand only if it touches it, and between a name and
a parenthesis, which make a call only if they touch. Blanks inserted anywhere else (`IsGap`), in
particular at both ends of the text, change neither the formula nor what is found wrong with the
text; what is wrong may only be found further to the right (`Rejection.moved`).

The parser reads the places of lexemes for two purposes, to see whether neighbours touch and to tell
the column of a rejection. The run over the lexemes with blanks inserted therefore keeps step with
the one over the lexemes themselves (`Input.alike_moved`): both stand at the same position all the
time, with the same record of what was expected, and only rejections differ, by their columns.
-/

namespace Formulae

/-- The column of what stands at a column, once characters are inserted behind the first `count`
ones. -/
def movedColumn (count inserted column : ℕ) : ℕ :=
  if count < column then column + inserted else column

/-- The same rejection at the column that its place has moved to. -/
def Rejection.moved (count inserted : ℕ) : Rejection → Rejection
  | stray text column => stray text (movedColumn count inserted column)
  | unexpected found expected column =>
    unexpected found expected (movedColumn count inserted column)
  | incomplete expected column => incomplete expected (movedColumn count inserted column)
  | tooDeep limit column => tooDeep limit (movedColumn count inserted column)

/-- An offset at which blanks may be inserted. It lies in no lexeme, and neither between a sign and
what touches it nor between a name and a parenthesis that touches it. -/
structure IsGap (lexemes : List Lexeme) (offset : ℕ) : Prop where
  apart : ∀ lexeme ∈ lexemes, lexeme.stop ≤ offset ∨ offset ≤ lexeme.start
  not_signed : ∀ previous ∈ lexemes, ∀ next ∈ lexemes, previous.stop = offset →
    next.start = offset → previous.token ≠ .glyph .minus
  not_called : ∀ previous ∈ lexemes, ∀ next ∈ lexemes, previous.stop = offset →
    next.start = offset → next.token = .glyph .openParen →
      ∀ name, previous.token ≠ .identifier name

variable {left right text blanks : List Char} {lexemes : List Lexeme}

/-! ### Gaps -/

/-- Blanks may stand in front of a text. -/
theorem isGap_zero (h : Partition {} text [] lexemes) : IsGap lexemes 0 where
  apart lexeme _ := .inr lexeme.start.zero_le
  not_signed _ hprevious _ _ hstop _ :=
    absurd hstop (Nat.ne_zero_of_lt (h.start_lt_stop hprevious))
  not_called _ hprevious _ _ hstop _ _ :=
    absurd hstop (Nat.ne_zero_of_lt (h.start_lt_stop hprevious))

/-- Blanks may stand behind a text. -/
theorem isGap_end (h : Partition {} text [] lexemes) :
    IsGap lexemes (({} : Place).after text).offset := by
  have hlt (next : Lexeme) (hnext : next ∈ lexemes) :
      next.start ≠ (({} : Place).after text).offset :=
    ((h.start_lt_stop hnext).trans_le (h.stop_le hnext)).ne
  exact ⟨fun _ hlexeme ↦ .inl (h.stop_le hlexeme),
    fun _ _ next hnext _ hstart ↦ absurd hstart (hlt next hnext),
    fun _ _ next hnext _ hstart ↦ absurd hstart (hlt next hnext)⟩

/-- The end of a lexeme is a gap, except behind a sign and between a name and the parenthesis of its
call. -/
theorem isGap_stop {lexeme : Lexeme} (h : Partition {} text [] lexemes)
    (hlexeme : lexeme ∈ lexemes) (hsign : lexeme.token ≠ .glyph .minus)
    (hcall : ∀ next ∈ lexemes, next.start = lexeme.stop → next.token = .glyph .openParen →
      ∀ name, lexeme.token ≠ .identifier name) : IsGap lexemes lexeme.stop := by
  have hpos := h.start_lt_stop hlexeme
  have hunique (previous : Lexeme) (hprevious : previous ∈ lexemes)
      (hstop : previous.stop = lexeme.stop) : previous = lexeme := by
    by_contra hne
    have hpos' := h.start_lt_stop hprevious
    rcases h.disjoint hprevious hlexeme hne with hle | hle <;> omega
  refine ⟨fun other hother ↦ ?_, fun previous hprevious _ _ hstop _ ↦ ?_,
    fun previous hprevious next hnext hstop hstart hopen ↦ ?_⟩
  · by_cases heq : other = lexeme
    · rw [heq]
      exact .inl le_rfl
    · exact (h.disjoint hother hlexeme heq).imp (fun hle ↦ (hle.trans_lt hpos).le) id
  · rwa [hunique previous hprevious hstop]
  · rw [hunique previous hprevious hstop]
    exact hcall next hnext hstart hopen

/-! ### Lexemes -/

namespace Lexeme

variable {lexeme previous next : Lexeme} {offset : ℕ}

theorem moved_token : (lexeme.moved offset blanks).token = lexeme.token := by
  rw [moved]
  split <;> rfl

theorem moved_spelling : (lexeme.moved offset blanks).spelling = lexeme.spelling := by
  rw [moved]
  split <;> rfl

/-- The column of a lexeme moves as its offset does. -/
theorem moved_column (h : Partition {} (left ++ right) [] lexemes) (hlexeme : lexeme ∈ lexemes) :
    (lexeme.moved (({} : Place).after left).offset blanks).column =
      movedColumn left.length blanks.length lexeme.column := by
  have hiff : (({} : Place).after left).offset ≤ lexeme.start ↔ left.length < lexeme.column := by
    rw [h.le_start_iff hlexeme, Nat.lt_iff_add_one_le, Nat.add_comm left.length]
    rfl
  simp only [moved, movedColumn, hiff]
  split <;> rfl

/-- Neighbours touch after blanks are inserted if they have touched before, unless the blanks are
inserted between them. -/
theorem touches_moved (hprevious : previous.start < previous.stop)
    (hle : previous.stop ≤ next.start) (hapart : previous.stop ≤ offset ∨ offset ≤ previous.start)
    (hloose : previous.stop = offset → next.start ≠ offset) :
    (previous.moved offset blanks).touches (next.moved offset blanks) = previous.touches next := by
  rw [touches, touches, Bool.eq_iff_iff, beq_iff_eq, beq_iff_eq]
  rcases hapart with hstop | hstart
  · rw [moved_of_lt (by omega)]
    rcases Nat.lt_or_ge next.start offset with hlt | hge
    · rw [moved_of_lt hlt]
    · rw [moved_of_le hge, start_behind]
      omega
  · rw [moved_of_le hstart, moved_of_le (by omega), stop_behind, start_behind]
    omega

end Lexeme

/-! ### Inputs -/

namespace Input

/-- The input of a parse with blanks inserted at an offset. -/
def moved (input : Input) (offset : ℕ) (blanks : List Char) : Input :=
  { input with
    lexemes := input.lexemes.map (·.moved offset blanks)
    length := input.length + blanks.length }

variable {input : Input} {offset i : ℕ}

/-- Lexemes of a text that stand next to each other. -/
theorem stop_le_start_of_getElem? {previous next : Lexeme}
    (h : Partition {} (left ++ right) [] input.lexemes.toList)
    (hprevious : input.lexemes[i]? = some previous) (hnext : input.lexemes[i + 1]? = some next) :
    previous.stop ≤ next.start := by
  obtain ⟨hi, rfl⟩ := Array.getElem?_eq_some_iff.1 hprevious
  obtain ⟨hj, rfl⟩ := Array.getElem?_eq_some_iff.1 hnext
  exact List.pairwise_iff_getElem.1 h.ordered i (i + 1) hi hj (Nat.lt_succ_self i)

theorem mem_of_getElem? {lexeme : Lexeme} (hlexeme : input.lexemes[i]? = some lexeme) :
    lexeme ∈ input.lexemes.toList :=
  Array.mem_toList_iff.2 (Array.mem_of_getElem? hlexeme)

theorem token?_of_getElem? {lexeme : Lexeme} (hlexeme : input.lexemes[i]? = some lexeme) :
    input.token? i = some lexeme.token := by
  rw [token?, hlexeme]
  rfl

/-- The parser sees the same tokens. -/
theorem moved_token? (input : Input) (i : ℕ) :
    (input.moved offset blanks).token? i = input.token? i := by
  simp only [token?, moved, Array.getElem?_map, Option.map_map]
  congr 1
  exact funext fun _ ↦ Lexeme.moved_token

/-- The end of the text moves if anything is inserted in front of it. -/
theorem moved_endColumn (hlength : input.length = left.length + right.length) (offset : ℕ) :
    (input.moved offset blanks).endColumn =
      movedColumn left.length blanks.length input.endColumn := by
  rw [movedColumn, if_pos (by rw [endColumn]; omega), endColumn, endColumn, Nat.add_right_comm]
  rfl

/-- The column of every position moves, that of the end included. -/
theorem moved_column (h : Partition {} (left ++ right) [] input.lexemes.toList)
    (hlength : input.length = left.length + right.length) (i : ℕ) :
    (input.moved (({} : Place).after left).offset blanks).column i =
      movedColumn left.length blanks.length (input.column i) := by
  rw [column, column, moved, Array.getElem?_map]
  rcases hlexeme : input.lexemes[i]? with - | lexeme
  · exact moved_endColumn hlength _
  · exact Lexeme.moved_column h (mem_of_getElem? hlexeme)

/-- The parser sees neighbours touch as before if blanks are inserted neither into a lexeme nor
between the two. -/
theorem moved_touching (h : Partition {} (left ++ right) [] input.lexemes.toList)
    (hapart : ∀ lexeme ∈ input.lexemes.toList, lexeme.stop ≤ offset ∨ offset ≤ lexeme.start)
    (hloose : ∀ previous next, input.lexemes[i]? = some previous →
      input.lexemes[i + 1]? = some next → previous.stop = offset → next.start ≠ offset) :
    (input.moved offset blanks).touching (i + 1) = input.touching (i + 1) := by
  rw [touching, touching, moved, Array.getElem?_map, Array.getElem?_map, Nat.add_sub_cancel]
  rcases hprevious : input.lexemes[i]? with - | previous
  · rfl
  rcases hnext : input.lexemes[i + 1]? with - | next
  · rfl
  have hmem := mem_of_getElem? hprevious
  have htouches : (previous.moved offset blanks).touches (next.moved offset blanks) =
      previous.touches next :=
    Lexeme.touches_moved (h.start_lt_stop hmem) (stop_le_start_of_getElem? h hprevious hnext)
      (hapart previous hmem) (hloose previous next hprevious hnext)
  exact congrArg (decide (0 < i + 1) && ·) htouches

/-- The same record makes the same rejection, at the column that the place has moved to. -/
theorem rejection_moved (h : Partition {} (left ++ right) [] input.lexemes.toList)
    (hlength : input.length = left.length + right.length) {head head' : Head}
    (hfurthest : head'.furthest = head.furthest) :
    head'.rejection (input.moved (({} : Place).after left).offset blanks) =
      (head.rejection input).moved left.length blanks.length := by
  rw [Head.rejection, Head.rejection, hfurthest]
  rcases head.furthest with - | e
  · exact congrArg (Rejection.incomplete _) (moved_endColumn hlength _)
  · simp only [moved, Array.getElem?_map]
    rcases hlexeme : input.lexemes[e.position]? with - | lexeme
    · exact congrArg (Rejection.incomplete _) (moved_endColumn hlength 0)
    · simp only [Option.map_some, Lexeme.moved_spelling, Rejection.moved,
        Lexeme.moved_column h (mem_of_getElem? hlexeme)]

end Input

/-! ### Keeping step -/

/-- Blanks in a gap do not change how an input is read. -/
theorem Input.alike_moved {input : Input} {offset : ℕ}
    (h : Partition {} (left ++ right) [] input.lexemes.toList)
    (hgap : IsGap input.lexemes.toList offset) (blanks : List Char) :
    input.Alike (input.moved offset blanks) where
  token?_eq i := (input.moved_token? i).symm
  opens_iff i name hname := by
    rw [opens, opens, moved_token?]
    refine and_congr_left fun hopen ↦ ?_
    rw [moved_touching h hgap.apart]
    intro previous next hprevious hnext hstop hstart
    rw [token?_of_getElem? hprevious] at hname
    rw [token?_of_getElem? hnext] at hopen
    exact hgap.not_called previous (mem_of_getElem? hprevious) next (mem_of_getElem? hnext) hstop
      hstart (Option.some.inj hopen) name (Option.some.inj hname)
  touching_eq i hminus := by
    rw [moved_touching h hgap.apart]
    intro previous next hprevious hnext hstop hstart
    rw [token?_of_getElem? hprevious] at hminus
    exact hgap.not_signed previous (mem_of_getElem? hprevious) next (mem_of_getElem? hnext) hstop
      hstart (Option.some.inj hminus)
  implied_eq := rfl
  names_alike _ name _ := .refl _ name

namespace Settings

/-- The two plain runs come to the same, up to the column of a rejection. -/
theorem conclude_plainRun_moved {input : Input}
    (h : Partition {} (left ++ right) [] input.lexemes.toList)
    (hlength : input.length = left.length + right.length)
    (hgap : IsGap input.lexemes.toList (({} : Place).after left).offset) (blanks : List Char) :
    conclude (input.moved (({} : Place).after left).offset blanks)
        (plainRun (input.moved (({} : Place).after left).offset blanks)) =
      (conclude input (plainRun input)).mapError (·.moved left.length blanks.length) :=
  conclude_plainRun_of_alike (Input.alike_moved h hgap blanks) rfl
    (fun i ↦ congrArg (Rejection.tooDeep _) (Input.moved_column h hlength i))
    fun _ _ ↦ Input.rejection_moved h hlength

/-- The input of the longer text is that of the shorter one, moved. -/
theorem input_insert (settings : Settings) (left right blanks : String) (lexemes : List Lexeme) :
    settings.input (left ++ blanks ++ right)
        (lexemes.map (·.moved left.utf8ByteSize blanks.toList)) =
      (settings.input (left ++ right) lexemes).moved left.utf8ByteSize blanks.toList := by
  rw [input, input, Input.moved, List.map_toArray]
  congr 1
  simp only [String.length_append, String.length_toList]
  omega

/-- **Blanks between lexemes do not matter.** A text with blanks inserted in a gap is parsed to the
same formula, or rejected for the same reason at the place that has moved with the text. -/
theorem parse_insert_blanks (settings : Settings) {left right blanks : String}
    (hscan : scan (left ++ right) = .ok lexemes) (hgap : IsGap lexemes left.utf8ByteSize)
    (hblanks : ∀ c ∈ blanks.toList, isBlank c = true) :
    settings.parse (left ++ blanks ++ right) =
      (settings.parse (left ++ right)).mapError (·.moved left.length blanks.length) := by
  have hpartition : Partition {} (left.toList ++ right.toList) []
      (settings.input (left ++ right) lexemes).lexemes.toList := by
    rw [← String.toList_append]
    exact partition_of_scanFrom hscan
  have hlength : (settings.input (left ++ right) lexemes).length =
      left.toList.length + right.toList.length := by
    rw [String.length_toList, String.length_toList, ← String.length_append]
    rfl
  have hscan' := scan_insert hscan hblanks hgap.apart
  rw [← offset_after_toList] at hgap
  have hconclude := conclude_plainRun_moved hpartition hlength hgap blanks.toList
  rw [offset_after_toList, ← input_insert, conclude_plainRun, conclude_plainRun,
    String.length_toList, String.length_toList] at hconclude
  rw [parse_of_scan hscan, parse_of_scan hscan', hconclude]
  cases conclude (settings.input (left ++ right) lexemes)
    (run (settings.input (left ++ right) lexemes)) <;> rfl

/-- A sign that touches the parenthesis in front of it may be moved away from it. The parenthesis
behind the sign is then rejected two columns further to the right. -/
theorem parse_insert_blanks_before_sign :
    let lexemes := [⟨.identifier "f", "f", ⟨0, 1⟩⟩, ⟨.glyph .openParen, "(", ⟨1, 2⟩⟩,
      ⟨.identifier "λ", "λ", ⟨2, 3⟩⟩, ⟨.glyph .closeParen, ")", ⟨4, 4⟩⟩,
      ⟨.glyph .minus, "-", ⟨5, 5⟩⟩, ⟨.glyph .closeParen, ")", ⟨6, 6⟩⟩]
    scan ("f(λ)" ++ "-)") = .ok lexemes ∧ IsGap lexemes "f(λ)".utf8ByteSize ∧
      (∀ c ∈ "\t ".toList, isBlank c = true) ∧
      Settings.parse {} ("f(λ)" ++ "-)") =
        .error (.unexpected ")" [.identifier, .openParen, .number, .minus] 6) ∧
      Settings.parse {} ("f(λ)" ++ "\t " ++ "-)") =
        .error (.unexpected ")" [.identifier, .openParen, .number, .minus] 8) := by
  intro lexemes
  have hscan : scan ("f(λ)" ++ "-)") = .ok lexemes := by
    decide +kernel
  have hgap : IsGap lexemes (Lexeme.stop ⟨.glyph .closeParen, ")", ⟨4, 4⟩⟩) :=
    isGap_stop (partition_of_scanFrom hscan) (by decide) (by decide) fun _ _ _ _ _ hname ↦ by
      cases hname
  have hblanks : ∀ c ∈ "\t ".toList, isBlank c = true := by
    simp
    decide
  have hparse : Settings.parse {} ("f(λ)" ++ "-)") =
      .error (.unexpected ")" [.identifier, .openParen, .number, .minus] 6) :=
    parse_eq_error_of_map (by decide +kernel)
  refine ⟨hscan, hgap, hblanks, hparse, ?_⟩
  rw [parse_insert_blanks {} hscan hgap hblanks, hparse]
  rfl

end Settings

end Formulae
