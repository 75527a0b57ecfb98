import Formulae.Proofs.Grammar.Derivation
import Formulae.Proofs.Parse.Steps

/-!
# Rows of inputs

The grammar is about rows and parsers are about inputs. The row of an input has the same tokens in
the same places, and its pieces touch where its lexemes do. Conversely every row is the row of some
lexemes, as long as its first piece touches nothing: they are laid out without any spelling, one
place further for each piece that does not touch.
-/

namespace Formulae

/-! ### From inputs to rows -/

/-- The first piece of a row touches nothing. -/
theorem row_getElem?_zero (lexemes : List Lexeme) :
    (row lexemes)[0]? = lexemes[0]?.map fun lexeme ↦ ⟨lexeme.token, false⟩ := by
  rcases lexemes with - | ⟨lexeme, rest⟩ <;> rfl

/-- Every other piece touches what is in front of it if the lexemes do. -/
theorem row_getElem?_succ (lexemes : List Lexeme) (i : Nat) :
    (row lexemes)[i + 1]? = lexemes[i + 1]?.map fun lexeme ↦
      ⟨lexeme.token, lexemes[i]?.any (·.touches lexeme)⟩ := by
  rw [row, List.getElem?_zipWith, List.getElem?_cons_succ, List.getElem?_map]
  rcases hnext : lexemes[i + 1]? with - | next
  · rcases lexemes[i]? with - | previous <;> rfl
  · have hlt := (List.getElem?_eq_some_iff.1 hnext).1
    rw [List.getElem?_eq_getElem (Nat.lt_of_succ_lt hlt)]
    rfl

/-- A row has the tokens of its lexemes in their places. -/
theorem tokenAt?_row (lexemes : List Lexeme) (i : Nat) :
    tokenAt? (row lexemes) i = lexemes[i]?.map Lexeme.token := by
  rcases i with - | i
  · rw [tokenAt?, row_getElem?_zero, Option.map_map]
    rfl
  · rw [tokenAt?, row_getElem?_succ, Option.map_map]
    rfl

namespace Input

variable (input : Input)

/-- The row of an input. -/
def row : List Piece :=
  Formulae.row input.lexemes.toList

@[simp]
theorem length_row : input.row.length = input.lexemes.size := by
  rw [row, Formulae.length_row, Array.length_toList]

theorem tokenAt?_row (i : Nat) : tokenAt? input.row i = input.token? i := by
  rw [row, Formulae.tokenAt?_row, token?, Array.getElem?_toList]

/-- A piece of the row touches what is in front of it where the parser sees two lexemes touch. -/
theorem touches_row_iff (i : Nat) : Touches input.row i ↔ input.touching i = true := by
  rw [Touches, touching, row, ← Array.getElem?_toList, ← Array.getElem?_toList]
  rcases i with - | i
  · rw [row_getElem?_zero, Nat.zero_sub]
    rcases input.lexemes.toList[0]? with - | lexeme <;> simp
  · rw [row_getElem?_succ, Nat.add_sub_cancel]
    rcases input.lexemes.toList[i + 1]? with - | next
    · rcases input.lexemes.toList[i]? with - | previous <;> simp
    · rcases input.lexemes.toList[i]? with - | previous <;> simp

/-- A call is opened at the same places of the row and of the input. -/
theorem opens_row_iff (i : Nat) : Opens input.row i ↔ input.opens i := by
  rw [opens, ← input.touches_row_iff, ← input.tokenAt?_row, Opens, Touches, tokenAt?]
  rcases input.row[i]? with - | ⟨token, touches⟩
  · simp
  · simp [and_comm]

end Input

/-! ### From rows to lexemes -/

/-- The lexemes of a row, without spelling, behind a lexeme that stops at the given offset. -/
def layOut : Nat → List Piece → List Lexeme
  | _, [] => []
  | stop, piece :: rest =>
    let offset := if piece.touches then stop else stop + 1
    ⟨piece.token, "", ⟨offset, 1⟩⟩ :: layOut offset rest

/-- Lexemes that are laid out behind a lexeme touch it, and each other, as the row says. -/
theorem zipWith_layOut (pieces : List Piece) (previous : Lexeme) :
    List.zipWith (fun previous? lexeme ↦ ⟨lexeme.token, previous?.any (·.touches lexeme)⟩)
      (some previous :: (layOut previous.stop pieces).map some) (layOut previous.stop pieces) =
        pieces := by
  induction pieces generalizing previous with
  | nil => rfl
  | cons piece rest ih =>
    let lexeme : Lexeme := ⟨piece.token, "", ⟨if piece.touches then previous.stop else
      previous.stop + 1, 1⟩⟩
    have htouches : previous.touches lexeme = piece.touches := by
      rcases piece with ⟨token, - | -⟩
      · exact beq_eq_false_iff_ne.2 (Nat.ne_of_lt (Nat.lt_succ_self _))
      · exact beq_self_eq_true _
    refine congrArg₂ List.cons ?_ (ih lexeme)
    show Piece.mk piece.token (previous.touches lexeme) = piece
    rw [htouches]

/-- Every row whose first piece touches nothing is the row of some lexemes. -/
theorem exists_row_eq (pieces : List Piece) (hfirst : ∀ piece, pieces[0]? = some piece →
    piece.touches = false) : ∃ lexemes, row lexemes = pieces := by
  rcases pieces with - | ⟨⟨token, touches⟩, rest⟩
  · exact ⟨[], rfl⟩
  · obtain rfl : touches = false := hfirst _ rfl
    let first : Lexeme := ⟨token, "", ⟨0, 1⟩⟩
    refine ⟨first :: layOut first.stop rest, ?_⟩
    exact congrArg (⟨token, false⟩ :: ·) (zipWith_layOut rest first)

end Formulae
