import Formulae.Decimal.Reading
import Formulae.Rejection
import Formulae.Text.Blank
import Formulae.Token

/-!
# Lexemes

A lexeme is a token together with the piece of text it was read from and the place where that
piece starts. Blanks separate lexemes and belong to none, but they are not forgotten: `f(x)` and
`f (x)` are different formulas, and whether two neighbours touch is read off their places
(`Lexeme.touches`).

Scanning is longest-match. Its four token classes are told apart by the first character alone:

* a glyph stands for itself;
* a digit, or a point directly before a digit, starts a **numeral**, which takes a fraction and an
  exponent only if they are complete — so `2e+` is the numeral `2` and the name `e`, and `1.2.3` is
  two numerals;
* any other character that is neither blank nor a point starts a name, which runs to the next blank
  or glyph and may contain digits and points;
* a point not directly before a digit starts nothing. It is the only fault a text can have here.
-/

namespace Formulae

/-- A place in a text, as a byte offset from 0 and a character column from 1. -/
structure Place where
  offset : Nat := 0
  column : Nat := 1
deriving DecidableEq

/-- The place after the given characters. -/
def Place.after (place : Place) (cs : List Char) : Place :=
  ⟨cs.foldl (fun offset c ↦ offset + c.utf8Size) place.offset, place.column + cs.length⟩

/-- A token and the piece of text it was read from. -/
structure Lexeme where
  token : Token
  spelling : String
  /-- Where the piece of text starts. -/
  place : Place
deriving DecidableEq

namespace Lexeme

/-- The byte offset at which the piece of text starts. -/
def start (lexeme : Lexeme) : Nat :=
  lexeme.place.offset

/-- The byte offset just past the piece of text. -/
def stop (lexeme : Lexeme) : Nat :=
  lexeme.place.offset + lexeme.spelling.utf8ByteSize

/-- The character column at which the piece of text starts. -/
def column (lexeme : Lexeme) : Nat :=
  lexeme.place.column

/-- The second lexeme starts exactly where the first one stops. -/
def touches (first second : Lexeme) : Bool :=
  first.stop == second.start

end Lexeme

/-! ### Token classes -/

/-- The characters that may continue a name. -/
def isNameChar (c : Char) : Bool :=
  !isBlank c && (Glyph.ofChar? c).isNone

/-- The characters that may start a name. -/
def isNameStart (c : Char) : Bool :=
  isNameChar c && !c.isDigit && c != '.'

/-- A run of digits in front of a text, and the rest. -/
def takeDigits (cs : List Char) : List Char × List Char :=
  cs.span Char.isDigit

/-- A fraction in front of a text, if a complete one stands there, and the rest. -/
def takeFraction : List Char → List Char × List Char
  | '.' :: cs =>
    match takeDigits cs with
    | ([], _) => ([], '.' :: cs)
    | (ds, rest) => ('.' :: ds, rest)
  | cs => ([], cs)

/-- An exponent in front of a text, if a complete one stands there, and the rest. -/
def takeExponent : List Char → List Char × List Char
  | [] => ([], [])
  | mark :: cs =>
    if mark = 'e' ∨ mark = 'E' then
      let (sign, afterSign) := match cs with
        | '+' :: rest => (['+'], rest)
        | '-' :: rest => (['-'], rest)
        | rest => ([], rest)
      match takeDigits afterSign with
      | ([], _) => ([], mark :: cs)
      | (ds, rest) => (mark :: sign ++ ds, rest)
    else ([], mark :: cs)

/-- The longest numeral in front of a text, and the rest. -/
def takeNumeral (cs : List Char) : List Char × List Char :=
  let (whole, afterWhole) := takeDigits cs
  let (fraction, afterFraction) := takeFraction afterWhole
  if whole.isEmpty && fraction.isEmpty then ([], cs)
  else
    let (exponent, rest) := takeExponent afterFraction
    (whole ++ fraction ++ exponent, rest)

/-- The number in front of a text, with its spelling. -/
def firstNumber? (cs : List Char) : Option (Token × List Char) :=
  match takeNumeral cs with
  | ([], _) => none
  | (spelling, _) => (Decimal.read spelling).toOption.map (.number ·, spelling)

/-- The first token of a text that does not start with a blank, with its spelling. -/
def firstToken? : List Char → Option (Token × List Char)
  | [] => none
  | c :: rest =>
    match Glyph.ofChar? c with
    | some g => some (.glyph g, [c])
    | none =>
      if isNameStart c then
        let spelling := c :: rest.takeWhile isNameChar
        some (.identifier (String.ofList spelling), spelling)
      else firstNumber? (c :: rest)

/-- A token is read from at least one character. -/
theorem length_pos_of_firstToken? {cs : List Char} {token : Token} {spelling : List Char}
    (h : firstToken? cs = some (token, spelling)) : 0 < spelling.length := by
  unfold firstToken? at h
  split at h
  · cases h
  · split at h
    · cases h
      simp
    · split at h
      · cases h
        simp
      · unfold firstNumber? at h
        split at h
        · cases h
        · next hne _ =>
          simp only [Option.map_eq_some_iff, Prod.mk.injEq] at h
          obtain ⟨_, _, _, rfl⟩ := h
          exact List.length_pos_iff.2 fun hnil ↦ by simp_all

/-! ### Scanning -/

/-- The lexemes of a text that starts at a place. -/
def scanFrom (place : Place) (cs : List Char) : Except Rejection (List Lexeme) :=
  match cs with
  | [] => .ok []
  | c :: rest =>
    if isBlank c then scanFrom (place.after [c]) rest
    else
      match _taken : firstToken? (c :: rest) with
      | some (token, spelling) =>
        (scanFrom (place.after spelling) ((c :: rest).drop spelling.length)).map
          (⟨token, String.ofList spelling, place⟩ :: ·)
      | none => .error (.stray c.toString place.column)
termination_by cs.length
decreasing_by
  · simp
  · have := length_pos_of_firstToken? _taken
    simp only [List.length_drop, List.length_cons]
    omega

/-- The lexemes of a text, or the first character that belongs to none. -/
def scan (text : String) : Except Rejection (List Lexeme) :=
  scanFrom {} text.toList

end Formulae
