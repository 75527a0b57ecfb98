/-!
# Columns

A place in a text is known by two numbers: its **offset**, which counts the bytes of its UTF-8
form from 0, and its **column**, which counts characters from 1. A character takes one column
however many bytes it takes, so the two agree (up to the shift) only on ASCII.

An offset need not be a place at all: it may lie past the end or inside a character.
`charsBefore?` answers only for places, and `columnOf` sends everything else to the column just
past the last character.
-/

namespace Formulae

/-- How many characters fill exactly the first `offset` bytes, if a whole number of them does. -/
def charsBefore? : Nat → List Char → Option Nat
  | 0, _ => some 0
  | _ + 1, [] => none
  | offset + 1, c :: rest =>
    if c.utf8Size ≤ offset + 1 then (charsBefore? (offset + 1 - c.utf8Size) rest).map (· + 1)
    else none

/-- The column of a byte offset. Offsets that are no place in the text share the column just past
its last character. -/
def columnOf (text : String) (offset : Nat) : Nat :=
  (charsBefore? offset text.toList).getD text.length + 1

/-- The start of a text is its first column. -/
@[simp]
theorem columnOf_zero (text : String) : columnOf text 0 = 1 := by
  cases h : text.toList <;> simp [columnOf, charsBefore?]

/-- The first line of a text, as a reader of lines sees it: a line break ends it and belongs to
no line, and a carriage return is dropped only where it stands directly before the break. -/
def firstLine (text : String) : String :=
  let line := text.toList.takeWhile (· ≠ '\n')
  if line.length < text.length && line.getLast? == some '\r' then String.ofList line.dropLast
  else String.ofList line

end Formulae
