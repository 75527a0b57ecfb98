/-!
# Plain text

A terminal obeys some characters instead of showing them: lone controls, and **control sequences**,
which start at an escape character and run to a final character that depends on their kind. A text
that does not go to a terminal is written plain, that is, without all of these. It does not matter
whether a sequence was put there on purpose, so a sequence that an argument leaves open swallows
what is written after the argument.

The kinds of sequences are the `Stretch`es of a text other than its shown one. Three rules are less
than obvious. A blank control in the middle of a sequence is shown, and so is what follows it, up to
the next control; the sequence goes on there. The terminator of a hidden string is looked for among
the bytes of a character, not among characters. And a string for the device is hidden from the
character on that ends its parameters, whether that character is their final one or is not allowed
there; until then no terminator is looked for.
-/

namespace Formulae

/-- The part of a control sequence that a text has reached. -/
inductive Stretch where
  /-- Outside of all sequences. -/
  | shown
  /-- After an escape character. -/
  | escape
  /-- After an escape character and characters that put off the final one. -/
  | escapeDelayed
  /-- In the parameters of a control function. -/
  | parameters
  /-- In front of the parameters of a string for the device. -/
  | deviceEntry
  /-- In the parameters of a string for the device. -/
  | deviceParameters
  /-- In the characters that put off the final one of those parameters. -/
  | deviceDelayed
  /-- In a string that is not shown. -/
  | hidden
  /-- In a command for the system around the terminal. -/
  | systemCommand
deriving DecidableEq

/-- A control that moves on the page and is kept in plain text. -/
def isBlankControl (c : Char) : Bool :=
  c = '\t' || c = '\n' || c = '\x0c' || c = '\r'

/-- A character that is kept in plain text when it stands outside of all sequences. -/
def isPlain (c : Char) : Bool :=
  isBlankControl c || (' ' ≤ c && c ≠ '\x7f')

namespace Stretch

/-- The stretch after one more character. -/
def next (stretch : Stretch) (c : Char) : Stretch :=
  if c = '\x1b' then escape
  else if c = '\x18' ∨ c = '\x1a' then shown
  else
    match stretch with
    | shown => shown
    | escape =>
      if c = '[' then parameters
      else if c = ']' then systemCommand
      else if c = 'P' then deviceEntry
      else if c ∈ ['X', '^', '_'] then hidden
      else if ' ' ≤ c ∧ c ≤ '/' then escapeDelayed
      else if '0' ≤ c ∧ c ≤ '~' then shown
      else escape
    | escapeDelayed => if '0' ≤ c ∧ c ≤ '~' then shown else escapeDelayed
    | parameters => if '@' ≤ c ∧ c ≤ '~' then shown else parameters
    | deviceEntry =>
      if ' ' ≤ c ∧ c ≤ '/' then deviceDelayed
      else if '0' ≤ c ∧ c ≤ '?' then deviceParameters
      else if '@' ≤ c ∧ c ≤ '~' then hidden
      else deviceEntry
    | deviceParameters =>
      if ' ' ≤ c ∧ c ≤ '/' then deviceDelayed
      else if '<' ≤ c ∧ c ≤ '~' then hidden
      else deviceParameters
    | deviceDelayed => if '0' ≤ c ∧ c ≤ '~' then hidden else deviceDelayed
    | hidden => if 0x9C ∈ String.utf8EncodeChar c then shown else hidden
    | systemCommand => if c = '\x07' then shown else systemCommand

/-- Whether a character on a stretch is kept in plain text. -/
def keeps (stretch : Stretch) (c : Char) : Bool :=
  match stretch with
  | shown => isPlain c
  | escape => isBlankControl c
  | escapeDelayed => isBlankControl c
  | parameters => isBlankControl c
  | _ => false

end Stretch

/-- The plain form of the rest of a text on a stretch. After a character that was kept, plain
characters are kept whatever the stretch. -/
def plainFrom (kept : Bool) (stretch : Stretch) : List Char → List Char
  | [] => []
  | c :: rest =>
    if kept && isPlain c then
      c :: plainFrom true (if c.toNat < 0x80 then stretch else .shown) rest
    else if stretch.keeps c then c :: plainFrom true (stretch.next c) rest
    else plainFrom false (stretch.next c) rest

/-- A text without everything that a terminal would obey. -/
def plain (text : String) : String :=
  String.ofList (plainFrom false .shown text.toList)

/-- A plain character does not leave the shown stretch. -/
theorem Stretch.next_shown_of_isPlain {c : Char} (h : isPlain c = true) : shown.next c = shown := by
  unfold next
  split
  · subst_vars
    exact absurd h (by decide)
  · split <;> rfl

/-- A text of plain characters is its own plain form. -/
theorem plain_eq_self {text : String} (h : ∀ c ∈ text.toList, isPlain c = true) :
    plain text = text := by
  suffices hcs : ∀ (cs : List Char) (kept : Bool), (∀ c ∈ cs, isPlain c = true) →
      plainFrom kept .shown cs = cs by
    rw [plain, hcs _ _ h, String.ofList_toList]
  intro cs
  induction cs with
  | nil => intros; rfl
  | cons c rest ih =>
    intro kept h
    have hc := h c List.mem_cons_self
    have hrest := fun kept ↦ ih kept fun d hd ↦ h d (List.mem_cons_of_mem c hd)
    cases kept <;>
      simp [plainFrom, hc, Stretch.keeps, Stretch.next_shown_of_isPlain, hrest]

end Formulae
