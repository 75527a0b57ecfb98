import Formulae.Formula

/-!
# Sessions

Settings that can be changed, and formulas that were parsed under them and given names. Changing
the settings does not reach back: a formula keeps what it was parsed with. A text that is no
formula leaves the name as it was.
-/

namespace Formulae

/-- Settings and named formulas. -/
structure Session where
  settings : Settings := {}
  /-- The formulas by name; of several with one name the first counts. -/
  formulas : List (String × Formula) := []

namespace Session

/-- The formula of a name. -/
def find? (session : Session) (name : String) : Option Formula :=
  session.formulas.lookup name

/-- Change the settings for later texts. -/
def configure (session : Session) (settings : Settings) : Session :=
  { session with settings := settings }

/-- Give a name to the formula of a text, if the text is one. -/
def define (session : Session) (name text : String) :
    Except Rejection (Formula × Session) := do
  let formula ← session.settings.parse text
  return (formula, { session with formulas := (name, formula) :: session.formulas })

/-- A name means the formula defined last under it. -/
theorem find?_define {session session' : Session} {name text : String} {formula : Formula}
    (h : session.define name text = .ok (formula, session')) :
    session'.find? name = some formula := by
  unfold define at h
  cases hp : session.settings.parse text with
  | error => simp [hp, bind, Except.bind] at h
  | ok f =>
    simp only [hp, bind, Except.bind, pure, Except.pure, Except.ok.injEq, Prod.mk.injEq] at h
    obtain ⟨rfl, rfl⟩ := h
    simp [find?]

end Session

end Formulae
