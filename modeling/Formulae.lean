import Formulae.Main
import Formulae.Parse.Program
import Formulae.Proofs.Expectation.Hopelessness
import Formulae.Proofs.Grammar.Meaning
import Formulae.Session
import Formulae.Proofs.Parse.Limit
import Formulae.Proofs.Names.Gaps
import Formulae.Proofs.Decimal.Packing
import Formulae.Proofs.Names.Folding
import Formulae.Proofs.Decimal.Nearest
import Formulae.Proofs.Decimal.Shortest
import Formulae.Proofs.Decimal.Numerals
import Formulae.Proofs.RoundTrip.Rendering
import Formulae.Proofs.RoundTrip.Settled
import Formulae.Proofs.RoundTrip.Text
import Formulae.Proofs.Implied.Extension
import Formulae.Proofs.Names.Repair
import Formulae.Proofs.Parse.Layout
import Formulae.Proofs.Names.Factoring
import Formulae.Proofs.Grammar.Height
import Formulae.Proofs.Names.Relevance
import Formulae.Proofs.Grammar.Composition
import Formulae.Proofs.Implied.Power
import Formulae.Proofs.Parse.Chaining
import Formulae.Proofs.Parse.Store
import Formulae.Proofs.Names.Scaling
import Formulae.Proofs.Expectation.Absence
import Formulae.Proofs.Expectation.Location
import Formulae.Proofs.Expectation.Caret
import Formulae.Proofs.Parse.Calls
import Formulae.Proofs.Parse.History
