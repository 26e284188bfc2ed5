import Elementwise.Session
import Elementwise.Proofs.Formula
import Elementwise.Proofs.Grammar.Exactness
import Elementwise.Proofs.Lanes
import Elementwise.Proofs.Formula.Analysis
import Elementwise.Proofs.Emission
import Elementwise.Proofs.Validity
import Elementwise.Proofs.Evaluation
import Elementwise.Proofs.Schedule
import Elementwise.Proofs.Integer
import Elementwise.Proofs.Integer.Exact
import Elementwise.Proofs.Elements
import Elementwise.Proofs.Checking
import Elementwise.Proofs.Safety
import Elementwise.Proofs.Names
import Elementwise.Proofs.Formula.Permitted
import Elementwise.Proofs.Formula.Signs
import Elementwise.Proofs.Gate
import Elementwise.Proofs.StackLimit
import Elementwise.Proofs.History
import Elementwise.Proofs.Runs
import Elementwise.Proofs.Integer.Modular
import Elementwise.Proofs.Order
import Elementwise.Proofs.Substitution
import Elementwise.Proofs.Integer.Operations
import Elementwise.Proofs.Lexemes
import Elementwise.Proofs.Places
import Elementwise.Proofs.Spacing
import Elementwise.Proofs.StackNeed
import Elementwise.Proofs.Formula.Folding
import Elementwise.Proofs.Spelling
import Elementwise.Proofs.Precheck
import Elementwise.Proofs.Cursor
import Elementwise.Proofs.Lossless
import Elementwise.Proofs.Declarable
import Elementwise.Proofs.Numerals
import Elementwise.Proofs.Mistakes
import Elementwise.Proofs.Grammar.Height
import Elementwise.Proofs.Listing
import Elementwise.Proofs.Grammar.Descent
import Elementwise.Proofs.Rounding
import Elementwise.Proofs.Doubles
import Elementwise.Proofs.Wide
