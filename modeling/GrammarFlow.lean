import GrammarFlow.CommandLine
import GrammarFlow.Hooks
import GrammarFlow.Main
import GrammarFlow.NameTable
import GrammarFlow.Proofs.Lockstep
import GrammarFlow.Proofs.Failure
import GrammarFlow.Proofs.Derivation.Acyclic
import GrammarFlow.Proofs.Derivation.Ambiguity
import GrammarFlow.Proofs.Derivation.Assembly
import GrammarFlow.Proofs.Document.RoundTrip
import GrammarFlow.Proofs.Tree.Concrete
import GrammarFlow.Proofs.Tree.Display
import GrammarFlow.Proofs.Tree.Serialized
import GrammarFlow.Proofs.CommandLine
import GrammarFlow.Proofs.Grammar.Building
import GrammarFlow.Proofs.Checked.Bounds
import GrammarFlow.Proofs.Chart.Precedence
import GrammarFlow.Proofs.Grammar.Lookup
import GrammarFlow.Proofs.Hooks
import GrammarFlow.Proofs.Arcs
import GrammarFlow.Proofs.Assembly.Outcome
import GrammarFlow.Proofs.Assembly.Frame
import GrammarFlow.Proofs.Assembly.Simulation
import GrammarFlow.Proofs.Assembly.Naturality
import GrammarFlow.Proofs.Assembly.Numbered
import GrammarFlow.Proofs.Assembly.Conservation
import GrammarFlow.Proofs.Assembly.Placement
import GrammarFlow.Proofs.Derivation.Visibility
import GrammarFlow.Proofs.Chart.Calls
import GrammarFlow.Proofs.Chart.Age
import GrammarFlow.Proofs.Termination
import GrammarFlow.Proofs.Registrations
import GrammarFlow.Proofs.Tree.Traversal
import GrammarFlow.Proofs.Grammar.Tables
import GrammarFlow.Proofs.Checked.Links
