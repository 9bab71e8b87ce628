import Lox.CommandLine.Shell
import Lox.Grammar.Cursor
import Lox.Main
import Lox.Run.Forest
import Lox.Proofs.CommandLine.Scripts
import Lox.Proofs.Grammar.Boundaries
import Lox.Proofs.Grammar.Completeness
import Lox.Proofs.Grammar.FirstError
import Lox.Proofs.Grammar.Joining
import Lox.Proofs.Grammar.Kept
import Lox.Proofs.Grammar.Language
import Lox.Proofs.Grammar.Lookahead
import Lox.Proofs.Grammar.Progress
import Lox.Proofs.Grammar.Recognition
import Lox.Proofs.Grammar.Relining
import Lox.Proofs.Grammar.Rounds
import Lox.Proofs.Grammar.Segments
import Lox.Proofs.Grammar.Soundness
import Lox.Proofs.Grammar.Spelling
import Lox.Proofs.Grammar.Step
import Lox.Proofs.Grammar.Tolerance
import Lox.Proofs.Grammar.Tracking
import Lox.Proofs.Grammar.Trees
import Lox.Proofs.Grammar.Viability
import Lox.Proofs.Grammar.Writing
import Lox.Proofs.Runs.Deepening
import Lox.Proofs.Runs.Depth
import Lox.Proofs.Runs.ForLoops
import Lox.Proofs.Runs.Joining
import Lox.Proofs.Runs.Reading
import Lox.Proofs.Runs.Relining
import Lox.Proofs.Runs.Safety
import Lox.Proofs.Runs.Steps
import Lox.Proofs.Runs.TokenOrder
import Lox.Proofs.Runs.TokenSearch
import Lox.Proofs.Scanning.Joining
import Lox.Proofs.Scanning.Lexing
import Lox.Proofs.Scanning.Lines
import Lox.Proofs.Scanning.Munch
import Lox.Proofs.Scanning.Numeral
import Lox.Proofs.Scopes.Chain
import Lox.Proofs.Scopes.Coupling
import Lox.Proofs.Scopes.Dependence
import Lox.Proofs.Scopes.EmptyScope
import Lox.Proofs.Scopes.Mentions
import Lox.Proofs.Scopes.Names
import Lox.Proofs.Scopes.Distance
import Lox.Proofs.Scopes.Resolution
import Lox.Proofs.Scopes.Sharing
import Lox.Proofs.Scopes.Simulation
import Lox.Proofs.Runs.Layout
import Lox.Proofs.Numbers.Bits
import Lox.Proofs.Numbers.Decimals
import Lox.Proofs.Numbers.Texts
import Lox.Proofs.Numbers.Display
import Lox.Proofs.Dumps.Grammar
import Lox.Proofs.Dumps.Atoms
import Lox.Proofs.Dumps.Programs
import Lox.Proofs.Dumps.Validity
import Lox.Proofs.Printing.Programs
import Lox.Proofs.Runs.Comparisons
import Lox.Proofs.Drawings.Numbering
import Lox.Proofs.Drawings.Quoting
import Lox.Proofs.Drawings.Labels
