import ArithWat.Text.Blank
import ArithWat.Text.Position
import ArithWat.Span
import ArithWat.Token
import ArithWat.Token.Scan
import ArithWat.Fault
import ArithWat.Error
import ArithWat.Tree
import ArithWat.Tree.Grammar
import ArithWat.Tree.Cursor
import ArithWat.Tree.Table
import ArithWat.Number.Decimal
import ArithWat.Number.Binary64
import ArithWat.Number.Literal
import ArithWat.Program
import ArithWat.Program.Scope
import ArithWat.Program.Walk
import ArithWat.Json
import ArithWat.Code
import ArithWat.Code.Render
import ArithWat.Meaning.Eval
import ArithWat.Meaning.Machine
import ArithWat.Script
import ArithWat.Cli
import ArithWat.Main
import ArithWat.Proofs.Outcome
import ArithWat.Proofs.CodeMeaning
import ArithWat.Proofs.Grammar.Derivation
import ArithWat.Proofs.Grammar.Soundness
import ArithWat.Proofs.Grammar.Completeness
import ArithWat.Proofs.Grammar.Balance
import ArithWat.Proofs.Reading
import ArithWat.Proofs.Walking
import ArithWat.Proofs.Storage
import ArithWat.Proofs.Parsing
import ArithWat.Proofs.Scanning
import ArithWat.Proofs.Literals
import ArithWat.Proofs.Spans
import ArithWat.Proofs.Expressible
import ArithWat.Proofs.Printing
import ArithWat.Proofs.RoundTrip
import ArithWat.Proofs.Positions
import ArithWat.Proofs.Restart
import ArithWat.Proofs.Grammar.Relocation
import ArithWat.Proofs.Relocation
import ArithWat.Proofs.Concatenation
import ArithWat.Proofs.Returning
import ArithWat.Proofs.Slots
import ArithWat.Proofs.Decoding
import ArithWat.Proofs.WellFormed
import ArithWat.Proofs.Outline
import ArithWat.Proofs.Grammar.Layout
import ArithWat.Proofs.Layout
import ArithWat.Proofs.SetBeforeRead
import ArithWat.Proofs.Subtree
import ArithWat.Proofs.Pattern
import ArithWat.Proofs.Tiling
import ArithWat.Proofs.Supported
import ArithWat.Proofs.Acceptance
import ArithWat.Proofs.Grammar.Lookahead
import ArithWat.Proofs.Grammar.Assembly
import ArithWat.Proofs.Grammar.Stopping
import ArithWat.Proofs.Grammar.FirstError
import ArithWat.Proofs.References
import ArithWat.Proofs.Flaws
import ArithWat.Proofs.ErrorPositions
import ArithWat.Proofs.Paths
import ArithWat.Proofs.StackDepth
import ArithWat.Proofs.Rounding
import ArithWat.Proofs.Numerals
import ArithWat.Proofs.IntegerScripts
import ArithWat.Proofs.NestingLimit
import ArithWat.Proofs.Constructs
import ArithWat.Proofs.TreeLevels
import ArithWat.Proofs.Lines
import ArithWat.Proofs.BlankScripts
import ArithWat.Proofs.Rendering
import ArithWat.Proofs.Descent
import ArithWat.Proofs.Descent.Bounds
import ArithWat.Proofs.Descent.Calls
import ArithWat.Proofs.Descent.Agreement
import ArithWat.Proofs.Linkage
