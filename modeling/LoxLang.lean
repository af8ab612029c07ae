import LoxLang.CommandLine
import LoxLang.Decimal.Nearest
import LoxLang.Decimal.Shortest
import LoxLang.Environment
import LoxLang.Eval
import LoxLang.Exec
import LoxLang.Expr
import LoxLang.Fault
import LoxLang.Folder
import LoxLang.Grammar.Expr
import LoxLang.Grammar.Rule
import LoxLang.Grammar.Stmt
import LoxLang.Log
import LoxLang.Log.Filter
import LoxLang.Machine
import LoxLang.Main
import LoxLang.Pattern
import LoxLang.Pattern.Reader
import LoxLang.Program
import LoxLang.Proofs.Decimal.Doubles
import LoxLang.Proofs.Decimal.ReadBack
import LoxLang.Proofs.Environment.Maps
import LoxLang.Proofs.Environment.Stack
import LoxLang.Proofs.Grammar.Alike
import LoxLang.Proofs.Grammar.Completeness
import LoxLang.Proofs.Grammar.Consumption
import LoxLang.Proofs.Grammar.Derivation
import LoxLang.Proofs.Grammar.Descent
import LoxLang.Proofs.Grammar.Height
import LoxLang.Proofs.Grammar.Indexed
import LoxLang.Proofs.Grammar.Isolation
import LoxLang.Proofs.Grammar.Leniency
import LoxLang.Proofs.Grammar.Location
import LoxLang.Proofs.Grammar.Order
import LoxLang.Proofs.Grammar.Passing
import LoxLang.Proofs.Grammar.Prefix
import LoxLang.Proofs.Grammar.Reading
import LoxLang.Proofs.Grammar.Recovery
import LoxLang.Proofs.Grammar.Robustness
import LoxLang.Proofs.Grammar.Sequence
import LoxLang.Proofs.Grammar.Soundness
import LoxLang.Proofs.Grammar.Spots
import LoxLang.Proofs.Grammar.Stepwise
import LoxLang.Proofs.Grammar.Tape
import LoxLang.Proofs.Run.BlankLine
import LoxLang.Proofs.Run.Decoding
import LoxLang.Proofs.Run.ForLoop
import LoxLang.Proofs.Run.Frame
import LoxLang.Proofs.Run.Labels
import LoxLang.Proofs.Run.Layout
import LoxLang.Proofs.Run.Lines
import LoxLang.Proofs.Run.Literals
import LoxLang.Proofs.Run.Location
import LoxLang.Proofs.Run.Semantics
import LoxLang.Proofs.Run.Session
import LoxLang.Proofs.Run.Simulation
import LoxLang.Proofs.Run.Stages
import LoxLang.Proofs.Run.Transcript
import LoxLang.Proofs.Run.Truncation
import LoxLang.Proofs.Scan.Lexicon
import LoxLang.Proofs.Scan.Partition
import LoxLang.Proofs.Scan.Placement
import LoxLang.Proofs.Scan.Seam
import LoxLang.Proofs.Scan.Spacing
import LoxLang.Proofs.Text.Lossy
import LoxLang.Proofs.Text.Utf8
import LoxLang.Report
import LoxLang.Run
import LoxLang.Script
import LoxLang.Session
import LoxLang.Sink
import LoxLang.Span
import LoxLang.Stmt
import LoxLang.Text.Blank
import LoxLang.Text.Lines
import LoxLang.Text.Terminal
import LoxLang.Text.Utf8
import LoxLang.Token
import LoxLang.Token.Scan
import LoxLang.Tree
import LoxLang.Value
