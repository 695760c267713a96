import Monkey.Text.Span
import Monkey.Text.Blank
import Monkey.Text.Letter
import Monkey.Text.Decimal
import Monkey.Text.Digest
import Monkey.Token.Basic
import Monkey.Token.Scan
import Monkey.Syntax.Basic
import Monkey.Syntax.Render
import Monkey.Syntax.Site
import Monkey.Syntax.Diagnostic
import Monkey.Syntax.Precedence
import Monkey.Syntax.Cursor
import Monkey.Syntax.Parse
import Monkey.Value.Type
import Monkey.Value.Builtin
import Monkey.Value.Fault
import Monkey.Value.Key
import Monkey.Value.Table
import Monkey.Value.Basic
import Monkey.Value.Render
import Monkey.World.Scope
import Monkey.World.Sink
import Monkey.World.Basic
import Monkey.Eval.Operator
import Monkey.Eval.Builtin
import Monkey.Eval.Basic
import Monkey.Session
import Monkey.Console.Arguments
import Monkey.Console.Files
import Monkey.Console.Basic
import Monkey.Main
import Monkey.Proofs.Grammar.Basic
import Monkey.Proofs.Reading.Forward
import Monkey.Proofs.Grammar.Completeness
import Monkey.Proofs.Grammar.Program
import Monkey.Proofs.Grammar.Brackets
import Monkey.Proofs.Grammar.Extent
import Monkey.Proofs.Rendering.Lexing
import Monkey.Proofs.Rendering.RoundTrip
import Monkey.Proofs.Rendering.Parentheses
import Monkey.Proofs.Evaluation.Clean
import Monkey.Proofs.Evaluation.Exceptions
import Monkey.Proofs.Evaluation.Invariant
import Monkey.Proofs.Evaluation.Refinement
import Monkey.Proofs.Evaluation.CurrentScope
import Monkey.Proofs.Evaluation.Confinement
import Monkey.Proofs.Evaluation.Reachable
import Monkey.Proofs.Evaluation.Renaming
import Monkey.Proofs.Evaluation.Correspondence
import Monkey.Proofs.Evaluation.Parallel
import Monkey.Proofs.Evaluation.Noninterference
import Monkey.Proofs.Evaluation.Orderly
import Monkey.Proofs.Rendering.Marks
import Monkey.Proofs.Evaluation.Truthful
import Monkey.Proofs.Reading.Tiling
import Monkey.Proofs.Grammar.Concatenation
import Monkey.Proofs.Evaluation.Truncation
import Monkey.Proofs.Diagnosis.Blame
import Monkey.Proofs.Diagnosis.Trail
import Monkey.Proofs.Diagnosis.Cascade
import Monkey.Proofs.Diagnosis.Locality
import Monkey.Proofs.Diagnosis.Viable
import Monkey.Proofs.Diagnosis.Earliest
import Monkey.Proofs.Evaluation.Conversation
import Monkey.Proofs.Evaluation.Forest
import Monkey.Proofs.Evaluation.ReadBack
import Monkey.Proofs.Rendering.Layout
import Monkey.Proofs.Evaluation.Comparison
import Monkey.Proofs.Evaluation.Hashes
import Monkey.Proofs.Evaluation.Making
import Monkey.Proofs.Evaluation.Arithmetic
import Monkey.Proofs.Evaluation.Arrays
import Monkey.Proofs.Evaluation.Termination
import Monkey.Proofs.Reading.Thrift
import Monkey.Proofs.Reading.Unbounded
import Monkey.Proofs.Reading.Rounds
import Monkey.Proofs.Reading.Landing
