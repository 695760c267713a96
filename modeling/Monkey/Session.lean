import Monkey.Eval.Basic
import Monkey.Syntax.Parse

/-!
# Sessions

Source texts that are run one after another in one scope. A text that cannot be read is refused as a
whole and changes nothing; whatever the others bind and write stays, also when they end in a fault.
-/

namespace Monkey

/-- What comes of a source text. -/
inductive Reply where
  /-- The text cannot be read, for these reasons. -/
  | refused (diagnostics : List Diagnostic)
  /-- The value of the program. -/
  | answered (value : Value)
  /-- The program needs more calls to be active at once than are allowed. -/
  | exhausted

namespace World

/-- Reads a source text and evaluates it in a scope, with at most the given number of calls active at
once. -/
def interpret (depth : Nat) (scope : ScopeId) (source : String) (w : World) : Reply × World :=
  match parse source with
  | .error diagnostics => (.refused diagnostics, w)
  | .ok tree =>
    let (program, enrolled) := w.enrol tree
    match Eval.program depth scope program enrolled with
    | some (value, after) => (.answered value, after)
    | none => (.exhausted, w)

/-- What has been written to the sink since an earlier world. -/
def writtenSince (w earlier : World) : ByteArray :=
  w.sink.written.extract earlier.sink.written.size w.sink.written.size

end World

/-- How many calls may be active at once where nothing else is said. -/
def callLimit : Nat := 10000

end Monkey
