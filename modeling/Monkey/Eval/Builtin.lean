import Monkey.Value.Render
import Monkey.World.Basic

/-!
# Calling builtin functions

What the builtin functions make of their arguments. None changes an array that it is given: `rest`
and `push` make new ones. Only `puts` writes.
-/

namespace Monkey.Builtin

/-- The elements of an argument that has to be an array. -/
def elements (b : Builtin) : Value → Except Fault (List Value)
  | .array _ elements => .ok elements
  | other => .error (.wrongType b .array other.type)

/-- The only argument, where there has to be one. -/
def only : List Value → Except Fault Value
  | [argument] => .ok argument
  | arguments => .error (.arity 1 arguments.length)

/-- The length of a text or an array. -/
def length : Value → Except Fault Value
  | .string text => .ok (.integer (Int64.ofNat text.length))
  | .array _ elements => .ok (.integer (Int64.ofNat elements.length))
  | other => .error (.unsupported .len other.type)

/-- The elements of the array that `push` makes. -/
def pushed : List Value → Except Fault (List Value)
  | [array, value] => return (← elements .push array) ++ [value]
  | arguments => .error (.arity 2 arguments.length)

/-- The bytes of the line that a value is written on. -/
def line (v : Value) : ByteArray := (v.inspect ++ "\n").toUTF8

/-- Writes values, each on a line, up to the first of which something is refused. -/
def writeLines : List Value → World → Except Fault Value × World
  | [], w => (.ok .null, w)
  | v :: vs, w =>
    match w.sink.refusal? (line v) with
    | some refusal => (.error (.output refusal.reason), w.write (line v))
    | none => writeLines vs (w.write (line v))

/-- The result of a builtin function on some arguments, and the world after the call. -/
def call (b : Builtin) (arguments : List Value) (w : World) : Except Fault Value × World :=
  match b with
  | .len => (only arguments >>= length, w)
  | .first => (do return (← elements .first (← only arguments)).head?.getD .null, w)
  | .last => (do return (← elements .last (← only arguments)).getLast?.getD .null, w)
  | .rest =>
    match only arguments >>= elements .rest with
    | .error fault => (.error fault, w)
    | .ok [] => (.ok .null, w)
    | .ok (_ :: others) => let (array, after) := w.newArray others; (.ok array, after)
  | .push =>
    match pushed arguments with
    | .error fault => (.error fault, w)
    | .ok elements => let (array, after) := w.newArray elements; (.ok array, after)
  | .puts => writeLines arguments w

end Monkey.Builtin
