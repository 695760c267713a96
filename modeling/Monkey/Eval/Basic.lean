import Monkey.Eval.Builtin
import Monkey.Eval.Operator

/-!
# Evaluation

Expressions are evaluated from left to right and statements one after another, in a scope that calls
and only calls change. A signal, be it a fault or a `return`, ends the evaluation of everything
around it up to the call or the program that it belongs to.

Evaluation is by recursion on the syntax, given what a call does; a call is by recursion on the number
of calls that may be active at once. So every evaluation comes to an end: it gives a value, or it
gives up because one more call was needed than that number allows.
-/

namespace Monkey

/-- An evaluation: it changes the world and gives a result, or it gives up. -/
abbrev Run := StateT World Option

/-- What a call of a value with some arguments does. -/
abbrev Apply := Value → List Value → Run Value

namespace Eval

/-- A signal as it is, and otherwise what follows from the value. -/
def unlessSignal (value : Value) (next : Value → Run Value) : Run Value :=
  if value.isSignal then return value else next value

/-- The value of a name: its binding, or else the builtin function of that name. -/
def name (scope : ScopeId) (text : String) : Run Value := do
  match (← get).lookup scope text with
  | some value => return value
  | none =>
    match Builtin.ofName? text with
    | some b => return .builtin b
    | none => return .error (.unbound text)

mutual

/-- The value of an expression in a scope. -/
def expression (apply : Apply) (scope : ScopeId) : Expr Site → Run Value
  | .name text => name scope text
  | .integer n => return .integer n
  | .boolean b => return .boolean b
  | .string text => return .string text
  | .unary operator operand => do
    unlessSignal (← expression apply scope operand) fun right =>
      return .ofResult (Value.unary operator right)
  | .binary left operator right => do
    unlessSignal (← expression apply scope left) fun l => do
      unlessSignal (← expression apply scope right) fun r =>
        return .ofResult (Value.binary l operator r)
  | .conditional test chosen other => do
    unlessSignal (← expression apply scope test) fun t =>
      if t.truthy then block apply scope .null chosen else otherwise apply scope other
  | .function site parameters body =>
    modifyGet (·.newFunction ⟨parameters, body, site, scope⟩)
  | .call callee arguments => do
    unlessSignal (← expression apply scope callee) fun f => do
      match ← expressions apply scope arguments with
      | .ok values => apply f values
      | .error signal => return signal
  | .array elements => do
    match ← expressions apply scope elements with
    | .ok values => modifyGet (·.newArray values)
    | .error signal => return signal
  | .index collection position => do
    unlessSignal (← expression apply scope collection) fun c => do
      unlessSignal (← expression apply scope position) fun p =>
        return .ofResult (Value.index c p)
  | .hash pairs => entries apply scope [] pairs

/-- The values of some expressions from left to right, or the first signal among them. -/
def expressions (apply : Apply) (scope : ScopeId) :
    List (Expr Site) → Run (Except Value (List Value))
  | [] => return .ok []
  | e :: es => do
    let value ← expression apply scope e
    if value.isSignal then
      return .error value
    else
      return (← expressions apply scope es).map (value :: ·)

/-- The hash of some entries and of further keys and values; of equal keys the last one counts. -/
def entries (apply : Apply) (scope : ScopeId) (table : Table (Value × Value)) :
    List (Expr Site × Expr Site) → Run Value
  | [] => modifyGet (·.newHash table)
  | (key, value) :: pairs => do
    unlessSignal (← expression apply scope key) fun k =>
      match k.key? with
      | none => return .error (.unhashable k.type)
      | some hashKey => do
        unlessSignal (← expression apply scope value) fun v =>
          entries apply scope (Table.insert hashKey (k, v) table) pairs

/-- The value of the second block of a conditional, and `null` if there is none. -/
def otherwise (apply : Apply) (scope : ScopeId) : Option (List (Stmt Site)) → Run Value
  | none => return .null
  | some statements => block apply scope .null statements

/-- The value of some statements after one with the given value: that of the last one, or the first
signal among them. -/
def block (apply : Apply) (scope : ScopeId) (last : Value) : List (Stmt Site) → Run Value
  | [] => return last
  | s :: ss => do
    unlessSignal (← statement apply scope s) fun value => block apply scope value ss

/-- The value of a statement; a binding has the value `null`. -/
def statement (apply : Apply) (scope : ScopeId) : Stmt Site → Run Value
  | .define x value => do
    unlessSignal (← expression apply scope value) fun v => do
      modify (·.define scope x v)
      return .null
  | .leave value => do
    unlessSignal (← expression apply scope value) fun v => return .returned v
  | .expression value => expression apply scope value

end

/-- Runs the body of a function in a new scope that binds the parameters to the arguments, each in
turn. -/
def enter (apply : Apply) (f : Closure) (arguments : List Value) : Run Value := do
  let scope ← modifyGet fun w =>
    (w.nextScope, w.openScope (some f.scope) (f.parameters.zip arguments))
  return (← block apply scope .null f.body).delivered

/-- Calls a value with some arguments, with at most the given number of functions of the program
active at once. -/
def apply : Nat → Apply
  | depth, .function _ f, arguments =>
    if arguments.length = f.parameters.length then
      match depth with
      | 0 => failure
      | depth + 1 => enter (apply depth) f arguments
    else
      return .error (.arity f.parameters.length arguments.length)
  | _, .builtin b, arguments => modifyGet fun w =>
      let (result, after) := b.call arguments w
      (.ofResult result, after)
  | _, other, _ => return .error (.notAFunction other.type)

/-- Evaluates a program in a scope, with at most the given number of calls active at once. A `return`
ends the program with its value. -/
def program (depth : Nat) (scope : ScopeId) (statements : Program) : Run Value :=
  return (← block (apply depth) scope .null statements).delivered

end Eval

end Monkey
