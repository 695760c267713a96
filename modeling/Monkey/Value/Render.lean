import Monkey.Syntax.Render
import Monkey.Value.Basic

/-!
# Writing values

A value as a program prints it, in which texts stand bare, and as a reader of code expects it, in
which a text by itself stands in quotes.
-/

namespace Monkey

/-- A function as it is printed: its body stands on lines of its own. -/
def Closure.render (f : Closure) : String :=
  "fn(" ++ renderNames f.parameters ++ ") \x7b\n" ++ renderBlock f.body ++ "\n\x7d"

namespace Value

mutual

/-- A value as a program prints it. -/
def inspect : Value → String
  | integer n => toString n.toInt
  | boolean b => if b then "true" else "false"
  | string text => text
  | null => "null"
  | array _ elements => "[" ++ ", ".intercalate (inspectElements elements) ++ "]"
  | hash _ entries => "\x7b" ++ ", ".intercalate (inspectEntries entries) ++ "\x7d"
  | function _ f => f.render
  | builtin b => "builtin function " ++ b.name
  | returned value => inspect value
  | error fault => "ERROR: " ++ fault.message

/-- The elements of an array as they are printed. -/
def inspectElements : List Value → List String
  | [] => []
  | v :: vs => inspect v :: inspectElements vs

/-- The entries of a hash as they are printed. -/
def inspectEntries : List (HashKey × Value × Value) → List String
  | [] => []
  | (_, key, value) :: entries => (inspect key ++ ": " ++ inspect value) :: inspectEntries entries

end

theorem inspectElements_eq_map (vs : List Value) : inspectElements vs = vs.map inspect := by
  induction vs with
  | nil => rfl
  | cons v vs ih => exact congrArg (inspect v :: ·) ih

theorem inspectEntries_eq_map (es : List (HashKey × Value × Value)) :
    inspectEntries es = es.map fun e => inspect e.2.1 ++ ": " ++ inspect e.2.2 := by
  induction es with
  | nil => rfl
  | cons e es ih => exact congrArg ((inspect e.2.1 ++ ": " ++ inspect e.2.2) :: ·) ih

-- These hold by computation; rewriting with the definition itself is slow.
theorem inspect_integer (n : Int64) : inspect (.integer n) = toString n.toInt := rfl

theorem inspect_boolean (b : Bool) : inspect (.boolean b) = if b then "true" else "false" := rfl

theorem inspect_array (i : Identity) (vs : List Value) :
    inspect (.array i vs) = "[" ++ ", ".intercalate (inspectElements vs) ++ "]" := rfl

theorem inspect_hash (i : Identity) (es : List (HashKey × Value × Value)) :
    inspect (.hash i es) = "\x7b" ++ ", ".intercalate (inspectEntries es) ++ "\x7d" := rfl

/-- A value as a reader of code expects it. -/
def code : Value → String
  | string text => "\"" ++ text ++ "\""
  | value => inspect value

end Value

end Monkey
