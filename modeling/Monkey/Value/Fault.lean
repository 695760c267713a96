import Monkey.Token.Basic
import Monkey.Value.Builtin
import Monkey.Value.Type

/-!
# Faults of a running program

Every way in which evaluation can fail, as a cause and not as a text. The wording is in one place.
-/

namespace Monkey

/-- Why an evaluation failed. -/
inductive Fault where
  /-- An operator that its operand does not support. -/
  | unaryOperator (operator : Token) (right : ValueType)
  /-- An operator that its operands, of one type, do not support. -/
  | binaryOperator (left : ValueType) (operator : Token) (right : ValueType)
  /-- An operator between operands of different types. -/
  | typeMismatch (left : ValueType) (operator : Token) (right : ValueType)
  /-- A quotient by zero. -/
  | divisionByZero
  /-- A name that is neither bound nor that of a builtin function. -/
  | unbound (name : String)
  /-- A call of something that is no function. -/
  | notAFunction (got : ValueType)
  /-- A call with another number of arguments than the function takes. -/
  | arity (expected got : Nat)
  /-- An argument of a type that a builtin function cannot handle. -/
  | unsupported (builtin : Builtin) (got : ValueType)
  /-- An argument of another type than the one that a builtin function needs. -/
  | wrongType (builtin : Builtin) (expected got : ValueType)
  /-- A key of a type that cannot be a key. -/
  | unhashable (got : ValueType)
  /-- An index into something that has no elements. -/
  | notIndexable (got : ValueType)
  /-- Output that was refused, with the reason given for it. -/
  | output (reason : String)
  deriving DecidableEq, Repr

/-- The wording of a fault. -/
def Fault.message : Fault → String
  | unaryOperator operator right => "unknown operator: " ++ operator.text ++ right.text
  | binaryOperator left operator right =>
    "unknown operator: " ++ left.text ++ " " ++ operator.text ++ " " ++ right.text
  | typeMismatch left operator right =>
    "type mismatch: " ++ left.text ++ " " ++ operator.text ++ " " ++ right.text
  | divisionByZero => "division by zero"
  | unbound name => "identifier not found: " ++ name
  | notAFunction got => "not a function: " ++ got.text
  | arity expected got =>
    "wrong number of arguments. got=" ++ toString got ++ ", want=" ++ toString expected
  | unsupported builtin got => "argument to `" ++ builtin.name ++ "` not supported, got " ++ got.text
  | wrongType builtin expected got =>
    "argument to `" ++ builtin.name ++ "` must be " ++ expected.text ++ ", got " ++ got.text
  | unhashable got => "unusable as hash key: " ++ got.text
  | notIndexable got => "index operator not supported: " ++ got.text
  | output reason => "could not write output: " ++ reason

end Monkey
