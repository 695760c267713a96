/-!
# Types of values

What a message says a value is.
-/

namespace Monkey

/-- The type of a value. -/
inductive ValueType where
  | integer | boolean | string | null | array | hash | function | builtin | returned | error
  deriving DecidableEq, Repr

namespace ValueType

/-- How a message names a type. -/
def text : ValueType → String
  | integer => "INTEGER"
  | boolean => "BOOLEAN"
  | string => "STRING"
  | null => "NULL"
  | array => "ARRAY"
  | hash => "HASH"
  | function => "FUNCTION"
  | builtin => "BUILTIN"
  | returned => "RETURN_VALUE"
  | error => "ERROR"

/-- Every type. -/
def all : List ValueType :=
  [integer, boolean, string, null, array, hash, function, builtin, returned, error]

theorem mem_all (t : ValueType) : t ∈ all := by cases t <;> decide

end ValueType

end Monkey
