/-!
# Builtin functions by name

The functions that every program can call without defining them.
-/

namespace Monkey

/-- A builtin function. -/
inductive Builtin where
  /-- The number of characters of a text or of elements of an array. -/
  | len
  /-- The first element of an array. -/
  | first
  /-- The last element of an array. -/
  | last
  /-- An array without its first element. -/
  | rest
  /-- An array with a further element. -/
  | push
  /-- Writes its arguments, each on a line. -/
  | puts
  deriving DecidableEq, Repr

namespace Builtin

/-- The name of a builtin function. -/
def name : Builtin → String
  | len => "len"
  | first => "first"
  | last => "last"
  | rest => "rest"
  | push => "push"
  | puts => "puts"

/-- Every builtin function. -/
def all : List Builtin := [len, first, last, rest, push, puts]

theorem mem_all (b : Builtin) : b ∈ all := by cases b <;> decide

/-- The builtin function of the given name, if there is one. -/
def ofName? (name : String) : Option Builtin := all.find? (·.name == name)

/-- A name finds a builtin function exactly when it is that function's name. -/
theorem ofName?_eq_some_iff {name : String} {b : Builtin} :
    ofName? name = some b ↔ b.name = name := by
  constructor
  · intro h
    simpa using List.find?_some h
  · rintro rfl
    cases b <;> decide

end Builtin

end Monkey
