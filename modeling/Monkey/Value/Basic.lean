import Monkey.Syntax.Site
import Monkey.Value.Fault
import Monkey.Value.Table

/-!
# Values

What evaluation deals in. Arrays, hashes and functions carry an identity, a number given to them when
they are made and kept wherever they go, because the language can tell two of them apart that look
alike. A fault, and the value that a `return` is carrying outwards, are values too: they are the
signals, and evaluation hands them on instead of using them.
-/

namespace Monkey

/-- The number that tells an array, a hash or a function from all others. -/
abbrev Identity := Nat

/-- The number of a scope. -/
abbrev ScopeId := Nat

/-- What a function literal and the scope around it make together. -/
structure Closure where
  /-- The names that the arguments are bound to. -/
  parameters : List String
  /-- What a call runs. -/
  body : Program
  /-- The literal that the function was made from. -/
  site : Site
  /-- The scope in which the literal was evaluated. -/
  scope : ScopeId

/-- A value. -/
inductive Value where
  /-- A number. -/
  | integer (n : Int64)
  /-- A truth value. -/
  | boolean (b : Bool)
  /-- A text. -/
  | string (text : String)
  /-- The absence of a value. -/
  | null
  /-- A list of values. -/
  | array (identity : Identity) (elements : List Value)
  /-- Values filed under keys, each with the value that the key was made from. -/
  | hash (identity : Identity) (entries : List (HashKey × Value × Value))
  /-- A function of the program. -/
  | function (identity : Identity) (closure : Closure)
  /-- A builtin function. -/
  | builtin (b : Builtin)
  /-- A value that a `return` is carrying outwards. -/
  | returned (value : Value)
  /-- A fault. -/
  | error (fault : Fault)

namespace Value

/-- The type of a value. -/
def type : Value → ValueType
  | integer _ => .integer
  | boolean _ => .boolean
  | string _ => .string
  | null => .null
  | array .. => .array
  | hash .. => .hash
  | function .. => .function
  | builtin _ => .builtin
  | returned _ => .returned
  | error _ => .error

/-- Whether a value is a fault. -/
def isError : Value → Bool
  | error _ => true
  | _ => false

/-- Whether a value stops the evaluation around it: a fault, or a `return` on its way. -/
def isSignal : Value → Bool
  | error _ => true
  | returned _ => true
  | _ => false

/-- Whether a value counts as true: all do but `false` and `null`. -/
def truthy : Value → Bool
  | boolean b => b
  | null => false
  | _ => true

/-- The key of a value, if it can be one. -/
def key? : Value → Option HashKey
  | integer n => some (.ofInteger n)
  | boolean b => some (.ofBoolean b)
  | string text => some (.ofText text)
  | _ => none

/-- The value without the `return` that carries it, if one does. -/
def delivered : Value → Value
  | returned value => value
  | value => value

/-- A result as a value, a fault being one. -/
def ofResult : Except Fault Value → Value
  | .ok value => value
  | .error fault => error fault

/-- Whether two values are one and the same: numbers, texts and signals never are, truth values,
`null` and builtin functions are when they are equal, and all others when they have one identity. -/
def identical : Value → Value → Bool
  | boolean a, boolean b => a == b
  | null, null => true
  | builtin a, builtin b => a == b
  | array a _, array b _ => a == b
  | hash a _, hash b _ => a == b
  | function a _, function b _ => a == b
  | _, _ => false

mutual

/-- Whether two values are equal in all their parts. Functions are equal when one literal made them
in one scope. -/
def same : Value → Value → Bool
  | integer m, integer n => m == n
  | boolean a, boolean b => a == b
  | string s, string t => s == t
  | null, null => true
  | array _ xs, array _ ys => sameElements xs ys
  | hash _ xs, hash _ ys => sameEntries xs ys
  | function _ f, function _ g => f.site == g.site && f.scope == g.scope
  | builtin a, builtin b => a == b
  | returned v, returned w => same v w
  | error f, error g => f == g
  | _, _ => false

/-- Whether two lists of values are equal in all their parts. -/
def sameElements : List Value → List Value → Bool
  | [], [] => true
  | x :: xs, y :: ys => same x y && sameElements xs ys
  | _, _ => false

/-- Whether two tables are equal in all their parts. -/
def sameEntries : List (HashKey × Value × Value) → List (HashKey × Value × Value) → Bool
  | [], [] => true
  | (k, x, v) :: xs, (l, y, w) :: ys => k == l && same x y && same v w && sameEntries xs ys
  | _, _ => false

end

end Value

end Monkey
