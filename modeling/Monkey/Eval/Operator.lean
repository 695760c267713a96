import Monkey.Value.Basic

/-!
# Operators

What operators and indexing make of values. Integers wrap modulo 2^64. Texts can only be joined.
Everything else can only be compared, and then it is the same thing that counts.
-/

namespace Monkey.Value

/-- An operator before its operand. -/
def unary (operator : Token) (right : Value) : Except Fault Value :=
  match operator, right with
  | .symbol .bang, right => .ok (.boolean (!right.truthy))
  | .symbol .minus, .integer n => .ok (.integer (-n))
  | operator, right => .error (.unaryOperator operator right.type)

/-- An operator between integers. -/
def arithmetic (operator : Token) (m n : Int64) : Except Fault Value :=
  match operator with
  | .symbol .plus => .ok (.integer (m + n))
  | .symbol .minus => .ok (.integer (m - n))
  | .symbol .asterisk => .ok (.integer (m * n))
  | .symbol .slash => if n = 0 then .error .divisionByZero else .ok (.integer (m / n))
  | .symbol .less => .ok (.boolean (decide (m < n)))
  | .symbol .greater => .ok (.boolean (decide (n < m)))
  | .symbol .equal => .ok (.boolean (m == n))
  | .symbol .notEqual => .ok (.boolean (m != n))
  | operator => .error (.binaryOperator .integer operator .integer)

/-- An operator between texts. -/
def joining (operator : Token) (s t : String) : Except Fault Value :=
  match operator with
  | .symbol .plus => .ok (.string (s ++ t))
  | operator => .error (.binaryOperator .string operator .string)

/-- An operator between values that are not both integers and not both texts. -/
def comparison (operator : Token) (left right : Value) : Except Fault Value :=
  match operator with
  | .symbol .equal => .ok (.boolean (identical left right))
  | .symbol .notEqual => .ok (.boolean (!identical left right))
  | operator =>
    if left.type = right.type then .error (.binaryOperator left.type operator right.type)
    else .error (.typeMismatch left.type operator right.type)

/-- An operator between its operands. -/
def binary (left : Value) (operator : Token) (right : Value) : Except Fault Value :=
  match left, right with
  | .integer m, .integer n => arithmetic operator m n
  | .string s, .string t => joining operator s t
  | left, right => comparison operator left right

/-- The element of a list at an integer, and `null` where there is none. -/
def elementAt (elements : List Value) (position : Int64) : Value :=
  match position.toInt with
  | .ofNat i => elements[i]?.getD .null
  | .negSucc _ => .null

/-- The element of an array or a hash at a position. -/
def index (collection position : Value) : Except Fault Value :=
  match collection, position with
  | .array _ elements, .integer i => .ok (elementAt elements i)
  | .hash _ entries, position =>
    match position.key? with
    | some key => .ok (((Table.find? key entries).map Prod.snd).getD .null)
    | none => .error (.unhashable position.type)
  | collection, _ => .error (.notIndexable collection.type)

end Monkey.Value
