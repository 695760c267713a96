import Monkey.Token.Basic

/-!
# Precedence

How tightly a token binds the expression before it. A token that continues no expression has the
lowest precedence.
-/

namespace Monkey

/-- Degrees of binding, the loosest first. -/
inductive Precedence where
  | lowest | equality | comparison | sum | product | unary | call | index
  deriving DecidableEq, Repr

namespace Precedence

/-- The number of looser degrees. -/
def rank : Precedence → Nat
  | lowest => 0
  | equality => 1
  | comparison => 2
  | sum => 3
  | product => 4
  | unary => 5
  | call => 6
  | index => 7

instance : LT Precedence := ⟨fun p q => p.rank < q.rank⟩

instance : LE Precedence := ⟨fun p q => p.rank ≤ q.rank⟩

instance (p q : Precedence) : Decidable (p < q) := inferInstanceAs (Decidable (p.rank < q.rank))

instance (p q : Precedence) : Decidable (p ≤ q) := inferInstanceAs (Decidable (p.rank ≤ q.rank))

theorem lt_iff {p q : Precedence} : p < q ↔ p.rank < q.rank := Iff.rfl

theorem le_iff {p q : Precedence} : p ≤ q ↔ p.rank ≤ q.rank := Iff.rfl

/-- The degree to which a token of the given kind binds the expression before it. -/
def ofKind : Kind → Precedence
  | .symbol .equal => equality
  | .symbol .notEqual => equality
  | .symbol .less => comparison
  | .symbol .greater => comparison
  | .symbol .plus => sum
  | .symbol .minus => sum
  | .symbol .asterisk => product
  | .symbol .slash => product
  | .symbol .leftParen => call
  | .symbol .leftBracket => index
  | _ => lowest

end Precedence

end Monkey
