import Monkey.Token.Basic

/-!
# Syntax trees

Expressions and statements. A block, and a whole program, is a list of statements. Operators are
kept as tokens, and every function literal carries a mark of a type that the user of the tree
chooses: reading a source text leaves the mark empty, and a program that is about to run has in it
the site of the literal.
-/

namespace Monkey

mutual

/-- Something that has a value. -/
inductive Expr (μ : Type) where
  /-- The value bound to a name. -/
  | name (text : String)
  /-- A number. -/
  | integer (value : Int64)
  /-- A truth value. -/
  | boolean (value : Bool)
  /-- A text. -/
  | string (text : String)
  /-- An operator before its operand. -/
  | unary (operator : Token) (operand : Expr μ)
  /-- An operator between its operands. -/
  | binary (left : Expr μ) (operator : Token) (right : Expr μ)
  /-- One of two blocks; without a second one, nothing happens where it would be chosen. -/
  | conditional (test : Expr μ) (chosen : List (Stmt μ)) (otherwise : Option (List (Stmt μ)))
  /-- A function literal with its parameters and its body. -/
  | function (mark : μ) (parameters : List String) (body : List (Stmt μ))
  /-- A call. -/
  | call (callee : Expr μ) (arguments : List (Expr μ))
  /-- An array literal. -/
  | array (elements : List (Expr μ))
  /-- An element of an array or a hash. -/
  | index (collection : Expr μ) (position : Expr μ)
  /-- A hash literal, its keys and values in the order in which they are written. -/
  | hash (pairs : List (Expr μ × Expr μ))

/-- A step of a program. -/
inductive Stmt (μ : Type) where
  /-- Binds a name to a value. -/
  | define (name : String) (value : Expr μ)
  /-- Leaves the function around it with a value. -/
  | leave (value : Expr μ)
  /-- Has the value of an expression. -/
  | expression (value : Expr μ)

end

/-- A tree as it is read from a source text, without marks. -/
abbrev Tree := List (Stmt Unit)

end Monkey
