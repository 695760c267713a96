import Monkey.Syntax.Basic

/-!
# Writing syntax trees

The canonical text of a tree. Operators and indexing stand in parentheses of their own, so the text
needs no precedence to be read back; all other forms stand bare.
-/

namespace Monkey

/-- A block in braces, from the text of its statements. -/
def braced (body : String) : String := "\x7b " ++ body ++ " \x7d"

/-- Parameters as they are written between parentheses. -/
def renderNames (names : List String) : String := ", ".intercalate names

variable {μ : Type}

mutual

/-- The text of an expression. -/
def Expr.render : Expr μ → String
  | .name text => text
  | .integer value => toString value.toInt
  | .boolean value => if value then "true" else "false"
  | .string text => "\"" ++ text ++ "\""
  | .unary operator operand => "(" ++ operator.text ++ operand.render ++ ")"
  | .binary left operator right =>
    "(" ++ left.render ++ " " ++ operator.text ++ " " ++ right.render ++ ")"
  | .conditional test chosen otherwise =>
    "if (" ++ test.render ++ ") " ++ braced ("; ".intercalate (renderStatements chosen)) ++
      renderOtherwise otherwise
  | .function _ parameters body =>
    "fn(" ++ renderNames parameters ++ ") " ++ braced ("; ".intercalate (renderStatements body))
  | .call callee arguments =>
    callee.render ++ "(" ++ ", ".intercalate (renderExpressions arguments) ++ ")"
  | .array elements => "[" ++ ", ".intercalate (renderExpressions elements) ++ "]"
  | .index collection position => "(" ++ collection.render ++ "[" ++ position.render ++ "])"
  | .hash pairs => "\x7b" ++ ", ".intercalate (renderPairs pairs) ++ "\x7d"

/-- The texts of some expressions. -/
def renderExpressions : List (Expr μ) → List String
  | [] => []
  | e :: es => e.render :: renderExpressions es

/-- The texts of some keys with their values. -/
def renderPairs : List (Expr μ × Expr μ) → List String
  | [] => []
  | (key, value) :: pairs => (key.render ++ ": " ++ value.render) :: renderPairs pairs

/-- The text of the second block of a conditional, if there is one. -/
def renderOtherwise : Option (List (Stmt μ)) → String
  | none => ""
  | some block => " else " ++ braced ("; ".intercalate (renderStatements block))

/-- The texts of some statements. -/
def renderStatements : List (Stmt μ) → List String
  | [] => []
  | s :: ss => s.render :: renderStatements ss

/-- The text of a statement. -/
def Stmt.render : Stmt μ → String
  | .define name value => "let " ++ name ++ " = " ++ value.render
  | .leave value => "return " ++ value.render
  | .expression value => value.render

end

/-- The text of a block or a program. -/
def renderBlock (block : List (Stmt μ)) : String := "; ".intercalate (renderStatements block)

end Monkey
