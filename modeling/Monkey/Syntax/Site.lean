import Monkey.Syntax.Basic

/-!
# Sites of function literals

A site says which function literal a function was made from. It names the program by a number and
the place in the program by the path from the literal up to the program, as the position of each
node under the one above it. Different literals of a program have different paths, so a site belongs
to one literal.
-/

namespace Monkey

/-- Where a function literal stands. -/
structure Site where
  /-- The number of the program. -/
  program : Nat
  /-- The position of the literal below its parent, then that of its parent, and so on upwards. -/
  path : List Nat
  deriving DecidableEq, Repr

/-- A program whose function literals know their sites. -/
abbrev Program := List (Stmt Site)

variable {μ ν : Type}

mutual

/-- The same expression, each mark replaced by one computed from its path and the old mark. -/
def Expr.remark (f : List Nat → μ → ν) (path : List Nat) : Expr μ → Expr ν
  | .name text => .name text
  | .integer value => .integer value
  | .boolean value => .boolean value
  | .string text => .string text
  | .unary operator operand => .unary operator (operand.remark f (0 :: path))
  | .binary left operator right =>
    .binary (left.remark f (0 :: path)) operator (right.remark f (1 :: path))
  | .conditional test chosen otherwise =>
    .conditional (test.remark f (0 :: path)) (remarkBlock f (1 :: path) 0 chosen)
      (remarkOtherwise f (2 :: path) otherwise)
  | .function mark parameters body =>
    .function (f path mark) parameters (remarkBlock f path 0 body)
  | .call callee arguments =>
    .call (callee.remark f (0 :: path)) (remarkExpressions f path 1 arguments)
  | .array elements => .array (remarkExpressions f path 0 elements)
  | .index collection position =>
    .index (collection.remark f (0 :: path)) (position.remark f (1 :: path))
  | .hash pairs => .hash (remarkPairs f path 0 pairs)

/-- The same expressions, the first of them at the given position. -/
def remarkExpressions (f : List Nat → μ → ν) (path : List Nat) (position : Nat) :
    List (Expr μ) → List (Expr ν)
  | [] => []
  | e :: es => e.remark f (position :: path) :: remarkExpressions f path (position + 1) es

/-- The same keys and values, which take two positions a pair. -/
def remarkPairs (f : List Nat → μ → ν) (path : List Nat) (position : Nat) :
    List (Expr μ × Expr μ) → List (Expr ν × Expr ν)
  | [] => []
  | (key, value) :: pairs =>
    (key.remark f (position :: path), value.remark f ((position + 1) :: path)) ::
      remarkPairs f path (position + 2) pairs

/-- The same second block of a conditional. -/
def remarkOtherwise (f : List Nat → μ → ν) (path : List Nat) :
    Option (List (Stmt μ)) → Option (List (Stmt ν))
  | none => none
  | some block => some (remarkBlock f path 0 block)

/-- The same statements, the first of them at the given position. -/
def remarkBlock (f : List Nat → μ → ν) (path : List Nat) (position : Nat) :
    List (Stmt μ) → List (Stmt ν)
  | [] => []
  | s :: ss => s.remark f (position :: path) :: remarkBlock f path (position + 1) ss

/-- The same statement. -/
def Stmt.remark (f : List Nat → μ → ν) (path : List Nat) : Stmt μ → Stmt ν
  | .define name value => .define name (value.remark f (0 :: path))
  | .leave value => .leave (value.remark f (0 :: path))
  | .expression value => .expression (value.remark f (0 :: path))

end

/-- The tree as the program of the given number: every function literal is marked with its site. -/
def place (program : Nat) (tree : List (Stmt μ)) : Program :=
  remarkBlock (fun path _ => ⟨program, path⟩) [] 0 tree

/-- The tree that is left when all marks are forgotten. -/
def erase (block : List (Stmt μ)) : Tree := remarkBlock (fun _ _ => ()) [] 0 block

end Monkey
