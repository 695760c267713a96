import Monkey.Syntax.Basic
import Monkey.Syntax.Cursor
import Monkey.Syntax.Precedence
import Monkey.Text.Decimal

/-!
# Reading syntax trees

Expressions are read by precedence: an operand, and then every operator that binds it more tightly
than what stands before it. A statement that cannot be read is noted and left out, and reading goes
on with the next token, so that one pass gathers many diagnostics; a text with any diagnostic is no
program.

The steps below take the reader of inner expressions as a parameter, and `Reader.expression` ties
them together up to a given depth of nesting. Every inner expression begins at least one token after
the outer one, so a depth of as many tokens as are left is never used up before the text is.
-/

namespace Monkey.Reader

/-- Reads an expression up to the first operator that binds no more tightly than the given degree. -/
abbrev Inner := Precedence → Reader (Expr Unit)

/-- The largest number that can be written. -/
def largestInteger : Nat := 9223372036854775807

/-- A number, unless it is too large. -/
def integer (digits : String) : Reader (Expr Unit) := do
  let value := decimal digits.toList
  if value ≤ largestInteger then
    return .integer (Int64.ofNat value)
  else
    throw (.tooLarge (← current))

/-- An operator before its operand. -/
def unary (inner : Inner) (operator : Token) : Reader (Expr Unit) := do
  advance
  return .unary operator (← inner .unary)

/-- An expression in parentheses. -/
def grouped (inner : Inner) : Reader (Expr Unit) := do
  advance
  let result ← inner .lowest
  expect (.symbol .rightParen)
  return result

/-- A name and the value that it is bound to. -/
def define (inner : Inner) : Reader (Stmt Unit) := do
  expect .name
  let name ← currentName
  expect (.symbol .assign)
  advance
  let value ← inner .lowest
  skip (.symbol .semicolon)
  return .define name value

/-- A value to leave a function with. -/
def leave (inner : Inner) : Reader (Stmt Unit) := do
  advance
  let value ← inner .lowest
  skip (.symbol .semicolon)
  return .leave value

/-- An expression as a statement. -/
def bare (inner : Inner) : Reader (Stmt Unit) := do
  let value ← inner .lowest
  skip (.symbol .semicolon)
  return .expression value

/-- A statement, with the semicolon that can follow it. -/
def statement (inner : Inner) : Reader (Stmt Unit) := do
  match (← current).value with
  | .keyword .letWord => define inner
  | .keyword .returnWord => leave inner
  | _ => bare inner

/-- Statements up to the closing brace; the number is at least that of the tokens that are left. -/
def blockItems (inner : Inner) : Nat → Reader Tree
  | 0 => do throw (.expected (.symbol .rightBrace) (← current))
  | bound + 1 => do
    let here ← current
    if here.value = .symbol .rightBrace then
      return []
    else if here.value = .finish then
      throw (.expected (.symbol .rightBrace) here)
    else
      let first ← noting (statement inner)
      advance
      let others ← blockItems inner bound
      return first.toList ++ others

/-- A block, from its opening brace, on which the cursor stands, to its closing one, on which it
stops. -/
def block (inner : Inner) : Reader Tree := do
  advance
  blockItems inner (← remaining)

/-- The second block of a conditional, if the upcoming word announces one. -/
def otherwise (inner : Inner) : Reader (Option Tree) := do
  if ← sees (.keyword .elseWord) then
    advance
    expect (.symbol .leftBrace)
    return some (← block inner)
  else
    return none

/-- A condition in parentheses, a block, and perhaps another one. -/
def conditional (inner : Inner) : Reader (Expr Unit) := do
  expect (.symbol .leftParen)
  advance
  let test ← inner .lowest
  expect (.symbol .rightParen)
  expect (.symbol .leftBrace)
  let chosen ← block inner
  return .conditional test chosen (← otherwise inner)

/-- Parameters in parentheses and a block. -/
def function (inner : Inner) : Reader (Expr Unit) := do
  expect (.symbol .leftParen)
  let parameters ← items .rightParen currentName
  expect (.symbol .leftBrace)
  return .function () parameters (← block inner)

/-- A key and a value. -/
def keyed (inner : Inner) : Reader (Expr Unit × Expr Unit) := do
  let key ← inner .lowest
  expect (.symbol .colon)
  advance
  return (key, ← inner .lowest)

/-- The expression that the current token begins, as far as it goes without an operator after it. -/
def operand (inner : Inner) : Reader (Expr Unit) := do
  let here ← current
  match here.value with
  | .name text => return .name text
  | .integer digits => integer digits
  | .string text => return .string text
  | .keyword .trueWord => return .boolean true
  | .keyword .falseWord => return .boolean false
  | .keyword .ifWord => conditional inner
  | .keyword .fnWord => function inner
  | .symbol .bang => unary inner (.symbol .bang)
  | .symbol .minus => unary inner (.symbol .minus)
  | .symbol .leftParen => grouped inner
  | .symbol .leftBracket => return .array (← items .rightBracket (inner .lowest))
  | .symbol .leftBrace => return .hash (← items .rightBrace (keyed inner))
  | _ => throw (.noOperand here)

/-- The given expression continued by the current token: by the arguments of a call, by an index, or
by an operator and its right operand. -/
def continued (inner : Inner) (left : Expr Unit) : Reader (Expr Unit) := do
  match (← current).value with
  | .symbol .leftParen => return .call left (← items .rightParen (inner .lowest))
  | .symbol .leftBracket =>
    advance
    let position ← inner .lowest
    expect (.symbol .rightBracket)
    return .index left position
  | operator =>
    advance
    return .binary left operator (← inner (.ofKind operator.kind))

/-- The given expression continued as long as the upcoming token binds it more tightly than the given
degree; there are at most as many rounds as the given number. -/
def extended (inner : Inner) (p : Precedence) : Nat → Expr Unit → Reader (Expr Unit)
  | 0, left => return left
  | bound + 1, left => do
    if p < .ofKind (← upcoming).value.kind then
      advance
      extended inner p bound (← continued inner left)
    else
      return left

/-- An expression nested at most to the given depth. -/
def expression : Nat → Inner
  | 0, _ => do throw (.noOperand (← current))
  | depth + 1, p => do
    let first ← operand (expression depth)
    extended (expression depth) p (← remaining) first

/-- Statements up to the end of the stream; the number is at least that of the tokens that are
left. -/
def programItems : Nat → StateM Cursor Tree
  | 0 => return []
  | bound + 1 => do
    if (← get).current.value = .finish then
      return []
    else
      let first ← noting (statement (expression (← get).pending.length))
      modify Cursor.next
      let others ← programItems bound
      return first.toList ++ others

/-- The statements of a stream of tokens, and the cursor at its end. -/
def program (s : TokenStream) : Tree × Cursor :=
  (programItems s.tokens.length).run (.start s)

end Monkey.Reader

namespace Monkey

/-- The tree of a stream of tokens, or all diagnostics in the order in which they were noted. -/
def TokenStream.parse (s : TokenStream) : Except (List Diagnostic) Tree :=
  let (tree, cursor) := Reader.program s
  if cursor.noted.isEmpty then .ok tree else .error cursor.noted.reverse

/-- The tree of a source text, or all diagnostics in the order in which they were noted. -/
def parse (source : String) : Except (List Diagnostic) Tree :=
  (TokenStream.ofSource source).parse

end Monkey
