import Monkey.Syntax.Diagnostic
import Monkey.Token.Scan

/-!
# Reading along a stream of tokens

A cursor stands on a token, the current one, and can see the next, the upcoming one; behind the last
token it sees the end again and again. Reading steps either give a result or blame a token, and the
cursor stays where the step left it in both cases.
-/

namespace Monkey

/-- A place in a stream of tokens, and what has been found so far. -/
structure Cursor where
  /-- The tokens from the current one on, without the end. -/
  pending : List (Spanned Token)
  /-- The end of the stream. -/
  finish : Spanned Token
  /-- How many tokens have been taken from the stream, the end counted each time. -/
  taken : Nat
  /-- The diagnostics that have been noted, the latest first. -/
  noted : List Diagnostic

namespace Cursor

/-- The cursor on the first token; two tokens are taken to see it and the next. -/
def start (s : TokenStream) : Cursor := ⟨s.tokens, s.finish, 2, []⟩

/-- The token that the cursor stands on. -/
def current (c : Cursor) : Spanned Token := c.pending.headD c.finish

/-- The token after the current one. -/
def upcoming (c : Cursor) : Spanned Token := c.pending.tail.headD c.finish

/-- The cursor on the upcoming token. -/
def next (c : Cursor) : Cursor := { c with pending := c.pending.tail, taken := c.taken + 1 }

/-- The cursor with a further diagnostic. -/
def note (c : Cursor) (d : Diagnostic) : Cursor := { c with noted := d :: c.noted }

end Cursor

/-- A step of reading: it moves the cursor and then gives a result or blames a token. -/
abbrev Reader := ExceptT Diagnostic (StateM Cursor)

namespace Reader

variable {α : Type}

/-- The current token. -/
def current : Reader (Spanned Token) := return (← get).current

/-- The upcoming token. -/
def upcoming : Reader (Spanned Token) := return (← get).upcoming

/-- Whether the upcoming token is of the given kind. -/
def sees (kind : Kind) : Reader Bool := return (← get).upcoming.value.kind = kind

/-- How many tokens there are from the current one on. -/
def remaining : Reader Nat := return (← get).pending.length

/-- Goes to the upcoming token. -/
def advance : Reader Unit := modify Cursor.next

/-- Goes to the upcoming token if it is of the given kind, and blames it otherwise. -/
def expect (kind : Kind) : Reader Unit := do
  let found ← upcoming
  if found.value.kind = kind then advance else throw (.expected kind found)

/-- Goes to the upcoming token if it is of the given kind, and stays otherwise. -/
def skip (kind : Kind) : Reader Unit := do
  if ← sees kind then advance

/-- The name that the current token is. -/
def currentName : Reader String := do
  let here ← current
  match here.value with
  | .name text => return text
  | _ => throw (.expected .name here)

/-- The result of a step, or nothing if it blames a token; the diagnostic is noted. -/
def noting (step : Reader α) : StateM Cursor (Option α) := do
  match ← step.run with
  | .ok result => return some result
  | .error d =>
    modify (·.note d)
    return none

/-- Further items, each after a comma; there are at most as many as the given number. -/
def furtherItems (item : Reader α) : Nat → Reader (List α)
  | 0 => return []
  | bound + 1 => do
    if ← sees (.symbol .comma) then
      advance
      advance
      let first ← item
      return first :: (← furtherItems item bound)
    else
      return []

/-- Items with commas between them, from the opening token, on which the cursor stands, up to the
closing one, on which it stops. -/
def items (close : Symbol) (item : Reader α) : Reader (List α) := do
  if ← sees (.symbol close) then
    advance
    return []
  advance
  let first ← item
  let others ← furtherItems item (← remaining)
  expect (.symbol close)
  return first :: others

end Reader

end Monkey
