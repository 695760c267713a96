import Monkey.Text.Span
import Monkey.Token.Basic

/-!
# Diagnostics

Why a source text is refused. Every diagnostic blames one token of the text, or its end.
-/

namespace Monkey

/-- A fault of a source text. -/
inductive Diagnostic where
  /-- A token of one kind is needed where another one stands. -/
  | expected (kind : Kind) (got : Spanned Token)
  /-- The token begins no expression. -/
  | noOperand (got : Spanned Token)
  /-- The number is above the largest one. -/
  | tooLarge (got : Spanned Token)
  deriving DecidableEq, Repr

namespace Diagnostic

/-- The token that is blamed. -/
def got : Diagnostic → Spanned Token
  | expected _ got => got
  | noOperand got => got
  | tooLarge got => got

/-- The wording of a diagnostic. -/
def message : Diagnostic → String
  | expected kind got =>
    "expected next token to be " ++ kind.text ++ ", got " ++ got.value.kind.text ++ " instead " ++
      got.span.mention
  | noOperand got =>
    "no prefix parse function for " ++ got.value.kind.text ++ " found " ++ got.span.mention
  | tooLarge got =>
    "could not parse " ++ got.value.literal ++ " as integer " ++ got.span.mention

end Diagnostic

end Monkey
