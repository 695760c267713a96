import Monkey.Text.Span
import Monkey.Text.Blank
import Monkey.Text.Letter
import Monkey.Token.Basic

/-!
# Reading tokens

A source text is a run of lexemes with blanks between them. Each lexeme is as long as it can be,
and every character belongs to one: a character that begins nothing is a token by itself. So
reading never fails, and the lexemes and the blanks between them are the whole text.
-/

namespace Monkey

/-- A token together with the characters it was read from and those that follow it. -/
structure Lexeme where
  /-- What was read. -/
  token : Token
  /-- The characters it was read from. -/
  text : List Char
  /-- The characters after it. -/
  rest : List Char

namespace Lexeme

/-- A character and the longest run of like characters after it. -/
def run (like : Char → Bool) (make : String → Token) (c : Char) (rest : List Char) : Lexeme where
  token := make (String.ofList (c :: rest.takeWhile like))
  text := c :: rest.takeWhile like
  rest := rest.dropWhile like

/-- A symbol of two characters if an equals sign follows, and otherwise one of the first alone. -/
def pair (double single : Symbol) (c : Char) : List Char → Lexeme
  | '=' :: rest => ⟨.symbol double, [c, '='], rest⟩
  | rest => ⟨.symbol single, [c], rest⟩

/-- A text up to the next quote, which closes it, or to the end of the source. -/
def quoted (rest : List Char) : Lexeme :=
  let content := rest.takeWhile (· != '"')
  let after := rest.dropWhile (· != '"')
  ⟨.string (String.ofList content), '"' :: content ++ after.take 1, after.drop 1⟩

/-- The lexeme at the front of a text that begins with the given character, which is no blank. -/
def first (c : Char) (rest : List Char) : Lexeme :=
  if c = '=' then pair .equal .assign c rest
  else if c = '!' then pair .notEqual .bang c rest
  else if c = '"' then quoted rest
  else if c.isDigit then run Char.isDigit .integer c rest
  else if isNameChar c then run isNameChar .ofWord c rest
  else ⟨.ofChar c, [c], rest⟩

/-- A lexeme and what follows it are the text it was read from. -/
theorem text_append_rest_first (c : Char) (rest : List Char) :
    (first c rest).text ++ (first c rest).rest = c :: rest := by
  unfold first
  split
  · unfold pair; split <;> rfl
  split
  · unfold pair; split <;> rfl
  split
  · next h =>
    simp only [quoted, h, List.cons_append, List.append_assoc, List.take_append_drop,
      List.takeWhile_append_dropWhile]
  split
  · simp [run]
  split
  · simp [run]
  · rfl

/-- A lexeme has at least one character. -/
theorem text_first_ne_nil (c : Char) (rest : List Char) : (first c rest).text ≠ [] := by
  unfold first
  split
  · unfold pair; split <;> simp
  split
  · unfold pair; split <;> simp
  split
  · simp [quoted]
  split
  · simp [run]
  split
  · simp [run]
  · simp

/-- What follows the first lexeme is no longer than what follows the first character. -/
theorem length_rest_first (c : Char) (rest : List Char) :
    (first c rest).rest.length ≤ rest.length := by
  have append := congrArg List.length (text_append_rest_first c rest)
  have nonempty := List.length_pos_iff.2 (text_first_ne_nil c rest)
  simp only [List.length_append, List.length_cons] at append
  omega

end Lexeme

/-- Dropping a run of like characters makes no list longer. -/
theorem length_dropWhile_le (like : Char → Bool) (cs : List Char) :
    (cs.dropWhile like).length ≤ cs.length :=
  (List.dropWhile_sublist like).length_le

/-- The tokens of a text that begins at the given place, in order and without the end. -/
def tokensFrom (place : Nat) (cs : List Char) : List (Spanned Token) :=
  match _found : cs.dropWhile isBlank with
  | [] => []
  | c :: rest =>
    let lexeme := Lexeme.first c rest
    let start := place + width (cs.takeWhile isBlank)
    let stop := start + width lexeme.text
    ⟨lexeme.token, ⟨start, stop⟩⟩ :: tokensFrom stop lexeme.rest
termination_by cs.length
decreasing_by
  have shorter := length_dropWhile_le isBlank cs
  have rest_le := Lexeme.length_rest_first c rest
  rw [_found, List.length_cons] at shorter
  omega

/-- The tokens of a source text: finitely many, and then the end for ever after. -/
structure TokenStream where
  /-- The tokens before the end. -/
  tokens : List (Spanned Token)
  /-- The end, as it is read again and again. -/
  finish : Spanned Token

namespace TokenStream

/-- The tokens of a run of characters. -/
def ofChars (cs : List Char) : TokenStream where
  tokens := tokensFrom 0 cs
  finish := ⟨.finish, ⟨width cs, width cs⟩⟩

/-- The tokens of a source text. -/
def ofSource (source : String) : TokenStream := ofChars source.toList

/-- All tokens up to the first end, and then as many more ends as are asked for. -/
def readings (s : TokenStream) (more : Nat) : List (Spanned Token) :=
  s.tokens ++ List.replicate (more + 1) s.finish

end TokenStream

end Monkey
