/-!
# Tokens

The words of the language: symbols and keywords with a fixed spelling, names, numbers and texts
with a spelling of their own, characters that belong to nothing, and the end of the source. A kind
is a token without its spelling; it is what a message speaks of.
-/

namespace Monkey

/-- Operators and delimiters. -/
inductive Symbol where
  | assign | plus | minus | asterisk | slash | bang
  | equal | notEqual | less | greater
  | comma | semicolon | colon
  | leftParen | rightParen | leftBrace | rightBrace | leftBracket | rightBracket
  deriving DecidableEq, Repr

namespace Symbol

/-- How a symbol is written. -/
def text : Symbol → String
  | assign => "="
  | plus => "+"
  | minus => "-"
  | asterisk => "*"
  | slash => "/"
  | bang => "!"
  | equal => "=="
  | notEqual => "!="
  | less => "<"
  | greater => ">"
  | comma => ","
  | semicolon => ";"
  | colon => ":"
  | leftParen => "("
  | rightParen => ")"
  | leftBrace => "\x7b"
  | rightBrace => "\x7d"
  | leftBracket => "["
  | rightBracket => "]"

/-- The symbol that a character is by itself, whatever follows it; an equals sign and an
exclamation mark are not among these, because the next character can belong to them. -/
def ofChar? : Char → Option Symbol
  | '+' => some plus
  | '-' => some minus
  | '*' => some asterisk
  | '/' => some slash
  | '<' => some less
  | '>' => some greater
  | ',' => some comma
  | ';' => some semicolon
  | ':' => some colon
  | '(' => some leftParen
  | ')' => some rightParen
  | '{' => some leftBrace
  | '}' => some rightBrace
  | '[' => some leftBracket
  | ']' => some rightBracket
  | _ => none

/-- Every symbol. -/
def all : List Symbol :=
  [assign, plus, minus, asterisk, slash, bang, equal, notEqual, less, greater, comma, semicolon,
   colon, leftParen, rightParen, leftBrace, rightBrace, leftBracket, rightBracket]

theorem mem_all (s : Symbol) : s ∈ all := by cases s <;> decide

/-- A symbol found for a character is written with that character alone. -/
theorem text_of_ofChar? {c : Char} {s : Symbol} (h : ofChar? c = some s) :
    s.text = String.singleton c := by
  unfold ofChar? at h
  split at h <;> cases h <;> rfl

end Symbol

/-- Names that the language keeps for itself. -/
inductive Keyword where
  | fnWord | letWord | trueWord | falseWord | ifWord | elseWord | returnWord
  deriving DecidableEq, Repr

namespace Keyword

/-- How a keyword is written. -/
def text : Keyword → String
  | fnWord => "fn"
  | letWord => "let"
  | trueWord => "true"
  | falseWord => "false"
  | ifWord => "if"
  | elseWord => "else"
  | returnWord => "return"

/-- Every keyword. -/
def all : List Keyword :=
  [fnWord, letWord, trueWord, falseWord, ifWord, elseWord, returnWord]

theorem mem_all (k : Keyword) : k ∈ all := by cases k <;> decide

/-- The keyword written like the given word, if there is one. -/
def ofText? (word : String) : Option Keyword := all.find? (·.text == word)

/-- A word is recognised as a keyword exactly when it is that keyword's spelling. -/
theorem ofText?_eq_some_iff {word : String} {k : Keyword} :
    ofText? word = some k ↔ k.text = word := by
  constructor
  · intro h
    simpa using List.find?_some h
  · rintro rfl
    cases k <;> decide

end Keyword

/-- What is read from a source text. -/
inductive Token where
  /-- An operator or delimiter. -/
  | symbol (s : Symbol)
  /-- A word that the language keeps for itself. -/
  | keyword (k : Keyword)
  /-- Any other word. -/
  | name (text : String)
  /-- A number, by its digits as they are written. -/
  | integer (digits : String)
  /-- A text, without the quotes around it. -/
  | string (text : String)
  /-- A character that begins no token. -/
  | illegal (c : Char)
  /-- The end of the source. -/
  | finish
  deriving DecidableEq, Repr

/-- A token without its spelling. -/
inductive Kind where
  | symbol (s : Symbol)
  | keyword (k : Keyword)
  | name
  | integer
  | string
  | illegal
  | finish
  deriving DecidableEq, Repr

/-- How a message names a kind. -/
def Kind.text : Kind → String
  | .symbol s => s.text
  | .keyword k => k.text
  | .name => "IDENT"
  | .integer => "INT"
  | .string => "STRING"
  | .illegal => "ILLEGAL"
  | .finish => "EOF"

/-- Every kind. -/
def Kind.all : List Kind :=
  Symbol.all.map .symbol ++ Keyword.all.map .keyword ++ [.name, .integer, .string, .illegal, .finish]

theorem Kind.mem_all (k : Kind) : k ∈ Kind.all := by
  cases k <;> simp [Kind.all, Symbol.mem_all, Keyword.mem_all]

namespace Token

/-- The kind of a token. -/
def kind : Token → Kind
  | symbol s => .symbol s
  | keyword k => .keyword k
  | name _ => .name
  | integer _ => .integer
  | string _ => .string
  | illegal _ => .illegal
  | finish => .finish

/-- What a token stands for: its spelling, but a text without its quotes, and nothing at the end
of the source. -/
def literal : Token → String
  | symbol s => s.text
  | keyword k => k.text
  | name text => text
  | integer digits => digits
  | string text => text
  | illegal c => String.singleton c
  | finish => ""

/-- How a token is written in a source text; the end of the source is shown by the name of its
kind. -/
def text : Token → String
  | symbol s => s.text
  | keyword k => k.text
  | name text => text
  | integer digits => digits
  | string text => "\"" ++ text ++ "\""
  | illegal c => String.singleton c
  | finish => "EOF"

/-- The token that a word is: a keyword if it is spelled like one, and otherwise a name. -/
def ofWord (word : String) : Token :=
  match Keyword.ofText? word with
  | some k => .keyword k
  | none => .name word

/-- The token that a character is by itself. -/
def ofChar (c : Char) : Token :=
  match Symbol.ofChar? c with
  | some s => .symbol s
  | none => .illegal c

/-- Reading a word as a token keeps its spelling. -/
@[simp] theorem text_ofWord (word : String) : (ofWord word).text = word := by
  unfold ofWord
  split
  · next h => exact Keyword.ofText?_eq_some_iff.1 h
  · rfl

/-- Reading a character as a token keeps its spelling. -/
@[simp] theorem text_ofChar (c : Char) : (ofChar c).text = String.singleton c := by
  unfold ofChar
  split
  · next h => exact Symbol.text_of_ofChar? h
  · rfl

end Token

end Monkey
