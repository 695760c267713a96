import Mathlib.Data.List.Chain
import Monkey.Syntax.Parse

/-!
# The grammar

Which sequences of tokens are programs, and which trees they stand for, said without the reader. An
expression belongs to one of seven strata: four of binary operators, each of which associates to the
left, then operators before an operand, then calls and indexing, and then the atoms. A derivation
carries the tree that it builds.
-/

namespace Monkey.Grammar

/-- The strata of expressions, the loosest first. -/
inductive Stratum where
  | equality | comparison | sum | product | unary | applied | atom
  deriving DecidableEq, Repr

namespace Stratum

/-- The number of looser strata. -/
def rank : Stratum → Nat
  | equality => 0
  | comparison => 1
  | sum => 2
  | product => 3
  | unary => 4
  | applied => 5
  | atom => 6

instance : LE Stratum := ⟨fun s t => s.rank ≤ t.rank⟩

/-- The stratum just above; there is none above the atoms. -/
def tighter : Stratum → Stratum
  | equality => comparison
  | comparison => sum
  | sum => product
  | product => unary
  | unary => applied
  | applied => atom
  | atom => atom

/-- The binary operators of a stratum. -/
def operators : Stratum → List Token
  | equality => [.symbol .equal, .symbol .notEqual]
  | comparison => [.symbol .less, .symbol .greater]
  | sum => [.symbol .plus, .symbol .minus]
  | product => [.symbol .asterisk, .symbol .slash]
  | _ => []

end Stratum

/-- The operators that stand before their operand. -/
def unaryOperators : List Token := [.symbol .bang, .symbol .minus]

/-- The tokens that a line cannot begin with when the line before it is not closed: they would go
on with that line. -/
def continuing : List Token := [.symbol .minus, .symbol .leftParen, .symbol .leftBracket]

/-- Something written, and what it stands for. -/
structure Phrase (α : Type) where
  /-- How it is written. -/
  tokens : List Token
  /-- What it stands for. -/
  tree : α

/-- Items with a comma between any two neighbours. -/
def listed : List (List Token) → List Token
  | [] => []
  | item :: items => item ++ items.flatMap (.symbol .comma :: ·)

/-- Listed items between two delimiters. -/
def enclosed (opening : Symbol) (items : List (List Token)) (closing : Symbol) : List Token :=
  .symbol opening :: listed items ++ [.symbol closing]

/-- What a statement does with the value of its expression. -/
inductive Form where
  /-- It binds a name to the value. -/
  | define (name : String)
  /-- It leaves the function around it. -/
  | leave
  /-- It has the value. -/
  | bare

/-- How a statement of some form begins, before its expression. -/
def Form.opening : Form → List Token
  | define name => [.keyword .letWord, .name name, .symbol .assign]
  | leave => [.keyword .returnWord]
  | bare => []

/-- The statement of some form with the given expression. -/
def Form.statement (e : Expr Unit) : Form → Stmt Unit
  | define name => .define name e
  | leave => .leave e
  | bare => .expression e

/-- A statement as it is written. -/
structure Line where
  /-- What it does with the value. -/
  form : Form
  /-- Its expression. -/
  value : Phrase (Expr Unit)
  /-- Whether a semicolon ends it. -/
  closed : Bool

namespace Line

/-- The tokens of a line. -/
def tokens (l : Line) : List Token :=
  l.form.opening ++ l.value.tokens ++ if l.closed then [.symbol .semicolon] else []

/-- The statement on a line. -/
def tree (l : Line) : Stmt Unit := l.form.statement l.value.tree

end Line

/-- No line runs into the next: it is closed, or the next one does not begin like a continuation. -/
def Apart (lines : List Line) : Prop :=
  lines.IsChain fun l m => l.closed = false → ∀ t ∈ m.tokens.head?, t ∉ continuing

/-- Lines one after another. -/
def lineTokens (lines : List Line) : List Token := lines.flatMap Line.tokens

/-- Lines in braces. -/
def blockTokens (lines : List Line) : List Token :=
  .symbol .leftBrace :: lineTokens lines ++ [.symbol .rightBrace]

/-- The second block of a conditional with the word before it, if there is one. -/
def otherwiseTokens : Option (List Line) → List Token
  | none => []
  | some lines => .keyword .elseWord :: blockTokens lines

/-- A key and a value with a colon between them. -/
def pairTokens (pair : Phrase (Expr Unit) × Phrase (Expr Unit)) : List Token :=
  pair.1.tokens ++ .symbol .colon :: pair.2.tokens

/-- What an item is written with is part of what the list is. -/
theorem sublist_listed {α : Type} (tokens : α → List Token) {x : α} {xs : List α} (h : x ∈ xs) :
    (tokens x).Sublist (listed (xs.map tokens)) := by
  cases xs with
  | nil => exact absurd h List.not_mem_nil
  | cons y ys =>
    rw [List.map_cons, listed]
    rcases List.mem_cons.1 h with rfl | h
    · exact List.sublist_append_left _ _
    · have hitem : (Token.symbol .comma :: tokens x).Sublist
          ((ys.map tokens).flatMap (.symbol .comma :: ·)) :=
        List.sublist_flatten_of_mem (List.mem_map_of_mem (List.mem_map_of_mem h))
      exact ((List.sublist_cons_self _ _).trans hitem).trans (List.sublist_append_right _ _)

/-- What the expression of a line is written with is part of what the line is. -/
theorem Line.sublist_tokens (l : Line) : l.value.tokens.Sublist l.tokens :=
  (List.sublist_append_right _ _).trans (List.sublist_append_left _ _)

/-- What the expression of a line is written with is part of what all lines are. -/
theorem sublist_lineTokens {l : Line} {lines : List Line} (h : l ∈ lines) :
    l.value.tokens.Sublist (lineTokens lines) :=
  l.sublist_tokens.trans (List.sublist_flatten_of_mem (List.mem_map_of_mem h))

/-- The tokens are an expression of the stratum that stands for the tree. -/
inductive Derives : Stratum → List Token → Expr Unit → Prop where
  /-- What binds tightly can stand where something looser is allowed. -/
  | tighter {s t : Stratum} {ts : List Token} {e : Expr Unit} (le : s ≤ t)
      (inner : Derives t ts e) : Derives s ts e
  /-- A binary operator: its stratum goes on to the left, and only tighter ones to the right. -/
  | binary {s : Stratum} {ls rs : List Token} {l r : Expr Unit} {operator : Token}
      (mem : operator ∈ s.operators) (left : Derives s ls l) (right : Derives s.tighter rs r) :
      Derives s (ls ++ operator :: rs) (.binary l operator r)
  /-- An operator before an operand, which can begin with such an operator itself. -/
  | unary {ts : List Token} {e : Expr Unit} {operator : Token} (mem : operator ∈ unaryOperators)
      (operand : Derives .unary ts e) : Derives .unary (operator :: ts) (.unary operator e)
  /-- A call. -/
  | call {ts : List Token} {e : Expr Unit} (arguments : List (Phrase (Expr Unit)))
      (callee : Derives .applied ts e)
      (items : ∀ a ∈ arguments, Derives .equality a.tokens a.tree) :
      Derives .applied (ts ++ enclosed .leftParen (arguments.map (·.tokens)) .rightParen)
        (.call e (arguments.map (·.tree)))
  /-- An index. -/
  | index {ts us : List Token} {e i : Expr Unit} (collection : Derives .applied ts e)
      (position : Derives .equality us i) :
      Derives .applied (ts ++ .symbol .leftBracket :: us ++ [.symbol .rightBracket]) (.index e i)
  /-- A name. -/
  | name (text : String) : Derives .atom [.name text] (.name text)
  /-- A number that is not too large. -/
  | integer {digits : String} (small : decimal digits.toList ≤ Nat.pow 2 63 - 1) :
      Derives .atom [.integer digits] (.integer (Int64.ofNat (decimal digits.toList)))
  /-- A text. -/
  | string (text : String) : Derives .atom [.string text] (.string text)
  /-- The truth value `true`. -/
  | isTrue : Derives .atom [.keyword .trueWord] (.boolean true)
  /-- The truth value `false`. -/
  | isFalse : Derives .atom [.keyword .falseWord] (.boolean false)
  /-- Any expression in parentheses. -/
  | grouped {ts : List Token} {e : Expr Unit} (inner : Derives .equality ts e) :
      Derives .atom (.symbol .leftParen :: ts ++ [.symbol .rightParen]) e
  /-- A condition in parentheses, a block, and perhaps another one. -/
  | conditional {ts : List Token} {e : Expr Unit} (chosen : List Line)
      (otherwise : Option (List Line)) (test : Derives .equality ts e) (chosenApart : Apart chosen)
      (chosenLines : ∀ l ∈ chosen, Derives .equality l.value.tokens l.value.tree)
      (otherApart : ∀ lines ∈ otherwise, Apart lines)
      (otherLines : ∀ lines ∈ otherwise, ∀ l ∈ lines,
        Derives .equality l.value.tokens l.value.tree) :
      Derives .atom
        (.keyword .ifWord :: .symbol .leftParen :: ts ++ .symbol .rightParen ::
          blockTokens chosen ++ otherwiseTokens otherwise)
        (.conditional e (chosen.map Line.tree) (otherwise.map (·.map Line.tree)))
  /-- A function literal. -/
  | function (parameters : List String) (body : List Line) (bodyApart : Apart body)
      (bodyLines : ∀ l ∈ body, Derives .equality l.value.tokens l.value.tree) :
      Derives .atom
        (.keyword .fnWord :: enclosed .leftParen (parameters.map fun x => [.name x]) .rightParen ++
          blockTokens body)
        (.function () parameters (body.map Line.tree))
  /-- An array literal. -/
  | array (elements : List (Phrase (Expr Unit)))
      (items : ∀ a ∈ elements, Derives .equality a.tokens a.tree) :
      Derives .atom (enclosed .leftBracket (elements.map (·.tokens)) .rightBracket)
        (.array (elements.map (·.tree)))
  /-- A hash literal. -/
  | hash (pairs : List (Phrase (Expr Unit) × Phrase (Expr Unit)))
      (keys : ∀ p ∈ pairs, Derives .equality p.1.tokens p.1.tree)
      (values : ∀ p ∈ pairs, Derives .equality p.2.tokens p.2.tree) :
      Derives .atom (enclosed .leftBrace (pairs.map pairTokens) .rightBrace)
        (.hash (pairs.map fun p => (p.1.tree, p.2.tree)))

/-- What is of any stratum can stand wherever an expression is allowed. -/
theorem Derives.loosest {s : Stratum} {ts : List Token} {e : Expr Unit} (h : Derives s ts e) :
    Derives .equality ts e := .tighter (Nat.zero_le _) h

/-- Lines that are apart, each with an expression of the grammar. -/
structure Lines (lines : List Line) : Prop where
  /-- No line runs into the next. -/
  apart : Apart lines
  /-- The expression of each line is derived. -/
  derives : ∀ l ∈ lines, Derives .equality l.value.tokens l.value.tree

theorem Lines.nil : Lines [] := ⟨.nil, by simp⟩

/-- A line can be put before lines that it does not run into. -/
theorem Lines.cons {l : Line} {lines : List Line} (h : Lines lines)
    (hl : Derives .equality l.value.tokens l.value.tree)
    (hapart : l.closed = false → ∀ m ∈ lines.head?, ∀ t ∈ m.tokens.head?, t ∉ continuing) :
    Lines (l :: lines) where
  apart := List.isChain_cons.2 ⟨fun m hm hopen => hapart hopen m hm, h.apart⟩
  derives := List.forall_mem_cons.2 ⟨hl, h.derives⟩

/-- The tokens are a program that stands for the tree. -/
def Program (ts : List Token) (tree : Tree) : Prop :=
  ∃ lines, Lines lines ∧ ts = lineTokens lines ∧ tree = lines.map Line.tree

/-- The tokens that can begin an expression. -/
inductive Starts : Token → Prop where
  | name (text : String) : Starts (.name text)
  | integer (digits : String) : Starts (.integer digits)
  | string (text : String) : Starts (.string text)
  | keyword {k : Keyword} (h : k ∈ [.trueWord, .falseWord, .ifWord, .fnWord]) : Starts (.keyword k)
  | symbol {s : Symbol} (h : s ∈ [.bang, .minus, .leftParen, .leftBracket, .leftBrace]) :
      Starts (.symbol s)

/-- An expression has a first token, and it is one that can begin an expression. -/
theorem Derives.exists_head {s : Stratum} {ts : List Token} {e : Expr Unit} (h : Derives s ts e) :
    ∃ t us, ts = t :: us ∧ Starts t := by
  induction h with
  | tighter _ _ ih => exact ih
  | binary _ _ _ ih _ =>
    obtain ⟨t, us, rfl, ht⟩ := ih
    exact ⟨t, _, rfl, ht⟩
  | unary mem _ _ =>
    simp only [unaryOperators, List.mem_cons, List.not_mem_nil, or_false] at mem
    rcases mem with rfl | rfl <;> exact ⟨_, _, rfl, .symbol (by decide)⟩
  | call _ _ _ ih _ =>
    obtain ⟨t, us, rfl, ht⟩ := ih
    exact ⟨t, _, rfl, ht⟩
  | index _ _ ih _ =>
    obtain ⟨t, us, rfl, ht⟩ := ih
    exact ⟨t, _, rfl, ht⟩
  | name text => exact ⟨_, _, rfl, .name text⟩
  | integer _ => exact ⟨_, _, rfl, .integer _⟩
  | string text => exact ⟨_, _, rfl, .string text⟩
  | isTrue => exact ⟨_, _, rfl, .keyword (by decide)⟩
  | isFalse => exact ⟨_, _, rfl, .keyword (by decide)⟩
  | grouped => exact ⟨_, _, rfl, .symbol (by decide)⟩
  | conditional => exact ⟨_, _, rfl, .keyword (by decide)⟩
  | function => exact ⟨_, _, rfl, .keyword (by decide)⟩
  | array => exact ⟨_, _, rfl, .symbol (by decide)⟩
  | hash => exact ⟨_, _, rfl, .symbol (by decide)⟩

end Monkey.Grammar
