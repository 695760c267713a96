import Mathlib.Data.List.Forall2
import Monkey.Proofs.Rendering.WellFormed
import Monkey.Syntax.Render

/-!
# What texts mean

A text means an expression if it is read, wherever it stands, to tokens that the grammar derives for
that expression. What a text means depends only on what its parts mean: for each form there is a lemma
that puts the parts together. A blank, a comma or a bracket has to stand behind every word and number,
so that it ends where its part does.
-/

namespace Monkey

open Grammar

/-- No word and no number goes on with these characters. -/
def Fresh (rest : List Char) : Prop := ∀ c ∈ rest.head?, isNameChar c = false ∧ c.isDigit = false

theorem Fresh.nil : Fresh [] := by rintro _ ⟨⟩

theorem Fresh.cons {c : Char} (h : isNameChar c = false ∧ c.isDigit = false) (rest : List Char) :
    Fresh (c :: rest) := by
  rintro _ ⟨⟩
  exact h

/-- A space is passed over. -/
theorem lexed_space (cs : List Char) : lexed (' ' :: cs) = lexed cs := lexed_blank (by decide) cs

/-- A text is read to some tokens, wherever it stands. -/
def Spelled (text : String) (ts : List Token) : Prop :=
  ∀ rest, Fresh rest → lexed (text.toList ++ rest) = ts ++ lexed rest

/-- A word of characters of names is read as a word. -/
theorem spelled_ofWord {word : String} (hne : word.toList ≠ [])
    (hchars : ∀ c ∈ word.toList, isNameChar c = true) : Spelled word [.ofWord word] := by
  intro rest hrest
  rw [lexed_word hne hchars fun c hc => (hrest c hc).1, String.ofList_toList]
  rfl

/-- A name is read as that name. -/
theorem spelled_name {text : String} (h : IsName text) : Spelled text [.name text] := by
  have hword : Token.ofWord text = .name text := by
    unfold Token.ofWord
    split
    · next k hk => exact absurd (Keyword.ofText?_eq_some_iff.1 hk) (h.free k)
    · rfl
  rw [← hword]
  exact spelled_ofWord h.nonempty h.chars

/-- A keyword is made of small letters. -/
theorem Keyword.isNameChar_of_mem (k : Keyword) {c : Char} (h : c ∈ k.text.toList) :
    isNameChar c = true := by
  have hsmall : ∀ c ∈ k.text.toList, 97 ≤ c.toNat ∧ c.toNat ≤ 122 := by
    cases k <;> simp [Keyword.text]
  obtain ⟨low, high⟩ := hsmall c h
  exact isNameChar_of_small low high

/-- A keyword is read as that keyword. -/
theorem spelled_keyword (k : Keyword) : Spelled k.text [.keyword k] := by
  have hword : Token.ofWord k.text = .keyword k := by
    rw [Token.ofWord, Keyword.ofText?_eq_some_iff.2 rfl]
  rw [← hword]
  have hne : k.text.toList ≠ [] := by cases k <;> decide
  exact spelled_ofWord hne fun _ => k.isNameChar_of_mem

/-- A number is read as its digits. -/
theorem spelled_digits (n : Nat) : Spelled (toString n) [.integer (toString n)] := by
  intro rest hrest
  have hdigits : (toString n).toList = Nat.toDigits 10 n := Nat.toList_repr
  have hlexed := lexed_integer (hdigits ▸ Nat.toDigits_ne_nil)
    (fun c hc => Nat.isDigit_of_mem_toDigits (by decide) (Nat.le_refl 10) (hdigits ▸ hc))
    (fun c hc => (hrest c hc).2)
  rw [hlexed, String.ofList_toList]
  rfl

theorem decimal_toString (n : Nat) : decimal (toString n).toList = n :=
  (congrArg decimal Nat.toList_repr).trans Nat.ofDigitChars_ten_toDigits

/-- A number that is not negative is small enough to be read. -/
theorem spelled_integer {value : Int64} (h : 0 ≤ value.toInt) :
    ∃ digits : String, decimal digits.toList ≤ Reader.largestInteger ∧
      Int64.ofNat (decimal digits.toList) = value ∧
      Spelled (toString value.toInt) [.integer digits] := by
  obtain ⟨n, hn⟩ := Int.eq_ofNat_of_zero_le h
  have hsmall : n ≤ Reader.largestInteger := by
    have hlt := value.toInt_lt
    rw [hn] at hlt
    rw [Reader.largestInteger]
    omega
  refine ⟨toString n, ?_, ?_, ?_⟩
  · rwa [decimal_toString]
  · rw [decimal_toString]
    exact Int64.toInt.inj (by rw [Int64.toInt_ofNat_of_lt (Nat.lt_succ_of_le hsmall), hn])
  · rw [hn]
    exact spelled_digits n

/-- A text without a quote is read between quotes. -/
theorem spelled_string {text : String} (h : '"' ∉ text.toList) :
    Spelled ("\"" ++ text ++ "\"") [.string text] := by
  intro rest _
  simp only [String.toList_append, String.reduceToList, List.append_assoc, List.cons_append,
    List.nil_append]
  rw [lexed_string (fun c hc heq => h (heq ▸ hc)), String.ofList_toList]

/-- An operator with a blank behind it is read as that operator. -/
theorem lexed_operator {operator : Token} (h : operator ∈ binaryOperators) (cs : List Char) :
    lexed (operator.text.toList ++ ' ' :: cs) = operator :: lexed cs := by
  simp only [binaryOperators, List.mem_cons, List.not_mem_nil, or_false] at h
  rw [← lexed_space cs]
  rcases h with rfl | rfl | rfl | rfl | rfl | rfl | rfl | rfl
  · exact lexed_symbol rfl _
  · exact lexed_symbol rfl _
  · exact lexed_symbol rfl _
  · exact lexed_symbol rfl _
  · exact lexed_equal _
  · exact lexed_notEqual _
  · exact lexed_symbol rfl _
  · exact lexed_symbol rfl _

/-- Items with a comma and a blank between any two are read as a list. -/
theorem spelled_items {texts : List String} {tss : List (List Token)}
    (h : List.Forall₂ Spelled texts tss) : Spelled (", ".intercalate texts) (listed tss) := by
  cases h with
  | nil =>
    intro rest _
    rfl
  | @cons text ts texts tss hfirst hothers =>
    induction hothers generalizing text ts with
    | nil =>
      simp only [String.intercalate_singleton, listed, List.flatMap_nil, List.append_nil]
      exact hfirst
    | @cons text' ts' texts tss hsecond _ ih =>
      intro rest hrest
      have hys := ih hsecond rest hrest
      simp only [String.intercalate_cons_cons, listed, List.flatMap_cons,
        String.toList_append, String.reduceToList, List.append_assoc, List.cons_append,
        List.nil_append] at hys ⊢
      rw [hfirst _ (.cons (by decide) _), lexed_symbol (s := .comma) rfl, lexed_space, hys]

/-- A text is read, wherever it stands, to tokens of a stratum that stand for the expression. -/
def Means (s : Stratum) (text : String) (e : Expr Unit) : Prop :=
  ∃ ts, Derives s ts e ∧ Spelled text ts

/-- A text is read to a statement that does something with what its expression means. -/
def MeansStatement (text : String) (s : Stmt Unit) : Prop :=
  ∃ (form : Form) (ts : List Token), form.statement s.value = s ∧ Derives .equality ts s.value ∧
    Spelled text (form.opening ++ ts)

/-- A text is read to lines that make a block. -/
def MeansBlock (text : String) (block : List (Stmt Unit)) : Prop :=
  ∃ lines, Lines lines ∧ lines.map Line.tree = block ∧ Spelled text (lineTokens lines)

/-- A text is read to the second block of a conditional, or it is empty and there is none. -/
def MeansOtherwise (text : String) (other : Option (List (Stmt Unit))) : Prop :=
  ∃ lines : Option (List Line), (∀ ls ∈ lines, Lines ls) ∧ lines.map (·.map Line.tree) = other ∧
    Spelled text (otherwiseTokens lines)

variable {s t : Stratum} {text other : String} {texts : List String} {e c : Expr Unit}
  {es : List (Expr Unit)} {operator : Token} {block : List (Stmt Unit)}

/-- What binds tightly can stand where something looser is allowed. -/
theorem Means.looser (h : Means t text e) (le : s ≤ t) : Means s text e := by
  obtain ⟨ts, hderives, hspelled⟩ := h
  exact ⟨ts, .tighter le hderives, hspelled⟩

theorem Means.loosest (h : Means s text e) : Means .equality text e := h.looser (Nat.zero_le _)

theorem means_name (h : IsName text) : Means .atom text (.name text) :=
  ⟨_, .name text, spelled_name h⟩

theorem means_integer {value : Int64} (h : 0 ≤ value.toInt) :
    Means .atom (toString value.toInt) (.integer value) := by
  obtain ⟨digits, hsmall, rfl, hspelled⟩ := spelled_integer h
  exact ⟨_, .integer hsmall, hspelled⟩

theorem means_boolean (value : Bool) :
    Means .atom (if value then "true" else "false") (.boolean value) := by
  cases value with
  | true => exact ⟨_, .isTrue, spelled_keyword .trueWord⟩
  | false => exact ⟨_, .isFalse, spelled_keyword .falseWord⟩

theorem means_string (h : '"' ∉ text.toList) : Means .atom ("\"" ++ text ++ "\"") (.string text) :=
  ⟨_, .string text, spelled_string h⟩

/-- Parentheses change nothing about what is meant, and what is inside can stand anywhere. -/
theorem Means.grouped (h : Means .equality text e) : Means .atom ("(" ++ text ++ ")") e := by
  obtain ⟨ts, hderives, hspelled⟩ := h
  refine ⟨_, .grouped hderives, fun rest _ => ?_⟩
  simp only [String.toList_append, String.reduceToList, List.append_assoc, List.cons_append,
    List.nil_append]
  rw [lexed_symbol (s := .leftParen) rfl, hspelled _ (.cons (by decide) _),
    lexed_symbol (s := .rightParen) rfl]

/-- An expression does not begin like the end of a symbol of two characters. -/
theorem head_ne_of_spelled {ts : List Token} (hderives : Derives s ts e) (hspelled : Spelled text ts)
    {rest : List Char} (hrest : Fresh rest) : ∀ d ∈ (text.toList ++ rest).head?, d ≠ '=' := by
  rintro d hd rfl
  obtain ⟨t, us, rfl, ht⟩ := hderives.exists_head
  have hlexed := hspelled rest hrest
  obtain ⟨ds, hds⟩ := List.head?_eq_some_iff.1 hd
  rw [hds, lexed_cons (by decide)] at hlexed
  have htoken : (Lexeme.first '=' ds).token = t := (List.cons.inj hlexed).1
  have hpair : (Lexeme.first '=' ds).token = .symbol .equal ∨
      (Lexeme.first '=' ds).token = .symbol .assign := by
    change (Lexeme.pair .equal .assign '=' ds).token = _ ∨
      (Lexeme.pair .equal .assign '=' ds).token = _
    unfold Lexeme.pair
    split
    · exact .inl rfl
    · exact .inr rfl
  rw [htoken] at hpair
  rcases hpair with rfl | rfl <;> exact not_starts_symbol (by decide) ht

/-- An operator stands right before its operand. -/
theorem Means.unary (hop : operator ∈ unaryOperators) (h : Means .unary text e) :
    Means .unary (operator.text ++ text) (.unary operator e) := by
  obtain ⟨ts, hderives, hspelled⟩ := h
  refine ⟨_, .unary hop hderives, fun rest hrest => ?_⟩
  have hhead := head_ne_of_spelled hderives hspelled hrest
  simp only [unaryOperators, List.mem_cons, List.not_mem_nil, or_false] at hop
  rcases hop with rfl | rfl
  all_goals
    simp only [Token.text, Symbol.text, String.toList_append, String.reduceToList, List.cons_append,
      List.nil_append]
  · rw [lexed_bang hhead, hspelled rest hrest]
  · rw [lexed_symbol (s := .minus) rfl, hspelled rest hrest]

/-- An operator stands between its operands, with blanks around it. -/
theorem Means.binary (hop : operator ∈ s.operators) (h : Means s text e)
    (h' : Means s.tighter other c) :
    Means s (text ++ " " ++ operator.text ++ " " ++ other) (.binary e operator c) := by
  obtain ⟨ts, hderives, hspelled⟩ := h
  obtain ⟨us, hderives', hspelled'⟩ := h'
  refine ⟨_, .binary hop hderives hderives', fun rest hrest => ?_⟩
  simp only [String.toList_append, String.reduceToList, List.append_assoc, List.cons_append,
    List.nil_append]
  rw [hspelled _ (.cons (by decide) _), lexed_space, lexed_operator (mem_binaryOperators hop),
    hspelled' _ hrest]

/-- An index stands in brackets after the collection. -/
theorem Means.index (h : Means .applied text e) (h' : Means .equality other c) :
    Means .applied (text ++ "[" ++ other ++ "]") (.index e c) := by
  obtain ⟨ts, hderives, hspelled⟩ := h
  obtain ⟨us, hderives', hspelled'⟩ := h'
  refine ⟨_, .index hderives hderives', fun rest _ => ?_⟩
  simp only [String.toList_append, String.reduceToList, List.append_assoc, List.cons_append,
    List.nil_append]
  rw [hspelled _ (.cons (by decide) _), lexed_symbol (s := .leftBracket) rfl,
    hspelled' _ (.cons (by decide) _), lexed_symbol (s := .rightBracket) rfl]

/-- What some texts mean, as phrases. -/
theorem exists_phrases (h : List.Forall₂ (Means .equality) texts es) :
    ∃ xs : List (Phrase (Expr Unit)), xs.map (·.tree) = es ∧
      (∀ x ∈ xs, Derives .equality x.tokens x.tree) ∧
      List.Forall₂ Spelled texts (xs.map (·.tokens)) := by
  induction h with
  | nil => exact ⟨[], rfl, by simp, .nil⟩
  | @cons text e texts es h _ ih =>
    obtain ⟨ts, hderives, hspelled⟩ := h
    obtain ⟨xs, rfl, hxs, hall⟩ := ih
    exact ⟨⟨ts, e⟩ :: xs, rfl, List.forall_mem_cons.2 ⟨hderives, hxs⟩, .cons hspelled hall⟩

/-- The arguments of a call stand in parentheses after what is called. -/
theorem Means.call (h : Means .applied text e) (items : List.Forall₂ (Means .equality) texts es) :
    Means .applied (text ++ "(" ++ ", ".intercalate texts ++ ")") (.call e es) := by
  obtain ⟨ts, hderives, hspelled⟩ := h
  obtain ⟨xs, rfl, hxs, hall⟩ := exists_phrases items
  refine ⟨_, .call xs hderives hxs, fun rest _ => ?_⟩
  simp only [enclosed, String.toList_append, String.reduceToList, List.append_assoc,
    List.cons_append, List.nil_append]
  rw [hspelled _ (.cons (by decide) _), lexed_symbol (s := .leftParen) rfl,
    spelled_items hall _ (.cons (by decide) _), lexed_symbol (s := .rightParen) rfl]

/-- Items between brackets are read as a list between brackets. -/
theorem spelled_bracketed {tss : List (List Token)} (h : List.Forall₂ Spelled texts tss) :
    Spelled ("[" ++ ", ".intercalate texts ++ "]") (enclosed .leftBracket tss .rightBracket) := by
  intro rest _
  simp only [enclosed, String.toList_append, String.reduceToList, List.append_assoc,
    List.cons_append, List.nil_append]
  rw [lexed_symbol (s := .leftBracket) rfl, spelled_items h _ (.cons (by decide) _),
    lexed_symbol (s := .rightBracket) rfl]

/-- The elements of an array stand in brackets. -/
theorem means_array (items : List.Forall₂ (Means .equality) texts es) :
    Means .atom ("[" ++ ", ".intercalate texts ++ "]") (.array es) := by
  obtain ⟨xs, rfl, hxs, hall⟩ := exists_phrases items
  exact ⟨_, .array xs hxs, spelled_bracketed hall⟩

/-- A key and its value with a colon and a blank between them are read as a pair. -/
theorem spelled_pair {ts us : List Token} (h : Spelled text ts) (h' : Spelled other us) :
    Spelled (text ++ ": " ++ other) (ts ++ .symbol .colon :: us) := by
  intro rest hrest
  simp only [String.toList_append, String.reduceToList, List.append_assoc, List.cons_append,
    List.nil_append]
  rw [h _ (.cons (by decide) _), lexed_symbol (s := .colon) rfl, lexed_space, h' _ hrest]

/-- Items between braces are read as a list between braces. -/
theorem spelled_inBraces {tss : List (List Token)} (h : List.Forall₂ Spelled texts tss) :
    Spelled ("\x7b" ++ ", ".intercalate texts ++ "\x7d") (enclosed .leftBrace tss .rightBrace) := by
  intro rest _
  simp only [enclosed, String.toList_append, String.reduceToList, List.append_assoc,
    List.cons_append, List.nil_append]
  rw [lexed_symbol (s := .leftBrace) rfl, spelled_items h _ (.cons (by decide) _),
    lexed_symbol (s := .rightBrace) rfl]

/-- A text means a key with its value: there is a colon between them. -/
def MeansPair (text : String) (pair : Expr Unit × Expr Unit) : Prop :=
  ∃ key value, text = key ++ ": " ++ value ∧ Means .equality key pair.1 ∧
    Means .equality value pair.2

theorem exists_phrase_pairs {pairs : List (Expr Unit × Expr Unit)}
    (h : List.Forall₂ MeansPair texts pairs) :
    ∃ xs : List (Phrase (Expr Unit) × Phrase (Expr Unit)),
      (xs.map fun p => (p.1.tree, p.2.tree)) = pairs ∧
      (∀ p ∈ xs, Derives .equality p.1.tokens p.1.tree) ∧
      (∀ p ∈ xs, Derives .equality p.2.tokens p.2.tree) ∧
      List.Forall₂ Spelled texts (xs.map pairTokens) := by
  induction h with
  | nil => exact ⟨[], rfl, by simp, by simp, .nil⟩
  | @cons text pair texts pairs h _ ih =>
    obtain ⟨key, value, rfl, ⟨ts, hkey, hts⟩, us, hvalue, hus⟩ := h
    obtain ⟨xs, rfl, hkeys, hvalues, hall⟩ := ih
    exact ⟨(⟨ts, pair.1⟩, ⟨us, pair.2⟩) :: xs, rfl, List.forall_mem_cons.2 ⟨hkey, hkeys⟩,
      List.forall_mem_cons.2 ⟨hvalue, hvalues⟩, .cons (spelled_pair hts hus) hall⟩

/-- The pairs of a hash stand in braces. -/
theorem means_hash {pairs : List (Expr Unit × Expr Unit)} (h : List.Forall₂ MeansPair texts pairs) :
    Means .atom ("\x7b" ++ ", ".intercalate texts ++ "\x7d") (.hash pairs) := by
  obtain ⟨xs, rfl, hkeys, hvalues, hall⟩ := exists_phrase_pairs h
  exact ⟨_, .hash xs hkeys hvalues, spelled_inBraces hall⟩

/-- A definition is written with its word, its name and an equals sign. -/
theorem means_define {x : String} (hx : IsName x) (h : Means .equality text e) :
    MeansStatement ("let " ++ x ++ " = " ++ text) (.define x e) := by
  obtain ⟨ts, hderives, hspelled⟩ := h
  have hlet (cs : List Char) :
      lexed ('l' :: 'e' :: 't' :: ' ' :: cs) = .keyword .letWord :: lexed (' ' :: cs) :=
    spelled_keyword .letWord _ (.cons (by decide) _)
  refine ⟨.define x, ts, rfl, hderives, fun rest hrest => ?_⟩
  simp only [Form.opening, String.toList_append, String.reduceToList, List.append_assoc,
    List.cons_append, List.nil_append]
  rw [hlet, lexed_space, spelled_name hx _ (.cons (by decide) _), lexed_space,
    lexed_assign (by rintro _ ⟨⟩; decide), lexed_space, hspelled _ hrest]
  rfl

/-- A `return` is written with its word. -/
theorem means_leave (h : Means .equality text e) :
    MeansStatement ("return " ++ text) (.leave e) := by
  obtain ⟨ts, hderives, hspelled⟩ := h
  have hreturn (cs : List Char) :
      lexed ('r' :: 'e' :: 't' :: 'u' :: 'r' :: 'n' :: ' ' :: cs) =
        .keyword .returnWord :: lexed (' ' :: cs) :=
    spelled_keyword .returnWord _ (.cons (by decide) _)
  refine ⟨.leave, ts, rfl, hderives, fun rest hrest => ?_⟩
  simp only [Form.opening, String.toList_append, String.reduceToList, List.cons_append,
    List.nil_append]
  rw [hreturn, lexed_space, hspelled _ hrest]

/-- An expression stands for itself as a statement. -/
theorem means_expression (h : Means .equality text e) : MeansStatement text (.expression e) := by
  obtain ⟨ts, hderives, hspelled⟩ := h
  exact ⟨.bare, ts, rfl, hderives, hspelled⟩

/-- Statements are separated by semicolons: all lines are closed but the last. -/
theorem means_block (h : List.Forall₂ MeansStatement texts block) :
    MeansBlock ("; ".intercalate texts) block := by
  induction h with
  | nil => exact ⟨[], .nil, rfl, fun _ _ => rfl⟩
  | @cons text s texts block h hall ih =>
    obtain ⟨form, ts, hform, hderives, hs⟩ := h
    obtain ⟨lines, hlines, rfl, hspelled⟩ := ih
    cases lines with
    | nil =>
      cases List.forall₂_nil_right_iff.1 hall
      refine ⟨[⟨form, ⟨ts, s.value⟩, false⟩], hlines.cons hderives (by simp), ?_, fun rest hrest => ?_⟩
      · rw [List.map_cons, Line.tree, hform]
      · simp only [String.intercalate_singleton, lineTokens, Line.tokens, List.flatMap_cons,
          List.flatMap_nil, List.append_nil, Bool.false_eq_true, if_false]
        exact hs rest hrest
    | cons l lines =>
      obtain ⟨text', texts', -, -, rfl⟩ := List.forall₂_cons_right_iff.1 hall
      refine ⟨⟨form, ⟨ts, s.value⟩, true⟩ :: l :: lines, hlines.cons hderives (by simp), ?_,
        fun rest hrest => ?_⟩
      · rw [List.map_cons, Line.tree, hform]
      · have hothers := hspelled rest hrest
        simp only [String.intercalate_cons_cons, String.toList_append, String.reduceToList,
          List.append_assoc, List.cons_append, List.nil_append] at hothers ⊢
        rw [hs _ (.cons (by decide) _), lexed_symbol (s := .semicolon) rfl, lexed_space, hothers]
        simp only [lineTokens, Line.tokens, List.flatMap_cons, List.append_assoc, if_true,
          List.cons_append, List.nil_append]

/-- A block is its lines in braces. -/
theorem lexed_braced {lines : List Line} (h : Spelled text (lineTokens lines)) (rest : List Char) :
    lexed ((braced text).toList ++ rest) = blockTokens lines ++ lexed rest := by
  simp only [braced, blockTokens, String.toList_append, String.reduceToList, List.append_assoc,
    List.cons_append, List.nil_append]
  rw [lexed_symbol (s := .leftBrace) rfl, lexed_space, h _ (.cons (by decide) _), lexed_space,
    lexed_symbol (s := .rightBrace) rfl]

theorem means_no_otherwise : MeansOtherwise "" none := ⟨none, by simp, rfl, fun _ _ => rfl⟩

/-- The second block of a conditional stands after its word. -/
theorem means_otherwise (h : MeansBlock text block) :
    MeansOtherwise (" else " ++ braced text) (some block) := by
  obtain ⟨lines, hlines, rfl, hspelled⟩ := h
  have helse (cs : List Char) :
      lexed ('e' :: 'l' :: 's' :: 'e' :: ' ' :: cs) = .keyword .elseWord :: lexed (' ' :: cs) :=
    spelled_keyword .elseWord _ (.cons (by decide) _)
  refine ⟨some lines, fun _ hls => Option.mem_some.1 hls ▸ hlines, rfl, fun rest hrest => ?_⟩
  have hbraced := lexed_braced hspelled rest
  simp only [otherwiseTokens, String.toList_append, String.reduceToList, List.cons_append,
    List.nil_append]
  rw [lexed_space, helse, lexed_space]
  exact congrArg _ hbraced

/-- A conditional has its condition in parentheses and its blocks in braces. -/
theorem means_conditional {body : String} {others : Option (List (Stmt Unit))}
    (test : Means .equality text e) (chosen : MeansBlock body block)
    (otherwise : MeansOtherwise other others) :
    Means .atom ("if (" ++ text ++ ") " ++ braced body ++ other) (.conditional e block others) := by
  obtain ⟨ts, hderives, hspelled⟩ := test
  obtain ⟨lines, hlines, rfl, hlines'⟩ := chosen
  obtain ⟨rows, hrows, rfl, hrows'⟩ := otherwise
  have hif (cs : List Char) :
      lexed ('i' :: 'f' :: ' ' :: cs) = .keyword .ifWord :: lexed (' ' :: cs) :=
    spelled_keyword .ifWord _ (.cons (by decide) _)
  refine ⟨_, .conditional lines rows hderives hlines.apart hlines.derives
    (fun ls hls => (hrows ls hls).apart) (fun ls hls => (hrows ls hls).derives),
    fun rest hrest => ?_⟩
  have hbraced := lexed_braced hlines' (other.toList ++ rest)
  simp only [String.toList_append, String.reduceToList, List.append_assoc, List.cons_append,
    List.nil_append]
  rw [hif, lexed_space, lexed_symbol (s := .leftParen) rfl, hspelled _ (.cons (by decide) _),
    lexed_symbol (s := .rightParen) rfl, lexed_space, hbraced, hrows' rest hrest]

/-- A text is read to lines in braces that make a block. -/
def MeansBraced (text : String) (block : List (Stmt Unit)) : Prop :=
  ∃ lines, Lines lines ∧ lines.map Line.tree = block ∧
    ∀ rest, lexed (text.toList ++ rest) = blockTokens lines ++ lexed rest

/-- A block can stand on the line of its braces. -/
theorem MeansBlock.braced (h : MeansBlock text block) : MeansBraced (braced text) block := by
  obtain ⟨lines, hlines, hblock, hspelled⟩ := h
  exact ⟨lines, hlines, hblock, lexed_braced hspelled⟩

/-- A function literal has its parameters in parentheses and its body in braces. -/
theorem means_function {parameters : List String} {body : String}
    (hnames : ∀ x ∈ parameters, IsName x) (h : MeansBraced body block) :
    Means .atom ("fn(" ++ renderNames parameters ++ ") " ++ body)
      (.function () parameters block) := by
  obtain ⟨lines, hlines, rfl, hbody⟩ := h
  have hfn (cs : List Char) :
      lexed ('f' :: 'n' :: '(' :: cs) = .keyword .fnWord :: lexed ('(' :: cs) :=
    spelled_keyword .fnWord _ (.cons (by decide) _)
  have hparameters : Spelled (renderNames parameters)
      (listed (parameters.map fun x => [.name x])) :=
    spelled_items (List.forall₂_map_right_iff.2
      (List.forall₂_same.2 fun x hx => spelled_name (hnames x hx)))
  refine ⟨_, .function parameters lines hlines.apart hlines.derives, fun rest hrest => ?_⟩
  simp only [enclosed, String.toList_append, String.reduceToList, List.append_assoc,
    List.cons_append, List.nil_append]
  rw [hfn, lexed_symbol (s := .leftParen) rfl, hparameters _ (.cons (by decide) _),
    lexed_symbol (s := .rightParen) rfl, lexed_space, hbody]

/-- A source text is read to the program that it means. -/
theorem MeansBlock.parse (h : MeansBlock text block) : parse text = .ok block := by
  obtain ⟨lines, hlines, rfl, hspelled⟩ := h
  refine parse_eq_ok_iff.2 ⟨lines, hlines, ?_, rfl⟩
  have hlexed := hspelled [] .nil
  rwa [List.append_nil, lexed_nil, List.append_nil] at hlexed

/-- An expression that is a program by itself is read as one. -/
theorem Means.parse (h : Means s text e) :
    parse text = .ok [.expression e] := by
  have hblock := means_block (.cons (means_expression h.loosest) .nil)
  rw [String.intercalate_singleton] at hblock
  exact hblock.parse

end Monkey
