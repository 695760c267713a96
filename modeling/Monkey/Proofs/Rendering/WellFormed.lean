import Mathlib.Data.List.TakeWhile
import Monkey.Proofs.Grammar.Program
import Monkey.Proofs.Rendering.Lexing

/-!
# Well-formed trees

The trees that some text is read to: names are words that are no keywords, numbers are not negative,
texts hold no quote, and operators are those of the language. Reading gives no other trees, because
every token has that form already.
-/

namespace Monkey

/-- A word that can be a name. -/
structure IsName (text : String) : Prop where
  /-- It has a first character. -/
  nonempty : text.toList ≠ []
  /-- Every character may stand in a name. -/
  chars : ∀ c ∈ text.toList, isNameChar c = true
  /-- The language does not keep it for itself. -/
  free : ∀ k : Keyword, k.text ≠ text

/-- A word of small letters of ASCII can be a name, unless it is a keyword. -/
theorem isName_of_small {text : String} (nonempty : text.toList ≠ [])
    (small : ∀ c ∈ text.toList, 97 ≤ c.toNat ∧ c.toNat ≤ 122) (free : ∀ k : Keyword, k.text ≠ text) :
    IsName text :=
  ⟨nonempty, fun c hc => isNameChar_of_small (small c hc).1 (small c hc).2, free⟩

/-- The operators that stand between their operands. -/
def binaryOperators : List Token :=
  [.symbol .plus, .symbol .minus, .symbol .asterisk, .symbol .slash, .symbol .equal,
   .symbol .notEqual, .symbol .less, .symbol .greater]

variable {μ : Type}

/-- The expression of a statement. -/
def Stmt.value : Stmt μ → Expr μ
  | .define _ value => value
  | .leave value => value
  | .expression value => value

/-- What a statement binds is a name. -/
def Stmt.Named : Stmt μ → Prop
  | .define name _ => IsName name
  | .leave _ => True
  | .expression _ => True

/-- The names, numbers, texts and operators of an expression can be written. -/
inductive Expr.WellFormed : Expr μ → Prop where
  | name {text : String} (h : IsName text) : WellFormed (.name text)
  | integer {value : Int64} (h : 0 ≤ value.toInt) : WellFormed (.integer value)
  | boolean (value : Bool) : WellFormed (.boolean value)
  | string {text : String} (h : '"' ∉ text.toList) : WellFormed (.string text)
  | unary {operator : Token} {e : Expr μ} (mem : operator ∈ Grammar.unaryOperators)
      (operand : WellFormed e) : WellFormed (.unary operator e)
  | binary {l r : Expr μ} {operator : Token} (mem : operator ∈ binaryOperators)
      (left : WellFormed l) (right : WellFormed r) : WellFormed (.binary l operator r)
  | conditional {e : Expr μ} {chosen : List (Stmt μ)} {other : Option (List (Stmt μ))}
      (test : WellFormed e) (chosenNamed : ∀ s ∈ chosen, s.Named)
      (chosenValues : ∀ s ∈ chosen, WellFormed s.value)
      (otherNamed : ∀ block ∈ other, ∀ s ∈ block, s.Named)
      (otherValues : ∀ block ∈ other, ∀ s ∈ block, WellFormed s.value) :
      WellFormed (.conditional e chosen other)
  | function (mark : μ) {parameters : List String} {body : List (Stmt μ)}
      (names : ∀ x ∈ parameters, IsName x) (bodyNamed : ∀ s ∈ body, s.Named)
      (bodyValues : ∀ s ∈ body, WellFormed s.value) :
      WellFormed (.function mark parameters body)
  | call {e : Expr μ} {arguments : List (Expr μ)} (callee : WellFormed e)
      (items : ∀ a ∈ arguments, WellFormed a) : WellFormed (.call e arguments)
  | array {elements : List (Expr μ)} (items : ∀ a ∈ elements, WellFormed a) :
      WellFormed (.array elements)
  | index {e i : Expr μ} (collection : WellFormed e) (position : WellFormed i) :
      WellFormed (.index e i)
  | hash {pairs : List (Expr μ × Expr μ)} (keys : ∀ p ∈ pairs, WellFormed p.1)
      (values : ∀ p ∈ pairs, WellFormed p.2) : WellFormed (.hash pairs)

/-- The statements of a block or a program can be written. -/
structure WellFormed (block : List (Stmt μ)) : Prop where
  /-- What they bind are names. -/
  named : ∀ s ∈ block, s.Named
  /-- Their expressions can be written. -/
  values : ∀ s ∈ block, s.value.WellFormed

/-- What reading makes sure of for a token by itself. -/
def Token.Genuine : Token → Prop
  | name text => IsName text
  | string text => '"' ∉ text.toList
  | _ => True

/-- A word of characters of names is a keyword or a name. -/
theorem Token.genuine_ofWord {word : String} (hne : word.toList ≠ [])
    (hchars : ∀ c ∈ word.toList, isNameChar c = true) : (Token.ofWord word).Genuine := by
  unfold Token.ofWord
  split
  · trivial
  · next h =>
    refine ⟨hne, hchars, fun k hk => ?_⟩
    rw [Keyword.ofText?_eq_some_iff.2 hk] at h
    cases h

theorem Lexeme.genuine_first (c : Char) (rest : List Char) : (first c rest).token.Genuine := by
  unfold first
  split
  · unfold pair; split <;> trivial
  split
  · unfold pair; split <;> trivial
  split
  · intro hmem
    rw [String.toList_ofList] at hmem
    exact absurd (List.mem_takeWhile_imp hmem) (by decide)
  split
  · trivial
  split
  · next hname =>
    refine Token.genuine_ofWord ?_ ?_
    all_goals rw [String.toList_ofList]
    · exact List.cons_ne_nil _ _
    · exact List.forall_mem_cons.2 ⟨hname, fun d hd => List.mem_takeWhile_imp hd⟩
  · unfold Token.ofChar
    split <;> trivial

/-- Every token that is read is genuine. -/
theorem genuine_of_mem_lexed {cs : List Char} : ∀ t ∈ lexed cs, t.Genuine := by
  unfold lexed
  generalize 0 = place
  fun_induction tokensFrom place cs with
  | case1 => simp
  | case2 place cs c rest _ lexeme start stop ih =>
    rw [List.map_cons, List.forall_mem_cons]
    exact ⟨Lexeme.genuine_first c rest, ih⟩

namespace Grammar

theorem Line.value_tree (l : Line) : l.tree.value = l.value.tree := by
  obtain ⟨form, value, closed⟩ := l
  cases form <;> rfl

/-- What a line of genuine tokens binds is a name. -/
theorem Line.named_tree {l : Line} (h : ∀ t ∈ l.tokens, t.Genuine) : l.tree.Named := by
  obtain ⟨form, value, closed⟩ := l
  cases form with
  | define x => exact h (.name x) (List.mem_cons_of_mem _ List.mem_cons_self)
  | leave => trivial
  | bare => trivial

theorem mem_binaryOperators {s : Stratum} {operator : Token} (h : operator ∈ s.operators) :
    operator ∈ binaryOperators := by
  cases s <;> simp only [Stratum.operators, List.mem_cons, List.not_mem_nil, or_false] at h
  all_goals rcases h with rfl | rfl <;> decide

/-- A number that is small enough to be written is read as it stands. -/
theorem nonneg_ofNat {n : Nat} (h : n ≤ Reader.largestInteger) : 0 ≤ (Int64.ofNat n).toInt := by
  rw [Int64.toInt_ofNat_of_lt (Nat.lt_succ_of_le h)]
  exact Int.natCast_nonneg n

/-- Lines of genuine tokens are well-formed if their expressions are. -/
theorem wellFormed_lines {lines : List Line} (hgenuine : ∀ t ∈ lineTokens lines, t.Genuine)
    (h : ∀ l ∈ lines, (∀ t ∈ l.value.tokens, t.Genuine) → l.value.tree.WellFormed) :
    WellFormed (lines.map Line.tree) where
  named := List.forall_mem_map.2 fun _ hl => Line.named_tree fun t ht =>
    hgenuine t (List.mem_flatMap_of_mem hl ht)
  values := List.forall_mem_map.2 fun l hl => by
    rw [l.value_tree]
    exact h l hl fun t ht => hgenuine t ((sublist_lineTokens hl).subset ht)

/-- Genuine tokens derive well-formed expressions only. -/
theorem Derives.wellFormed {s : Stratum} {ts : List Token} {e : Expr Unit} (h : Derives s ts e)
    (hgenuine : ∀ t ∈ ts, t.Genuine) : e.WellFormed := by
  induction h with
  | tighter _ _ ih => exact ih hgenuine
  | binary hop _ _ ihl ihr =>
    simp only [List.forall_mem_append, List.forall_mem_cons] at hgenuine
    exact .binary (mem_binaryOperators hop) (ihl hgenuine.1) (ihr hgenuine.2.2)
  | unary hop _ ih => exact .unary hop (ih (List.forall_mem_cons.1 hgenuine).2)
  | call arguments _ _ ih ihs =>
    simp only [enclosed, List.forall_mem_append, List.forall_mem_cons] at hgenuine
    refine .call (ih hgenuine.1) (List.forall_mem_map.2 fun a ha => ?_)
    exact ihs a ha fun t ht => hgenuine.2.1.2 t ((sublist_listed (·.tokens) ha).subset ht)
  | index _ _ ih ihi =>
    simp only [List.forall_mem_append, List.forall_mem_cons] at hgenuine
    exact .index (ih hgenuine.1.1) (ihi hgenuine.1.2.2)
  | name text => exact .name (hgenuine _ List.mem_cons_self)
  | integer hsmall => exact .integer (nonneg_ofNat hsmall)
  | string text => exact .string (hgenuine _ List.mem_cons_self)
  | isTrue => exact .boolean true
  | isFalse => exact .boolean false
  | grouped _ ih =>
    simp only [List.forall_mem_append, List.forall_mem_cons] at hgenuine
    exact ih hgenuine.1.2
  | conditional chosen other _ _ _ _ _ ih ihc iho =>
    simp only [blockTokens, List.forall_mem_append, List.forall_mem_cons] at hgenuine
    obtain ⟨⟨⟨-, -, htest⟩, -, ⟨-, hchosen⟩, -⟩, hother⟩ := hgenuine
    have hc := wellFormed_lines hchosen ihc
    have ho : ∀ block ∈ other.map (·.map Line.tree), WellFormed block := fun block hblock => by
      obtain ⟨lines, hlines, rfl⟩ := Option.map_eq_some_iff.1 hblock
      simp only [hlines, otherwiseTokens, blockTokens, List.forall_mem_append,
        List.forall_mem_cons] at hother
      exact wellFormed_lines hother.2.1.2 (iho lines hlines)
    exact .conditional (ih htest) hc.named hc.values (fun block hb => (ho block hb).named)
      fun block hb => (ho block hb).values
  | function parameters body _ _ ih =>
    simp only [enclosed, blockTokens, List.forall_mem_append, List.forall_mem_cons] at hgenuine
    obtain ⟨⟨-, ⟨-, hparameters⟩, -⟩, ⟨-, hbody⟩, -⟩ := hgenuine
    have hb := wellFormed_lines hbody ih
    refine .function () (fun x hx => ?_) hb.named hb.values
    exact hparameters (.name x)
      ((sublist_listed (fun x => [.name x]) hx).subset List.mem_cons_self)
  | array elements _ ih =>
    simp only [enclosed, List.forall_mem_append, List.forall_mem_cons] at hgenuine
    refine .array (List.forall_mem_map.2 fun a ha => ?_)
    exact ih a ha fun t ht => hgenuine.1.2 t ((sublist_listed (·.tokens) ha).subset ht)
  | hash pairs _ _ ihk ihv =>
    simp only [enclosed, List.forall_mem_append, List.forall_mem_cons] at hgenuine
    have hpair : ∀ p ∈ pairs, ∀ t ∈ pairTokens p, t.Genuine := fun p hp t ht =>
      hgenuine.1.2 t ((sublist_listed pairTokens hp).subset ht)
    simp only [pairTokens, List.forall_mem_append, List.forall_mem_cons] at hpair
    exact .hash (List.forall_mem_map.2 fun p hp => ihk p hp (hpair p hp).1)
      (List.forall_mem_map.2 fun p hp => ihv p hp (hpair p hp).2.2)

/-- Only well-formed programs are read. -/
theorem wellFormed_of_parse {source : String} {tree : Tree} (h : parse source = .ok tree) :
    WellFormed tree := by
  obtain ⟨lines, hlines, hts, rfl⟩ := parse_eq_ok_iff.1 h
  have hgenuine : ∀ t ∈ lineTokens lines, t.Genuine := hts ▸ genuine_of_mem_lexed
  exact wellFormed_lines hgenuine fun l hl => (hlines.derives l hl).wellFormed

end Grammar

end Monkey
