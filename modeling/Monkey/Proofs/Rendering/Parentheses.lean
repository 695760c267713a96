import Monkey.Proofs.Rendering.RoundTrip

/-!
# Necessary parentheses

A tree can be written with few parentheses: an operation needs them only as the operand of an operator
that would otherwise take a part of it away, and as what is called or indexed. The text is read to the
tree, and so is every text with more parentheses around any of its parts. In which stratum of the
grammar an expression is written depends on its outermost form only; a place asks for parentheses
exactly if it is for tighter ones.
-/

namespace Monkey

open Grammar

/-- Where an expression stands, as far as it matters to the parentheses around it. -/
inductive Place where
  /-- Somewhere with delimiters on both sides. -/
  | free
  /-- Before a binary operator. -/
  | left (operator : Token)
  /-- After a binary operator. -/
  | right (operator : Token)
  /-- After an operator with one operand. -/
  | operand
  /-- Where something is called or indexed. -/
  | head

variable {μ : Type}

/-- Whether an expression needs parentheses where it stands. -/
def Place.asks : Place → Expr μ → Bool
  | left operator, .binary _ inner _ =>
    decide (Precedence.ofKind inner.kind < Precedence.ofKind operator.kind)
  | right operator, .binary _ inner _ =>
    decide (Precedence.ofKind inner.kind ≤ Precedence.ofKind operator.kind)
  | operand, .binary _ _ _ => true
  | head, .binary _ _ _ => true
  | head, .unary _ _ => true
  | _, _ => false

/-- A text in some pairs of parentheses. -/
def parenthesized : Nat → String → String
  | 0, text => text
  | n + 1, text => "(" ++ parenthesized n text ++ ")"

/-- The text of an expression at the given path in the parentheses that its place asks for, and in as
many more as are wanted there. -/
def Place.wrap (place : Place) (extra : List Nat → Nat) (path : List Nat) (e : Expr μ)
    (text : String) : String :=
  parenthesized (extra path + (place.asks e).toNat) text

mutual

/-- The text of an expression, without parentheses around the whole. -/
def Expr.core (extra : List Nat → Nat) (path : List Nat) : Expr μ → String
  | .name text => text
  | .integer value => toString value.toInt
  | .boolean value => if value then "true" else "false"
  | .string text => "\"" ++ text ++ "\""
  | .unary operator operand =>
    operator.text ++ Place.operand.wrap extra (0 :: path) operand (operand.core extra (0 :: path))
  | .binary left operator right =>
    (Place.left operator).wrap extra (0 :: path) left (left.core extra (0 :: path)) ++ " " ++
      operator.text ++ " " ++
      (Place.right operator).wrap extra (1 :: path) right (right.core extra (1 :: path))
  | .conditional test chosen otherwise =>
    "if (" ++ Place.free.wrap extra (0 :: path) test (test.core extra (0 :: path)) ++ ") " ++
      braced ("; ".intercalate (coreStatements extra (1 :: path) 0 chosen)) ++
      coreOtherwise extra (2 :: path) otherwise
  | .function _ parameters body =>
    "fn(" ++ renderNames parameters ++ ") " ++
      braced ("; ".intercalate (coreStatements extra path 0 body))
  | .call callee arguments =>
    Place.head.wrap extra (0 :: path) callee (callee.core extra (0 :: path)) ++ "(" ++
      ", ".intercalate (coreExpressions extra path 1 arguments) ++ ")"
  | .array elements => "[" ++ ", ".intercalate (coreExpressions extra path 0 elements) ++ "]"
  | .index collection position =>
    Place.head.wrap extra (0 :: path) collection (collection.core extra (0 :: path)) ++ "[" ++
      Place.free.wrap extra (1 :: path) position (position.core extra (1 :: path)) ++ "]"
  | .hash pairs => "\x7b" ++ ", ".intercalate (corePairs extra path 0 pairs) ++ "\x7d"

/-- The texts of some expressions, the first of them at the given position. -/
def coreExpressions (extra : List Nat → Nat) (path : List Nat) (position : Nat) :
    List (Expr μ) → List String
  | [] => []
  | e :: es =>
    Place.free.wrap extra (position :: path) e (e.core extra (position :: path)) ::
      coreExpressions extra path (position + 1) es

/-- The texts of some keys with their values, which take two positions a pair. -/
def corePairs (extra : List Nat → Nat) (path : List Nat) (position : Nat) :
    List (Expr μ × Expr μ) → List String
  | [] => []
  | (key, value) :: pairs =>
    (Place.free.wrap extra (position :: path) key (key.core extra (position :: path)) ++ ": " ++
      Place.free.wrap extra ((position + 1) :: path) value
        (value.core extra ((position + 1) :: path))) ::
      corePairs extra path (position + 2) pairs

/-- The text of the second block of a conditional, if there is one. -/
def coreOtherwise (extra : List Nat → Nat) (path : List Nat) : Option (List (Stmt μ)) → String
  | none => ""
  | some block => " else " ++ braced ("; ".intercalate (coreStatements extra path 0 block))

/-- The texts of some statements, the first of them at the given position. -/
def coreStatements (extra : List Nat → Nat) (path : List Nat) (position : Nat) :
    List (Stmt μ) → List String
  | [] => []
  | s :: ss => s.core extra (position :: path) :: coreStatements extra path (position + 1) ss

/-- The text of a statement. -/
def Stmt.core (extra : List Nat → Nat) (path : List Nat) : Stmt μ → String
  | .define name value =>
    "let " ++ name ++ " = " ++ Place.free.wrap extra (0 :: path) value (value.core extra (0 :: path))
  | .leave value =>
    "return " ++ Place.free.wrap extra (0 :: path) value (value.core extra (0 :: path))
  | .expression value => Place.free.wrap extra (0 :: path) value (value.core extra (0 :: path))

end

/-- The text of an expression in the necessary parentheses and in as many more around each part as are
wanted at its path. -/
def Expr.text (extra : List Nat → Nat) (e : Expr μ) : String :=
  Place.free.wrap extra [] e (e.core extra [])

/-- The stratum of a binary operator. -/
def Grammar.Stratum.ofOperator : Token → Stratum
  | .symbol .equal => equality
  | .symbol .notEqual => equality
  | .symbol .less => comparison
  | .symbol .greater => comparison
  | .symbol .plus => sum
  | .symbol .minus => sum
  | .symbol .asterisk => product
  | .symbol .slash => product
  | _ => atom

/-- The strata of binary operators are in the order of their precedence. -/
theorem Grammar.Stratum.rank_ofOperator {operator : Token} (h : operator ∈ binaryOperators) :
    operator ∈ (ofOperator operator).operators ∧
      (ofOperator operator).rank + 1 = (Precedence.ofKind operator.kind).rank ∧
      (ofOperator operator).tighter.rank = (Precedence.ofKind operator.kind).rank ∧
      (ofOperator operator).rank < unary.rank := by
  simp only [binaryOperators, List.mem_cons, List.not_mem_nil, or_false] at h
  rcases h with rfl | rfl | rfl | rfl | rfl | rfl | rfl | rfl <;> decide

/-- The stratum in which an expression is written, by its outermost form. -/
def Expr.stratum : Expr μ → Stratum
  | .binary _ operator _ => .ofOperator operator
  | .unary _ _ => .unary
  | .call _ _ => .applied
  | .index _ _ => .applied
  | _ => .atom

/-- The loosest stratum that can stand at a place. -/
def Place.stratum : Place → Stratum
  | free => .equality
  | left operator => .ofOperator operator
  | right operator => (Stratum.ofOperator operator).tighter
  | operand => .unary
  | head => .applied

/-- The operator of a place is one. -/
def Place.Proper : Place → Prop
  | left operator => operator ∈ binaryOperators
  | right operator => operator ∈ binaryOperators
  | _ => True

/-- Only operations are in strata looser than that of calls. -/
theorem Expr.WellFormed.stratum_cases {e : Expr Unit} (h : e.WellFormed) :
    (∃ l operator r, e = .binary l operator r ∧ operator ∈ binaryOperators) ∨
      (∃ operator r, e = .unary operator r) ∨ Stratum.applied ≤ e.stratum := by
  have happlied : Stratum.applied ≤ .applied := by decide
  have hatom : Stratum.applied ≤ .atom := by decide
  cases h with
  | unary _ _ => exact .inr (.inl ⟨_, _, rfl⟩)
  | binary mem _ _ => exact .inl ⟨_, _, _, rfl, mem⟩
  | call _ _ => exact .inr (.inr happlied)
  | index _ _ => exact .inr (.inr happlied)
  | _ => exact .inr (.inr hatom)

/-- Operators with one operand can stand everywhere but where something is called or indexed. -/
theorem Place.stratum_le_unary {place : Place} (h : place.Proper) (hhead : place ≠ .head) :
    place.stratum ≤ .unary := by
  cases place with
  | free => exact Nat.zero_le _
  | left operator => exact Nat.le_of_lt (Stratum.rank_ofOperator h).2.2.2
  | right operator =>
    have hrank := Stratum.rank_ofOperator h
    have htighter : (Stratum.ofOperator operator).tighter.rank ≤ Stratum.unary.rank := by omega
    exact htighter
  | operand => exact Nat.le_refl _
  | head => exact absurd rfl hhead

/-- A place that asks for no parentheses can have the expression as it is written. -/
theorem Place.stratum_le {place : Place} (hplace : place.Proper) {e : Expr Unit} (he : e.WellFormed)
    (h : place.asks e = false) : place.stratum ≤ e.stratum := by
  rcases he.stratum_cases with ⟨l, inner, r, rfl, hinner⟩ | ⟨inner, r, rfl⟩ | hle
  · have hi := Stratum.rank_ofOperator hinner
    cases place with
    | free => exact Nat.zero_le _
    | left operator =>
      have ho := Stratum.rank_ofOperator hplace
      simp only [asks, decide_eq_false_iff_not, Precedence.lt_iff] at h
      have hrank : (Stratum.ofOperator operator).rank ≤ (Stratum.ofOperator inner).rank := by omega
      exact hrank
    | right operator =>
      have ho := Stratum.rank_ofOperator hplace
      simp only [asks, decide_eq_false_iff_not, Precedence.le_iff] at h
      have hrank : (Stratum.ofOperator operator).tighter.rank ≤ (Stratum.ofOperator inner).rank := by
        omega
      exact hrank
    | operand => cases h
    | head => cases h
  · refine stratum_le_unary hplace ?_
    rintro rfl
    cases h
  · by_cases hhead : place = .head
    · rw [hhead]
      exact hle
    · exact Nat.le_trans (stratum_le_unary hplace hhead) (Nat.le_trans (by decide) hle)

variable {text : String} {e : Expr Unit} {extra : List Nat → Nat} {path : List Nat}

/-- With parentheses around it an expression can stand anywhere. -/
theorem Means.parenthesized (h : Means .equality text e) (n : Nat) :
    Means .atom (parenthesized (n + 1) text) e := by
  induction n with
  | zero => exact h.grouped
  | succ n ih => exact ih.loosest.grouped

/-- In the parentheses that its place asks for, and perhaps in more, an expression can stand at the
place. -/
theorem Means.wrap (place : Place) (hplace : place.Proper) (he : e.WellFormed)
    (h : Means e.stratum text e) : Means place.stratum (place.wrap extra path e text) e := by
  unfold Place.wrap
  cases hcount : extra path + (place.asks e).toNat with
  | zero =>
    have hasks : place.asks e = false := by
      cases hb : place.asks e with
      | false => rfl
      | true => simp [hb] at hcount
    exact h.looser (Place.stratum_le hplace he hasks)
  | succ n =>
    have hatom : place.stratum ≤ .atom := by
      cases place with
      | head => decide
      | _ => exact Nat.le_trans (Place.stratum_le_unary hplace (by simp)) (by decide)
    exact (h.loosest.parenthesized n).looser hatom

/-- Expressions that mean themselves as they are written do so in a list. -/
theorem means_coreExpressions {es : List (Expr Unit)} (hes : ∀ e ∈ es, e.WellFormed)
    (h : ∀ e ∈ es, ∀ path, Means e.stratum (e.core extra path) e) (path : List Nat) (position : Nat) :
    List.Forall₂ (Means .equality) (coreExpressions extra path position es) es := by
  induction es generalizing position with
  | nil => exact .nil
  | cons e es ih =>
    rw [List.forall_mem_cons] at hes h
    rw [coreExpressions]
    exact .cons ((h.1 _).wrap .free trivial hes.1) (ih hes.2 h.2 _)

theorem means_corePairs {pairs : List (Expr Unit × Expr Unit)}
    (hkeys : ∀ p ∈ pairs, p.1.WellFormed) (hvalues : ∀ p ∈ pairs, p.2.WellFormed)
    (h : ∀ p ∈ pairs, ∀ path, Means p.1.stratum (p.1.core extra path) p.1)
    (h' : ∀ p ∈ pairs, ∀ path, Means p.2.stratum (p.2.core extra path) p.2)
    (path : List Nat) (position : Nat) :
    List.Forall₂ MeansPair (corePairs extra path position pairs) pairs := by
  induction pairs generalizing position with
  | nil => exact .nil
  | cons pair pairs ih =>
    rw [List.forall_mem_cons] at hkeys hvalues h h'
    obtain ⟨key, value⟩ := pair
    rw [corePairs]
    exact .cons ⟨_, _, rfl, (h.1 _).wrap .free trivial hkeys.1,
      (h'.1 _).wrap .free trivial hvalues.1⟩ (ih hkeys.2 hvalues.2 h.2 h'.2 _)

theorem means_coreStatements {block : List (Stmt Unit)} (hnamed : ∀ s ∈ block, s.Named)
    (hvalues : ∀ s ∈ block, s.value.WellFormed)
    (h : ∀ s ∈ block, ∀ path, Means s.value.stratum (s.value.core extra path) s.value)
    (path : List Nat) (position : Nat) :
    List.Forall₂ MeansStatement (coreStatements extra path position block) block := by
  induction block generalizing position with
  | nil => exact .nil
  | cons s block ih =>
    rw [List.forall_mem_cons] at hnamed hvalues h
    rw [coreStatements]
    refine .cons ?_ (ih hnamed.2 hvalues.2 h.2 _)
    have hvalue : Means .equality (Place.free.wrap extra (0 :: position :: path) s.value
        (s.value.core extra (0 :: position :: path))) s.value :=
      (h.1 _).wrap .free trivial hvalues.1
    cases s with
    | define x e =>
      rw [Stmt.core]
      exact means_define hnamed.1 hvalue
    | leave e =>
      rw [Stmt.core]
      exact means_leave hvalue
    | expression e =>
      rw [Stmt.core]
      exact means_expression hvalue

/-- Without parentheses around it, the text of a well-formed expression means it in the stratum of its
outermost form. -/
theorem means_core (h : e.WellFormed) (extra : List Nat → Nat) (path : List Nat) :
    Means e.stratum (e.core extra path) e := by
  induction h generalizing path with
  | name h =>
    rw [Expr.core]
    exact means_name h
  | integer h =>
    rw [Expr.core]
    exact means_integer h
  | boolean value =>
    rw [Expr.core]
    exact means_boolean value
  | string h =>
    rw [Expr.core]
    exact means_string h
  | unary hop he ih =>
    rw [Expr.core]
    exact Means.unary hop ((ih _).wrap .operand trivial he)
  | @binary l r operator hop hl hr ihl ihr =>
    rw [Expr.core]
    exact Means.binary (Stratum.rank_ofOperator hop).1 ((ihl _).wrap (.left operator) hop hl)
      ((ihr _).wrap (.right operator) hop hr)
  | @conditional e chosen other he hchosenNamed hchosen hotherNamed hother ih ihc iho =>
    have hotherwise : MeansOtherwise (coreOtherwise extra (2 :: path) other) other := by
      cases other with
      | none =>
        rw [coreOtherwise]
        exact means_no_otherwise
      | some block =>
        rw [coreOtherwise]
        exact means_otherwise (means_block (means_coreStatements (hotherNamed block rfl)
          (hother block rfl) (iho block rfl) _ _))
    rw [Expr.core]
    exact means_conditional ((ih _).wrap .free trivial he)
      (means_block (means_coreStatements hchosenNamed hchosen ihc _ _)) hotherwise
  | function _ hnames hnamed hvalues ih =>
    rw [Expr.core]
    exact means_function hnames (means_block (means_coreStatements hnamed hvalues ih _ _)).braced
  | call he hes ih ihs =>
    rw [Expr.core]
    exact Means.call ((ih _).wrap .head trivial he) (means_coreExpressions hes ihs _ _)
  | array hes ihs =>
    rw [Expr.core]
    exact means_array (means_coreExpressions hes ihs _ _)
  | index hc hp ihc ihp =>
    rw [Expr.core]
    exact Means.index ((ihc _).wrap .head trivial hc)
      ((ihp _).wrap .free trivial hp)
  | hash hkeys hvalues ihk ihv =>
    rw [Expr.core]
    exact means_hash (means_corePairs hkeys hvalues ihk ihv _ _)

/-- A well-formed expression is read from its text in the necessary parentheses, and from any text with
more parentheses around its parts. -/
theorem parse_text_of_wellFormed (h : e.WellFormed) (extra : List Nat → Nat) :
    parse (e.text extra) = .ok [.expression e] := by
  have hmeans : Means .equality (e.text extra) e := (means_core h extra []).wrap .free trivial h
  have hblock := means_block (.cons (means_expression hmeans) .nil)
  rw [String.intercalate_singleton] at hblock
  exact hblock.parse

/-- A call of something negated, with a difference of a product as its argument and a comparison after
it: once in the necessary parentheses, and once with two pairs more. -/
theorem parse_text_of_comparison :
    let e : Expr Unit := .binary
      (.call (.unary (.symbol .minus) (.index (.array [.boolean true]) (.boolean false)))
        [.binary (.boolean true) (.symbol .minus) (.binary
          (.binary (.boolean false) (.symbol .minus) (.boolean true)) (.symbol .asterisk)
          (.boolean true))])
      (.symbol .less) (.boolean true)
    e.WellFormed ∧
      parse "(-[true][false])(true - (false - true) * true) < true" = .ok [.expression e] ∧
      parse "((-[true][false])(true - (false - true) * true) < (true))" = .ok [.expression e] := by
  intro e
  have hdifference : Expr.WellFormed
      (.binary (.boolean false) (.symbol .minus) (.boolean true) : Expr Unit) :=
    .binary (by decide) (.boolean false) (.boolean true)
  have hcallee : Expr.WellFormed
      (.unary (.symbol .minus) (.index (.array [.boolean true]) (.boolean false)) : Expr Unit) :=
    .unary (by decide) (.index (.array (List.forall_mem_singleton.2 (.boolean true)))
      (.boolean false))
  have h : e.WellFormed :=
    .binary (by decide)
      (.call hcallee (List.forall_mem_singleton.2 (.binary (by decide) (.boolean true)
        (.binary (by decide) hdifference (.boolean true)))))
      (.boolean true)
  exact ⟨h, parse_text_of_wellFormed h fun _ => 0,
    parse_text_of_wellFormed h fun path => if path = [] ∨ path = [1] then 1 else 0⟩

end Monkey
