import Monkey.Proofs.Grammar.Basic
import Monkey.Proofs.Reading.Forward

/-!
# What is read is derived

A reading of an expression that notes nothing takes tokens that the grammar derives, and the tree
that it gives is that of the derivation. Reading at some degree gives an expression of the stratum
above that degree, and stops before a token that does not bind it more tightly. The loop over
operators keeps one invariant: what has been read so far belongs to a stratum that the upcoming
token can go on with.
-/

namespace Monkey

/-- The stratum of the expressions that are read up to a degree. -/
def Precedence.stratum : Precedence → Grammar.Stratum
  | lowest => .equality
  | equality => .comparison
  | comparison => .sum
  | sum => .product
  | _ => .unary

/-- How tightly the upcoming token binds what stands before it. -/
def Cursor.pull (c : Cursor) : Precedence := .ofKind c.upcoming.value.kind

namespace Grammar

open Reader

/-- The rank of the tightest token that can go on with an expression of a stratum. -/
def Stratum.reach : Stratum → Nat
  | equality => 1
  | comparison => 2
  | sum => 3
  | product => 4
  | unary => 5
  | applied => 7
  | atom => 7

/-- A token that binds what stands before it is an operator, or it begins a call or an index. -/
theorem operator_of_pull {t : Token} (h : 0 < (Precedence.ofKind t.kind).rank) :
    t = .symbol .leftParen ∨ t = .symbol .leftBracket ∨
      ∃ s : Stratum, t ∈ s.operators ∧ s.reach = (Precedence.ofKind t.kind).rank := by
  cases t with
  | symbol s =>
    cases s with
    | leftParen => exact .inl rfl
    | leftBracket => exact .inr (.inl rfl)
    | equal => exact .inr (.inr ⟨.equality, by decide, rfl⟩)
    | notEqual => exact .inr (.inr ⟨.equality, by decide, rfl⟩)
    | less => exact .inr (.inr ⟨.comparison, by decide, rfl⟩)
    | greater => exact .inr (.inr ⟨.comparison, by decide, rfl⟩)
    | plus => exact .inr (.inr ⟨.sum, by decide, rfl⟩)
    | minus => exact .inr (.inr ⟨.sum, by decide, rfl⟩)
    | asterisk => exact .inr (.inr ⟨.product, by decide, rfl⟩)
    | slash => exact .inr (.inr ⟨.product, by decide, rfl⟩)
    | _ => exact absurd h (by decide)
  | _ => exact absurd h (Nat.lt_irrefl 0)

/-- What is read without noting anything, up to any degree at which expressions are read, is
derived, and the upcoming token does not go on with it. -/
def Sound (inner : Inner) : Prop :=
  ∀ {p : Precedence} {c d : Cursor} {e : Expr Unit}, p ≤ .unary → c.Proper → Reads (inner p) c e d →
    ∃ ts, c.values = ts ++ d.after ∧ Derives p.stratum ts e ∧ d.pull ≤ p

section List

variable {α δ : Type} {item : Reader α} [Forward item] {tokens : δ → List Token} {tree : δ → α}
  {D : δ → Prop}

/-- What an item reads is written like something that has a property, and stands for it. -/
def ItemSound (item : Reader α) (tokens : δ → List Token) (tree : δ → α) (D : δ → Prop) : Prop :=
  ∀ {c d : Cursor} {a : α}, c.Proper → Reads item c a d →
    ∃ x, tree x = a ∧ c.values = tokens x ++ d.after ∧ D x

/-- Further items are read as items that each follow a comma. -/
theorem furtherItems_sound (hitem : ItemSound item tokens tree D) {n : Nat} {c d : Cursor}
    {as : List α} (hc : c.Proper) (h : Reads (furtherItems item n) c as d) :
    ∃ xs : List δ, xs.map tree = as ∧ (∀ x ∈ xs, D x) ∧
      c.after = (xs.map tokens).flatMap (.symbol .comma :: ·) ++ d.after := by
  induction n generalizing c as with
  | zero =>
    obtain ⟨rfl, rfl⟩ := reads_pure_iff.1 h
    exact ⟨[], rfl, by simp, rfl⟩
  | succ n ih =>
    unfold furtherItems at h
    rw [reads_sees_bind, reads_ite_iff] at h
    simp only [decide_eq_true_eq] at h
    rcases h with ⟨hcomma, h⟩ | ⟨-, h⟩
    · rw [reads_advance_bind, reads_advance_bind, reads_bind_iff] at h
      obtain ⟨a, e, ha, h⟩ := h
      obtain ⟨others, f, ho, h⟩ := reads_bind_iff.1 h
      obtain ⟨rfl, rfl⟩ := reads_pure_iff.1 h
      obtain ⟨x, rfl, hx, hD⟩ := hitem hc.next.next ha
      obtain ⟨xs, rfl, hxs, hafter⟩ := ih (ha.proper hc.next.next) ho
      refine ⟨x :: xs, rfl, ?_, ?_⟩
      · simpa only [List.forall_mem_cons] using ⟨hD, hxs⟩
      · rw [hc.after_eq_symbol hcomma, ← Cursor.values_next, hx, hafter]
        simp only [List.map_cons, List.flatMap_cons, List.cons_append, List.append_assoc]
    · obtain ⟨rfl, rfl⟩ := reads_pure_iff.1 h
      exact ⟨[], rfl, by simp, rfl⟩

/-- What is read from an opening token to the closing one is a list of items. -/
theorem items_sound (hitem : ItemSound item tokens tree D) {close : Symbol} {c d : Cursor}
    {as : List α} (hc : c.Proper) (h : Reads (items close item) c as d) :
    ∃ xs : List δ, xs.map tree = as ∧ (∀ x ∈ xs, D x) ∧
      c.after = listed (xs.map tokens) ++ .symbol close :: d.after := by
  unfold items at h
  rw [reads_sees_bind] at h
  by_cases hclose : c.upcoming.value.kind = .symbol close
  · simp only [hclose, decide_true, ite_true] at h
    rw [reads_advance_bind, reads_pure_iff] at h
    obtain ⟨rfl, rfl⟩ := h
    exact ⟨[], rfl, by simp, hc.after_eq_symbol hclose⟩
  · simp only [hclose, decide_false, Bool.false_eq_true, ite_false] at h
    obtain ⟨a, e, ha, h⟩ := reads_bind_iff.1 (reads_advance_bind.1 h)
    rw [reads_remaining_bind] at h
    obtain ⟨others, f, ho, h⟩ := reads_bind_iff.1 h
    obtain ⟨hclosed, h⟩ := reads_expect_bind.1 h
    obtain ⟨rfl, rfl⟩ := reads_pure_iff.1 h
    obtain ⟨x, rfl, hx, hD⟩ := hitem hc.next ha
    have he := ha.proper hc.next
    obtain ⟨xs, rfl, hxs, hafter⟩ := furtherItems_sound hitem he ho
    refine ⟨x :: xs, rfl, ?_, ?_⟩
    · simpa only [List.forall_mem_cons] using ⟨hD, hxs⟩
    · rw [← Cursor.values_next, hx, hafter, (ho.proper he).after_eq_symbol hclosed]
      simp only [List.map_cons, listed, List.append_assoc]

end List

variable {inner : Inner} {c d : Cursor}

/-- An inner expression that is read as an item of a list is derived. -/
theorem Sound.item (hi : Sound inner) :
    ItemSound (inner .lowest) Phrase.tokens Phrase.tree
      (fun x => Derives .equality x.tokens x.tree) := by
  intro c d e hc h
  obtain ⟨ts, hts, he, -⟩ := hi (by decide) hc h
  exact ⟨⟨ts, e⟩, rfl, hts, he⟩

/-- A name that is read as an item of a list is that name. -/
theorem itemSound_currentName :
    ItemSound currentName (fun x => [.name x]) id (fun _ => True) := by
  intro c d x hc h
  obtain ⟨hx, rfl⟩ := reads_currentName_iff.1 h
  refine ⟨x, rfl, ?_, trivial⟩
  rw [hc.values_eq (by rw [hx]; simp), hx, List.singleton_append]

/-- After the expression of a statement, a semicolon is passed if there is one. -/
theorem closing_sound {s s' : Stmt Unit} (hc : c.Proper) (hp : c.pull ≤ .lowest)
    (h : Reads (skip (.symbol .semicolon) >>= fun _ => pure s) c s' d) :
    s' = s ∧ ∃ closed : Bool,
      c.after = (if closed then [.symbol .semicolon] else []) ++ d.after ∧
        (closed = false → d.pull ≤ .lowest) := by
  rw [reads_skip_bind, reads_pure_iff] at h
  obtain ⟨rfl, rfl⟩ := h
  refine ⟨rfl, ?_⟩
  by_cases hs : c.upcoming.value.kind = .symbol .semicolon
  · refine ⟨true, ?_, by simp⟩
    rw [if_pos hs, hc.after_eq_symbol hs]
    rfl
  · refine ⟨false, ?_, fun _ => ?_⟩
    · rw [if_neg hs]
      rfl
    · rwa [if_neg hs]

variable [∀ p, Forward (inner p)]

/-- A key and a value that are read as an item of a list are derived. -/
theorem Sound.keyed (hi : Sound inner) :
    ItemSound (keyed inner) pairTokens (fun x => (x.1.tree, x.2.tree))
      (fun x => Derives .equality x.1.tokens x.1.tree ∧ Derives .equality x.2.tokens x.2.tree) := by
  intro c d e hc h
  obtain ⟨k, c₁, hk, h⟩ := reads_bind_iff.1 h
  obtain ⟨hcolon, h⟩ := reads_expect_bind.1 h
  obtain ⟨v, c₂, hv, h⟩ := reads_bind_iff.1 (reads_advance_bind.1 h)
  obtain ⟨rfl, rfl⟩ := reads_pure_iff.1 h
  have hc₁ := hk.proper hc
  obtain ⟨ks, hks, hdk, -⟩ := hi (by decide) hc hk
  obtain ⟨vs, hvs, hdv, -⟩ := hi (by decide) hc₁.next.next hv
  refine ⟨(⟨ks, k⟩, ⟨vs, v⟩), rfl, ?_, hdk, hdv⟩
  rw [hks, hc₁.after_eq_symbol hcolon, ← Cursor.values_next, hvs]
  simp only [pairTokens, List.append_assoc, List.cons_append]

/-- What is read as a statement is a line. If it is not closed, the upcoming token does not go on
with it. -/
theorem statement_sound (hi : Sound inner) {s : Stmt Unit} (hc : c.Proper)
    (h : Reads (statement inner) c s d) :
    ∃ l : Line, Derives .equality l.value.tokens l.value.tree ∧ l.tree = s ∧
      c.values = l.tokens ++ d.after ∧ (l.closed = false → d.pull ≤ .lowest) := by
  unfold statement at h
  rw [reads_current_bind] at h
  split at h
  · next hlet =>
    obtain ⟨hname, h⟩ := reads_expect_bind.1 h
    obtain ⟨x, _, hread, h⟩ := reads_bind_iff.1 h
    obtain ⟨hx, rfl⟩ := reads_currentName_iff.1 hread
    obtain ⟨hassign, h⟩ := reads_expect_bind.1 h
    obtain ⟨v, c₁, hv, h⟩ := reads_bind_iff.1 (reads_advance_bind.1 h)
    obtain ⟨ts, hts, hder, hpull⟩ := hi (by decide) hc.next.next.next hv
    obtain ⟨rfl, closed, hclosed, hend⟩ := closing_sound (hv.proper hc.next.next.next) hpull h
    refine ⟨⟨.define x, ⟨ts, v⟩, closed⟩, hder, rfl, ?_, hend⟩
    rw [hc.values_eq (by rw [hlet]; simp), hlet, ← Cursor.values_next,
      hc.next.values_eq (by rw [hx]; simp), hx, hc.next.after_eq_symbol hassign,
      ← Cursor.values_next, hts, hclosed]
    simp only [Line.tokens, Form.opening, List.cons_append, List.nil_append, List.append_assoc]
  · next hreturn =>
    obtain ⟨v, c₁, hv, h⟩ := reads_bind_iff.1 (reads_advance_bind.1 h)
    obtain ⟨ts, hts, hder, hpull⟩ := hi (by decide) hc.next hv
    obtain ⟨rfl, closed, hclosed, hend⟩ := closing_sound (hv.proper hc.next) hpull h
    refine ⟨⟨.leave, ⟨ts, v⟩, closed⟩, hder, rfl, ?_, hend⟩
    rw [hc.values_eq (by rw [hreturn]; simp), hreturn, ← Cursor.values_next, hts, hclosed]
    simp only [Line.tokens, Form.opening, List.cons_append, List.nil_append, List.append_assoc]
  · obtain ⟨v, c₁, hv, h⟩ := reads_bind_iff.1 h
    obtain ⟨ts, hts, hder, hpull⟩ := hi (by decide) hc hv
    obtain ⟨rfl, closed, hclosed, hend⟩ := closing_sound (hv.proper hc) hpull h
    refine ⟨⟨.bare, ⟨ts, v⟩, closed⟩, hder, rfl, ?_, hend⟩
    rw [hts, hclosed]
    simp only [Line.tokens, Form.opening, List.nil_append, List.append_assoc]

/-- A token that does not bind what stands before it does not go on with a line. -/
theorem not_mem_continuing {t : Token} (h : Precedence.ofKind t.kind ≤ .lowest) :
    t ∉ continuing := by
  intro hm
  simp only [continuing, List.mem_cons, List.not_mem_nil, or_false] at hm
  rcases hm with rfl | rfl | rfl <;> exact absurd h (by decide)

/-- A line that was read does not run into lines that begin with the upcoming token. -/
theorem apart_of_pull (hc : c.Proper) {l : Line} {lines : List Line} {ts : List Token}
    (hpull : l.closed = false → c.pull ≤ .lowest) (hafter : c.after = lineTokens lines ++ ts) :
    l.closed = false → ∀ m ∈ lines.head?, ∀ t ∈ m.tokens.head?, t ∉ continuing := by
  intro hopen m hm t ht
  obtain ⟨rest, rfl⟩ := List.head?_eq_some_iff.1 hm
  obtain ⟨us, hus⟩ := List.head?_eq_some_iff.1 ht
  have hup : c.upcoming.value = t := by
    rw [hc.upcoming_eq, hafter, lineTokens, List.flatMap_cons, hus]
    rfl
  exact not_mem_continuing (hup ▸ hpull hopen)

/-- What is read up to a closing brace is a list of lines. -/
theorem blockItems_sound (hi : Sound inner) {n : Nat} {tree : Tree} (hc : c.Proper)
    (h : Reads (blockItems inner n) c tree d) :
    ∃ lines, Lines lines ∧ lines.map Line.tree = tree ∧
      c.values = lineTokens lines ++ .symbol .rightBrace :: d.after := by
  induction n generalizing c tree with
  | zero =>
    unfold blockItems at h
    exact absurd (reads_current_bind.1 h) not_reads_throw
  | succ n ih =>
    unfold blockItems at h
    rw [reads_current_bind, reads_ite_iff, reads_ite_iff] at h
    rcases h with ⟨hbrace, h⟩ | ⟨hbrace, ⟨-, h⟩ | ⟨hfinish, h⟩⟩
    · obtain ⟨rfl, rfl⟩ := reads_pure_iff.1 h
      refine ⟨[], .nil, rfl, ?_⟩
      rw [hc.values_eq (by rw [hbrace]; simp), hbrace]
      rfl
    · exact absurd h not_reads_throw
    · obtain ⟨o, e, hfirst, h⟩ := reads_bind_iff.1 h
      obtain ⟨s, rfl, hs⟩ := reads_noting_iff.1 hfirst
      rw [reads_advance_bind] at h
      obtain ⟨others, f, ho, h⟩ := reads_bind_iff.1 h
      obtain ⟨rfl, rfl⟩ := reads_pure_iff.1 h
      have he := hs.proper hc
      obtain ⟨l, hl, rfl, hvalues, hpull⟩ := statement_sound hi hc hs
      obtain ⟨lines, hlines, rfl, hafter⟩ := ih he.next ho
      rw [Cursor.values_next] at hafter
      refine ⟨l :: lines, hlines.cons hl (apart_of_pull he hpull hafter), rfl, ?_⟩
      rw [hvalues, hafter]
      simp only [lineTokens, List.flatMap_cons, List.append_assoc]

/-- What is read from an opening brace, on which the cursor stands, to the closing one is a block. -/
theorem block_sound (hi : Sound inner) {tree : Tree} (hc : c.Proper)
    (h : Reads (block inner) c tree d) :
    ∃ lines, Lines lines ∧ lines.map Line.tree = tree ∧
      c.after = lineTokens lines ++ .symbol .rightBrace :: d.after := by
  unfold block at h
  rw [reads_advance_bind, reads_remaining_bind] at h
  exact blockItems_sound hi hc.next h

/-- What is read behind the first block of a conditional is nothing or a second one. -/
theorem otherwise_sound (hi : Sound inner) {o : Option Tree} (hc : c.Proper)
    (h : Reads (otherwise inner) c o d) :
    ∃ other : Option (List Line), (∀ lines ∈ other, Lines lines) ∧ other.map (·.map Line.tree) = o ∧
      c.after = otherwiseTokens other ++ d.after := by
  unfold otherwise at h
  rw [reads_sees_bind, reads_ite_iff] at h
  simp only [decide_eq_true_eq] at h
  rcases h with ⟨helse, h⟩ | ⟨-, h⟩
  · rw [reads_advance_bind] at h
    obtain ⟨hbrace, h⟩ := reads_expect_bind.1 h
    obtain ⟨tree, e, htree, h⟩ := reads_bind_iff.1 h
    obtain ⟨rfl, rfl⟩ := reads_pure_iff.1 h
    obtain ⟨lines, hlines, rfl, hafter⟩ := block_sound hi hc.next.next htree
    refine ⟨some lines, ?_, rfl, ?_⟩
    · rintro _ ⟨⟩
      exact hlines
    · rw [hc.after_eq_keyword helse, hc.next.after_eq_symbol hbrace, hafter]
      simp only [otherwiseTokens, blockTokens, List.cons_append, List.append_assoc, List.nil_append]
  · obtain ⟨rfl, rfl⟩ := reads_pure_iff.1 h
    exact ⟨none, by simp, rfl, rfl⟩

/-- What is read from the word of a conditional on is one. -/
theorem conditional_sound (hi : Sound inner) {e : Expr Unit} (hc : c.Proper)
    (hif : c.current.value = .keyword .ifWord) (h : Reads (conditional inner) c e d) :
    ∃ ts, c.values = ts ++ d.after ∧ Derives .atom ts e := by
  obtain ⟨hparen, h⟩ := reads_expect_bind.1 h
  rw [reads_advance_bind] at h
  obtain ⟨test, c₁, htest, h⟩ := reads_bind_iff.1 h
  obtain ⟨hclose, h⟩ := reads_expect_bind.1 h
  obtain ⟨hbrace, h⟩ := reads_expect_bind.1 h
  obtain ⟨chosen, c₂, hchosen, h⟩ := reads_bind_iff.1 h
  obtain ⟨other, c₃, hother, h⟩ := reads_bind_iff.1 h
  obtain ⟨rfl, rfl⟩ := reads_pure_iff.1 h
  have hc₁ := htest.proper hc.next.next
  obtain ⟨ts, hts, hder, -⟩ := hi (by decide) hc.next.next htest
  obtain ⟨lines, hlines, rfl, hafter⟩ := block_sound hi hc₁.next.next hchosen
  obtain ⟨others, hothers, rfl, hafter'⟩ := otherwise_sound hi (hchosen.proper hc₁.next.next) hother
  refine ⟨_, ?_, .conditional lines others hder hlines.apart hlines.derives
    (fun l hl => (hothers l hl).apart) (fun l hl => (hothers l hl).derives)⟩
  rw [hc.values_eq (by rw [hif]; simp), hif, hc.after_eq_symbol hparen,
    ← Cursor.values_next, hts, hc₁.after_eq_symbol hclose, hc₁.next.after_eq_symbol hbrace, hafter,
    hafter']
  simp only [blockTokens, List.cons_append, List.append_assoc, List.nil_append]

/-- What is read from the word of a function literal on is one. -/
theorem function_sound (hi : Sound inner) {e : Expr Unit} (hc : c.Proper)
    (hfn : c.current.value = .keyword .fnWord) (h : Reads (function inner) c e d) :
    ∃ ts, c.values = ts ++ d.after ∧ Derives .atom ts e := by
  obtain ⟨hparen, h⟩ := reads_expect_bind.1 h
  obtain ⟨parameters, c₁, hparameters, h⟩ := reads_bind_iff.1 h
  obtain ⟨hbrace, h⟩ := reads_expect_bind.1 h
  obtain ⟨body, c₂, hbody, h⟩ := reads_bind_iff.1 h
  obtain ⟨rfl, rfl⟩ := reads_pure_iff.1 h
  have hc₁ := hparameters.proper hc.next
  obtain ⟨names, rfl, -, hnames⟩ := items_sound itemSound_currentName hc.next hparameters
  obtain ⟨lines, hlines, rfl, hafter⟩ := block_sound hi hc₁.next hbody
  rw [List.map_id]
  refine ⟨_, ?_, .function names lines hlines.apart hlines.derives⟩
  rw [hc.values_eq (by rw [hfn]; simp), hfn, hc.after_eq_symbol hparen, hnames,
    hc₁.after_eq_symbol hbrace, hafter]
  simp only [blockTokens, enclosed, List.cons_append, List.append_assoc, List.nil_append]

theorem reach_applied (c : Cursor) : c.pull.rank ≤ Stratum.applied.reach := by
  cases c.pull <;> decide

/-- What is read in front of any binary operator, call or index is an atom, or an operator before an
operand that the upcoming token does not bind more tightly. -/
theorem operand_sound (hi : Sound inner) {e : Expr Unit} (hc : c.Proper)
    (h : Reads (operand inner) c e d) :
    ∃ s ts, c.values = ts ++ d.after ∧ Derives s ts e ∧ Stratum.unary ≤ s ∧
      d.pull.rank ≤ s.reach := by
  have atom {ts : List Token} (hts : c.values = ts ++ d.after) (hder : Derives .atom ts e) :
      ∃ s ts, c.values = ts ++ d.after ∧ Derives s ts e ∧ Stratum.unary ≤ s ∧
        d.pull.rank ≤ s.reach :=
    ⟨.atom, ts, hts, hder, by decide, reach_applied d⟩
  have single {t : Token} (ht : c.current.value = t) (hne : t ≠ .finish) :
      c.values = [t] ++ c.after := by
    rw [hc.values_eq (by rwa [ht]), ht, List.singleton_append]
  have negated {t : Token} (ht : c.current.value = t) (hne : t ≠ .finish)
      (hmem : t ∈ unaryOperators) (h : Reads (unary inner t) c e d) :
      ∃ s ts, c.values = ts ++ d.after ∧ Derives s ts e ∧ Stratum.unary ≤ s ∧
        d.pull.rank ≤ s.reach := by
    unfold unary at h
    rw [reads_advance_bind] at h
    obtain ⟨r, c₁, hr, h⟩ := reads_bind_iff.1 h
    obtain ⟨rfl, rfl⟩ := reads_pure_iff.1 h
    obtain ⟨ts, hts, hder, hpull⟩ := hi (by decide) hc.next hr
    refine ⟨.unary, t :: ts, ?_, .unary hmem hder, by decide, hpull⟩
    rw [single ht hne, ← Cursor.values_next, hts]
    rfl
  unfold operand at h
  rw [reads_current_bind] at h
  split at h
  · next x hx =>
    obtain ⟨rfl, rfl⟩ := reads_pure_iff.1 h
    exact atom (single hx (by simp)) (.name x)
  · next digits hdigits =>
    unfold integer at h
    obtain ⟨hsmall, h⟩ | ⟨-, h⟩ := reads_ite_iff.1 h
    · obtain ⟨rfl, rfl⟩ := reads_pure_iff.1 h
      exact atom (single hdigits (by simp)) (.integer hsmall)
    · exact absurd (reads_current_bind.1 h) not_reads_throw
  · next x hx =>
    obtain ⟨rfl, rfl⟩ := reads_pure_iff.1 h
    exact atom (single hx (by simp)) (.string x)
  · next ht =>
    obtain ⟨rfl, rfl⟩ := reads_pure_iff.1 h
    exact atom (single ht (by simp)) .isTrue
  · next ht =>
    obtain ⟨rfl, rfl⟩ := reads_pure_iff.1 h
    exact atom (single ht (by simp)) .isFalse
  · next hif =>
    obtain ⟨ts, hts, hder⟩ := conditional_sound hi hc hif h
    exact atom hts hder
  · next hfn =>
    obtain ⟨ts, hts, hder⟩ := function_sound hi hc hfn h
    exact atom hts hder
  · next ht => exact negated ht (by simp) (by decide) h
  · next ht => exact negated ht (by simp) (by decide) h
  · next ht =>
    unfold grouped at h
    rw [reads_advance_bind] at h
    obtain ⟨r, c₁, hr, h⟩ := reads_bind_iff.1 h
    obtain ⟨hclose, h⟩ := reads_expect_bind.1 h
    obtain ⟨rfl, rfl⟩ := reads_pure_iff.1 h
    obtain ⟨ts, hts, hder, -⟩ := hi (by decide) hc.next hr
    refine atom ?_ (.grouped hder)
    rw [single ht (by simp), ← Cursor.values_next, hts, (hr.proper hc.next).after_eq_symbol hclose]
    simp only [List.cons_append, List.nil_append, List.append_assoc]
  · next ht =>
    obtain ⟨as, c₁, hitems, h⟩ := reads_bind_iff.1 h
    obtain ⟨rfl, rfl⟩ := reads_pure_iff.1 h
    obtain ⟨xs, rfl, hxs, hafter⟩ := items_sound hi.item hc hitems
    refine atom ?_ (.array xs hxs)
    rw [single ht (by simp), hafter]
    simp only [enclosed, List.cons_append, List.nil_append, List.append_assoc]
  · next ht =>
    obtain ⟨as, c₁, hitems, h⟩ := reads_bind_iff.1 h
    obtain ⟨rfl, rfl⟩ := reads_pure_iff.1 h
    obtain ⟨xs, rfl, hxs, hafter⟩ := items_sound hi.keyed hc hitems
    refine atom ?_ (.hash xs (fun x hx => (hxs x hx).1) (fun x hx => (hxs x hx).2))
    rw [single ht (by simp), hafter]
    simp only [enclosed, List.cons_append, List.nil_append, List.append_assoc]
  · exact absurd h not_reads_throw

/-- The stratum of an operator that can go on with an expression of a stratum is no tighter. -/
theorem stratum_le_of_reach {s t : Stratum} {op : Token} (hop : op ∈ t.operators)
    (h : t.reach ≤ s.reach) : t ≤ s := by
  cases t <;> first
    | exact absurd hop List.not_mem_nil
    | (cases s <;> first | decide | exact absurd h (by decide))

/-- What follows an operator is read at its degree, so it belongs to the next stratum. -/
theorem stratum_ofKind {t : Stratum} {op : Token} (hop : op ∈ t.operators) :
    (Precedence.ofKind op.kind).stratum = t.tighter ∧ Precedence.ofKind op.kind ≤ .unary ∧
      op ≠ .symbol .leftParen ∧ op ≠ .symbol .leftBracket := by
  cases t <;> simp only [Stratum.operators, List.mem_cons, List.not_mem_nil, or_false] at hop
  all_goals rcases hop with rfl | rfl <;> decide

/-- Expressions read up to a degree are of a stratum no tighter than that of an operator that binds
more tightly than the degree. -/
theorem stratum_le_of_lt {p : Precedence} {t : Stratum} {op : Token} (hop : op ∈ t.operators)
    (h : p.rank < t.reach) : p.stratum ≤ t := by
  cases t <;> first
    | exact absurd hop List.not_mem_nil
    | (cases p <;> first | decide | exact absurd h (by decide))

theorem stratum_le_unary (p : Precedence) : p.stratum ≤ .unary := by cases p <;> decide

/-- One round of the loop: the current token goes on with an expression of a stratum that it can go
on with, and the result is of a stratum that the upcoming token can go on with. -/
theorem continued_sound (hi : Sound inner) {s : Stratum} {ls : List Token} {left e : Expr Unit}
    (hleft : Derives s ls left) (hpos : 0 < (Precedence.ofKind c.current.value.kind).rank)
    (hreach : (Precedence.ofKind c.current.value.kind).rank ≤ s.reach) (hc : c.Proper)
    (h : Reads (continued inner left) c e d) :
    ∃ t ts, c.values = ts ++ d.after ∧ Derives t (ls ++ ts) e ∧ d.pull.rank ≤ t.reach ∧
      ∀ p : Precedence, p < .ofKind c.current.value.kind → p.stratum ≤ t := by
  have hvalues : c.values = c.current.value :: c.after := hc.values_eq fun hf => by
    rw [hf] at hpos
    exact absurd hpos (by decide)
  have happlied (h6 : 6 ≤ s.reach) : Derives .applied ls left :=
    hleft.tighter (by cases s <;> first | exact absurd h6 (by decide) | decide)
  unfold continued at h
  rw [reads_current_bind] at h
  rcases operator_of_pull hpos with ht | ht | ⟨t, ht, htr⟩
  · rw [ht] at h hreach
    obtain ⟨as, c₁, hitems, h⟩ := reads_bind_iff.1 h
    obtain ⟨rfl, rfl⟩ := reads_pure_iff.1 h
    obtain ⟨xs, rfl, hxs, hafter⟩ := items_sound hi.item hc hitems
    refine ⟨.applied, _, ?_, .call xs (happlied hreach) hxs, reach_applied _,
      fun p _ => Nat.le_trans (stratum_le_unary p) (by decide)⟩
    rw [hvalues, ht, hafter]
    simp only [enclosed, List.cons_append, List.nil_append, List.append_assoc]
  · rw [ht] at h hreach
    simp only at h
    rw [reads_advance_bind] at h
    obtain ⟨i, c₁, hindex, h⟩ := reads_bind_iff.1 h
    obtain ⟨hclose, h⟩ := reads_expect_bind.1 h
    obtain ⟨rfl, rfl⟩ := reads_pure_iff.1 h
    obtain ⟨ts, hts, hder, -⟩ := hi (by decide) hc.next hindex
    refine ⟨.applied, .symbol .leftBracket :: ts ++ [.symbol .rightBracket], ?_, ?_,
      reach_applied _, fun p _ => Nat.le_trans (stratum_le_unary p) (by decide)⟩
    · rw [hvalues, ht, ← Cursor.values_next, hts, (hindex.proper hc.next).after_eq_symbol hclose]
      simp only [List.cons_append, List.nil_append, List.append_assoc]
    · simpa only [List.append_assoc, List.cons_append] using
        Derives.index (happlied (Nat.le_of_succ_le hreach)) hder
  · obtain ⟨hstratum, hle, hparen, hbracket⟩ := stratum_ofKind ht
    split at h
    · next heq => exact absurd heq hparen
    · next heq => exact absurd heq hbracket
    · rw [reads_advance_bind] at h
      obtain ⟨r, c₁, hr, h⟩ := reads_bind_iff.1 h
      obtain ⟨rfl, rfl⟩ := reads_pure_iff.1 h
      obtain ⟨rs, hrs, hder, hpull⟩ := hi hle hc.next hr
      rw [hstratum] at hder
      refine ⟨t, c.current.value :: rs, ?_,
        .binary ht (hleft.tighter (stratum_le_of_reach ht (htr ▸ hreach))) hder, htr ▸ hpull,
        fun p hp => stratum_le_of_lt ht (htr ▸ hp)⟩
      rw [hvalues, ← Cursor.values_next, hrs]
      rfl

/-- The loop over operators: while the upcoming token can go on with what has been read so far, the
result is derived, and at the end the upcoming token does not bind it more tightly than the degree. -/
theorem extended_sound (hi : Sound inner) {p : Precedence} {n : Nat} {s : Stratum} {ls : List Token}
    {left e : Expr Unit} (hleft : Derives s ls left) (hs : p.stratum ≤ s)
    (hreach : c.pull.rank ≤ s.reach) (hn : c.pending.length ≤ n) (hc : c.Proper)
    (h : Reads (extended inner p n left) c e d) :
    ∃ ts, c.after = ts ++ d.after ∧ Derives p.stratum (ls ++ ts) e ∧ d.pull ≤ p := by
  induction n generalizing c s ls left with
  | zero =>
    have hend : c.upcoming.value = .finish := by
      rw [hc.upcoming_eq, Cursor.after, List.eq_nil_of_length_eq_zero (Nat.le_zero.1 hn)]
      rfl
    obtain ⟨rfl, rfl⟩ := reads_pure_iff.1 h
    refine ⟨[], rfl, by simpa only [List.append_nil] using hleft.tighter hs, ?_⟩
    rw [Cursor.pull, hend]
    exact Nat.zero_le _
  | succ n ih =>
    unfold extended at h
    rw [reads_upcoming_bind, reads_ite_iff] at h
    rcases h with ⟨hlt, h⟩ | ⟨hge, h⟩
    · rw [reads_advance_bind] at h
      obtain ⟨longer, c₁, hlonger, h⟩ := reads_bind_iff.1 h
      have hpos : 0 < (Precedence.ofKind c.next.current.value.kind).rank :=
        Nat.lt_of_le_of_lt (Nat.zero_le _) hlt
      have hreach : (Precedence.ofKind c.next.current.value.kind).rank ≤ s.reach := hreach
      obtain ⟨t, ts, hvalues, hder, hreach', hle⟩ :=
        continued_sound hi hleft hpos hreach hc.next hlonger
      -- The round takes the operator at least, so that one round fewer is enough for the rest.
      have hlen : c₁.pending.length ≤ n := by
        have hshort := hlonger.leadsTo.pending.length_le
        rw [Cursor.next, List.length_tail] at hshort
        omega
      obtain ⟨us, hus, hder', hpull⟩ :=
        ih hder (hle p hlt) hreach' hlen (hlonger.proper hc.next) h
      refine ⟨ts ++ us, ?_, ?_, hpull⟩
      · rw [← Cursor.values_next, hvalues, hus, List.append_assoc]
      · rwa [← List.append_assoc]
    · obtain ⟨rfl, rfl⟩ := reads_pure_iff.1 h
      exact ⟨[], rfl, by simpa only [List.append_nil] using hleft.tighter hs, Nat.le_of_not_lt hge⟩

omit [∀ p, Forward (inner p)] in
/-- An expression that is read without noting anything, up to any degree, is derived, and the upcoming
token does not go on with it. -/
theorem derives_of_reads {depth : Nat} {p : Precedence} {e : Expr Unit} (hc : c.Proper)
    (h : Reads (expression depth p) c e d) :
    ∃ ts, c.values = ts ++ d.after ∧ Derives p.stratum ts e ∧ d.pull ≤ p := by
  induction depth generalizing p c d e with
  | zero =>
    unfold expression at h
    exact absurd (reads_current_bind.1 h) not_reads_throw
  | succ depth ih =>
    have hi : Sound (expression depth) := fun _ hc h => ih hc h
    unfold expression at h
    obtain ⟨first, c₁, hfirst, h⟩ := reads_bind_iff.1 h
    rw [reads_remaining_bind] at h
    obtain ⟨s, ts, hts, hder, hs, hreach⟩ := operand_sound hi hc hfirst
    obtain ⟨us, hus, hder', hpull⟩ := extended_sound hi hder
      (Nat.le_trans (stratum_le_unary p) hs) hreach (Nat.le_refl _) (hfirst.proper hc) h
    refine ⟨ts ++ us, ?_, hder', hpull⟩
    rw [hts, hus, List.append_assoc]

omit [∀ p, Forward (inner p)] in
/-- Expressions of any depth that are read without noting anything are derived. -/
theorem expression_sound (depth : Nat) : Sound (expression depth) := fun _ hc h =>
  derives_of_reads hc h

omit [∀ p, Forward (inner p)] in
/-- The statements that are read up to the end of the stream, when nothing is noted on the way, are
lines of the grammar. -/
theorem programItems_sound {n : Nat} {tree : Tree} (hc : c.Proper) (hn : c.pending.length ≤ n)
    (h : Reads (liftM (programItems n)) c tree d) :
    ∃ lines, Lines lines ∧ lines.map Line.tree = tree ∧ c.values = lineTokens lines := by
  induction n generalizing c tree with
  | zero =>
    obtain ⟨rfl, rfl⟩ := reads_pure_iff.1 h
    refine ⟨[], .nil, rfl, ?_⟩
    rw [Cursor.values, List.eq_nil_of_length_eq_zero (Nat.le_zero.1 hn)]
    rfl
  | succ n ih =>
    rw [reads_congr (outcome_programItems_succ n c) rfl, reads_ite_iff] at h
    rcases h with ⟨hfinish, h⟩ | ⟨hfinish, h⟩
    · obtain ⟨rfl, rfl⟩ := reads_pure_iff.1 h
      exact ⟨[], .nil, rfl, hc.values_eq_nil hfinish⟩
    · obtain ⟨o, e, hfirst, h⟩ := reads_bind_iff.1 h
      obtain ⟨s, rfl, hs⟩ := reads_noting_iff.1 hfirst
      rw [reads_advance_bind] at h
      obtain ⟨others, f, ho, h⟩ := reads_bind_iff.1 h
      obtain ⟨rfl, rfl⟩ := reads_pure_iff.1 h
      have he := hs.proper hc
      obtain ⟨l, hl, rfl, hvalues, hpull⟩ := statement_sound (expression_sound _) hc hs
      have hlen : e.next.pending.length ≤ n := by
        have hshort := hs.leadsTo.pending.length_le
        rw [Cursor.next, List.length_tail]
        omega
      obtain ⟨lines, hlines, rfl, hafter⟩ := ih he.next hlen ho
      rw [Cursor.values_next] at hafter
      have hafter' : e.after = lineTokens lines ++ [] := by rw [hafter, List.append_nil]
      refine ⟨l :: lines, hlines.cons hl (apart_of_pull he hpull hafter'), rfl, ?_⟩
      rw [hvalues, hafter]
      rfl

end Grammar

end Monkey
