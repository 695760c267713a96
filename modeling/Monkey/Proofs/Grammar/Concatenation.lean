import Monkey.Proofs.Grammar.Program
import Monkey.Proofs.Reading.Tiling

/-!
# Texts one after another

A blank ends every lexeme but a text in quotes that is still open. So the tokens of two sources with
blanks between them are those of the first, and then those of the second further to the right. And
two programs one after another are a program, unless the last line of the first is not closed and
the second begins like a continuation of it.
-/

namespace Monkey

/-! ## Tokens -/

/-- The span that far to the right. -/
def Span.moved (distance : Nat) (s : Span) : Span := ⟨distance + s.start, distance + s.stop⟩

/-- What was read, that far to the right. -/
def Spanned.moved {α : Type} (distance : Nat) (t : Spanned α) : Spanned α :=
  ⟨t.value, t.span.moved distance⟩

/-- The last token of a source is a text in quotes that nothing closes. -/
def EndsOpen (source : String) : Prop :=
  ∃ t content, (TokenStream.ofSource source).tokens.getLast? = some t ∧ t.value = .string content ∧
    t.span.Delimits source ("\"" ++ content)

/-- A run of like characters that ends in a text, or just before what is put behind it, is no longer
with that behind it. -/
theorem span_append (like : Char → Bool) (cs ds : List Char)
    (h : cs.dropWhile like = [] → ∀ d ∈ ds.head?, like d = false) :
    (cs ++ ds).takeWhile like = cs.takeWhile like ∧
      (cs ++ ds).dropWhile like = cs.dropWhile like ++ ds := by
  induction cs with
  | nil =>
    cases ds with
    | nil => exact ⟨rfl, rfl⟩
    | cons d ds =>
      have hd : like d = false := h rfl d rfl
      simp only [List.nil_append, List.takeWhile_cons, List.dropWhile_cons, hd, Bool.false_eq_true,
        if_false, List.takeWhile_nil, List.dropWhile_nil, and_self]
  | cons c cs ih =>
    by_cases hc : like c = true
    · simp only [List.dropWhile_cons_of_pos hc] at h
      obtain ⟨htake, hdrop⟩ := ih h
      simp only [List.cons_append, List.takeWhile_cons_of_pos hc, List.dropWhile_cons_of_pos hc, htake,
        hdrop, and_self]
    · simp only [List.cons_append, List.takeWhile_cons_of_neg hc, List.dropWhile_cons_of_neg hc,
        and_self]

namespace Lexeme

/-- The same lexeme with more behind it. -/
def before (ds : List Char) (l : Lexeme) : Lexeme := ⟨l.token, l.text, l.rest ++ ds⟩

/-- No digit, no character of a name and no sign of an operator is a blank. -/
theorem plain_of_isBlank {d : Char} (h : isBlank d = true) :
    d ≠ '=' ∧ d.isDigit = false ∧ isNameChar d = false := by
  refine ⟨?_, ?_, ?_⟩
  · rintro rfl
    exact absurd h (by decide)
  · rw [Bool.eq_false_iff]
    intro hdigit
    rw [isBlank_of_isDigit hdigit] at h
    exact Bool.false_ne_true h
  · rw [Bool.eq_false_iff]
    intro hname
    rw [isBlank_of_isNameChar hname] at h
    exact Bool.false_ne_true h

theorem pair_append {cs ds : List Char} (h : ∀ d ∈ ds.head?, d ≠ '=') (double single : Symbol)
    (c : Char) : pair double single c (cs ++ ds) = (pair double single c cs).before ds := by
  cases cs with
  | nil => exact pair_of_head_ne h double single c
  | cons e cs =>
    by_cases he : e = '='
    · subst he
      rfl
    · have hhead (es : List Char) : ∀ d ∈ (e :: es).head?, d ≠ '=' := by
        rintro _ ⟨⟩
        exact he
      rw [List.cons_append, pair_of_head_ne (hhead _), pair_of_head_ne (hhead _)]
      rfl

theorem run_before {like : Char → Bool} {cs ds : List Char} (h : ∀ d ∈ ds.head?, like d = false)
    (make : String → Token) (c : Char) :
    run like make c (cs ++ ds) = (run like make c cs).before ds := by
  obtain ⟨htake, hdrop⟩ := span_append like cs ds fun _ => h
  simp only [run, before, htake, hdrop]

/-- A text in quotes that is closed stays what it is, whatever is put behind it. -/
theorem quoted_append {cs : List Char} (h : cs.dropWhile (· != '"') ≠ []) (ds : List Char) :
    quoted (cs ++ ds) = (quoted cs).before ds := by
  obtain ⟨htake, hdrop⟩ := span_append (· != '"') cs ds fun hnil => absurd hnil h
  have hpos := List.length_pos_iff.2 h
  simp only [quoted, before, htake, hdrop, List.take_append_of_le_length (i := 1) hpos,
    List.drop_append_of_le_length (i := 1) hpos]

/-- A lexeme ends before a blank that is put behind its text, unless it is a text in quotes that is
still open there. -/
theorem first_append {c : Char} {cs ds : List Char} (hblank : ∀ d ∈ ds.head?, isBlank d = true)
    (hclosed : ∀ content, (first c cs).token = .string content →
      (first c cs).text ≠ '"' :: content.toList) :
    first c (cs ++ ds) = (first c cs).before ds := by
  have hplain := fun d hd => plain_of_isBlank (hblank d hd)
  unfold first at hclosed ⊢
  split
  · exact pair_append (fun d hd => (hplain d hd).1) _ _ _
  split
  · exact pair_append (fun d hd => (hplain d hd).1) _ _ _
  split
  · next heq hbang hquote =>
    refine quoted_append (fun hnil => ?_) ds
    simp only [if_neg heq, if_neg hbang, if_pos hquote] at hclosed
    refine hclosed _ rfl ?_
    simp only [quoted, hnil, List.take_nil, List.append_nil, String.toList_ofList]
  split
  · exact run_before (fun d hd => (hplain d hd).2.1) _ _
  split
  · exact run_before (fun d hd => (hplain d hd).2.2) _ _
  · rfl

end Lexeme

/-- Blanks in front only move tokens. -/
theorem tokensFrom_gap (place : Nat) {gap : List Char} (hgap : ∀ c ∈ gap, isBlank c = true)
    (cs : List Char) : tokensFrom place (gap ++ cs) = tokensFrom (place + width gap) cs := by
  have hdrop : (gap ++ cs).dropWhile isBlank = cs.dropWhile isBlank :=
    List.dropWhile_append_of_pos hgap
  cases hd : cs.dropWhile isBlank with
  | nil => rw [tokensFrom_of_nil _ hd, tokensFrom_of_nil _ (hdrop.trans hd)]
  | cons c rest =>
    rw [tokensFrom_eq_cons _ hd, tokensFrom_eq_cons _ (hdrop.trans hd),
      List.takeWhile_append_of_pos hgap, width_append, ← Nat.add_assoc]

/-- A text that begins further to the right has its tokens further to the right. -/
theorem tokensFrom_add (distance place : Nat) (cs : List Char) :
    tokensFrom (distance + place) cs = (tokensFrom place cs).map (Spanned.moved distance) := by
  induction hn : cs.length using Nat.strongRecOn generalizing place cs with
  | ind n ih =>
    cases hd : cs.dropWhile isBlank with
    | nil => rw [tokensFrom_of_nil _ hd, tokensFrom_of_nil _ hd, List.map_nil]
    | cons c rest =>
      have hshort := length_dropWhile_le isBlank cs
      have hrest := Lexeme.length_rest_first c rest
      rw [hd, List.length_cons] at hshort
      rw [tokensFrom_eq_cons _ hd, tokensFrom_eq_cons _ hd, List.map_cons,
        ← ih _ (by omega) _ (Lexeme.first c rest).rest rfl]
      simp only [Spanned.moved, Span.moved, Nat.add_assoc]

/-- The tokens before and after a gap, when no text in quotes is still open before it. -/
theorem tokensFrom_append (place : Nat) {cs gap : List Char} (hgap : ∀ c ∈ gap, isBlank c = true)
    (hne : gap ≠ []) (ds : List Char)
    (hclosed : ∀ t ∈ tokensFrom place cs, ∀ content, t.value = .string content →
      t.span.stop ≠ t.span.start + width ('"' :: content.toList)) :
    tokensFrom place (cs ++ (gap ++ ds)) =
      tokensFrom place cs ++ tokensFrom (place + width (cs ++ gap)) ds := by
  induction hn : cs.length using Nat.strongRecOn generalizing place cs with
  | ind n ih =>
    cases hd : cs.dropWhile isBlank with
    | nil =>
      have hcs : ∀ c ∈ cs, isBlank c = true := fun c hc => by
        rw [← List.takeWhile_append_dropWhile (p := isBlank) (l := cs), hd, List.append_nil] at hc
        exact List.mem_takeWhile_imp hc
      rw [tokensFrom_of_nil _ hd, ← List.append_assoc, List.nil_append]
      exact tokensFrom_gap place (List.forall_mem_append.2 ⟨hcs, hgap⟩) ds
    | cons c rest =>
      have hshort := length_dropWhile_le isBlank cs
      have hrest := Lexeme.length_rest_first c rest
      rw [hd, List.length_cons] at hshort
      obtain ⟨htake, hdrop⟩ := span_append isBlank cs (gap ++ ds)
        fun hnil => by rw [hd] at hnil; cases hnil
      rw [hd, List.cons_append] at hdrop
      have htokens := tokensFrom_eq_cons place hd
      rw [htokens, List.forall_mem_cons] at hclosed
      obtain ⟨hfirst, hothers⟩ := hclosed
      have hblank : ∀ d ∈ (gap ++ ds).head?, isBlank d = true := fun d hd => by
        obtain ⟨g, gs, rfl⟩ := List.exists_cons_of_ne_nil hne
        cases hd
        exact hgap d List.mem_cons_self
      have happend : Lexeme.first c (rest ++ (gap ++ ds)) =
          (Lexeme.first c rest).before (gap ++ ds) := by
        refine Lexeme.first_append hblank fun content htoken htext => ?_
        exact hfirst content htoken (by rw [htext])
      have hwidth : width cs = width (cs.takeWhile isBlank) + (width (Lexeme.first c rest).text +
          width (Lexeme.first c rest).rest) := by
        rw [← width_append, ← width_append, ← eq_gap_append hd]
      rw [tokensFrom_eq_cons place hdrop, htokens, htake, happend]
      simp only [Lexeme.before, List.cons_append]
      rw [ih _ (by omega) _ hothers rfl, width_append, width_append, hwidth]
      simp only [Nat.add_assoc]

namespace TokenStream

/-- In a source that does not end within quotes, every text in quotes is closed. -/
theorem closed_of_not_endsOpen {source : String} (h : ¬ EndsOpen source) :
    ∀ t ∈ (ofSource source).tokens, ∀ content, t.value = .string content →
      t.span.stop ≠ t.span.start + width ('"' :: content.toList) := by
  intro t ht content hvalue hstop
  have hone : ('"').utf8Size = 1 := rfl
  rcases (tiles_ofSource source).spelled t ht with hspelled | ⟨other, hother, -, hopen, -, hlast⟩
  · obtain ⟨prior, later, -, hstart, hend⟩ := hspelled
    rw [hvalue] at hend
    simp only [Token.text, String.utf8ByteSize_append, ← width_toList content] at hend
    rw [width_cons, hone] at hstop
    have hquote : ("\"" : String).utf8ByteSize = 1 := rfl
    omega
  · rw [hvalue] at hother
    cases hother
    exact h ⟨t, content, hlast, hvalue, hopen⟩

/-- The tokens of two sources with blanks between them, provided that the first one does not end
within quotes: those of the second are moved by all that stands before it. -/
theorem ofSource_append {a b gap : String} (hne : gap ≠ "")
    (hgap : ∀ c ∈ gap.toList, isBlank c = true) (ha : ¬ EndsOpen a) :
    ofSource (a ++ gap ++ b) =
      ⟨(ofSource a).tokens ++ (ofSource b).tokens.map (Spanned.moved (a ++ gap).utf8ByteSize),
        (ofSource b).finish.moved (a ++ gap).utf8ByteSize⟩ := by
  have hne : gap.toList ≠ [] := fun h => hne (String.toList_eq_nil_iff.1 h)
  have htokens := tokensFrom_append 0 hgap hne b.toList (closed_of_not_endsOpen ha)
  have hmoved := tokensFrom_add (a ++ gap).utf8ByteSize 0 b.toList
  simp only [← width_toList, String.toList_append, width_append, Nat.zero_add, Nat.add_zero]
    at htokens hmoved
  simp only [ofSource, ofChars, String.toList_append, ← width_toList, Spanned.moved, Span.moved,
    List.append_assoc, htokens, hmoved, width_append, Nat.add_assoc]

end TokenStream

/-! ## Programs -/

namespace Grammar

/-- The tokens that can end an expression. -/
inductive Finishes : Token → Prop where
  | name (text : String) : Finishes (.name text)
  | integer (digits : String) : Finishes (.integer digits)
  | string (text : String) : Finishes (.string text)
  | keyword (k : Keyword) : Finishes (.keyword k)
  | symbol {s : Symbol} (h : s ∈ [.rightParen, .rightBracket, .rightBrace]) : Finishes (.symbol s)

/-- An expression has a last token, and it is one that can end an expression. -/
theorem Derives.exists_last {s : Stratum} {ts : List Token} {e : Expr Unit} (h : Derives s ts e) :
    ∃ us t, ts = us ++ [t] ∧ Finishes t := by
  induction h with
  | tighter _ _ ih => exact ih
  | @binary s ls rs l r op _ _ _ _ ih =>
    obtain ⟨us, t, rfl, ht⟩ := ih
    exact ⟨ls ++ op :: us, t, by simp, ht⟩
  | @unary ts e op _ _ ih =>
    obtain ⟨us, t, rfl, ht⟩ := ih
    exact ⟨op :: us, t, rfl, ht⟩
  | call => exact ⟨_, _, (List.append_assoc _ _ _).symm, .symbol (by decide)⟩
  | index => exact ⟨_, _, rfl, .symbol (by decide)⟩
  | name text => exact ⟨[], _, rfl, .name text⟩
  | integer _ => exact ⟨[], _, rfl, .integer _⟩
  | string text => exact ⟨[], _, rfl, .string text⟩
  | isTrue => exact ⟨[], _, rfl, .keyword _⟩
  | isFalse => exact ⟨[], _, rfl, .keyword _⟩
  | grouped => exact ⟨_, _, rfl, .symbol (by decide)⟩
  | @conditional ts e chosen other =>
    cases other with
    | none =>
      refine ⟨.keyword .ifWord :: .symbol .leftParen :: ts ++ .symbol .rightParen ::
        .symbol .leftBrace :: lineTokens chosen, .symbol .rightBrace, ?_, .symbol (by decide)⟩
      simp [blockTokens, otherwiseTokens]
    | some lines =>
      refine ⟨.keyword .ifWord :: .symbol .leftParen :: ts ++ .symbol .rightParen ::
        blockTokens chosen ++ .keyword .elseWord :: .symbol .leftBrace :: lineTokens lines,
        .symbol .rightBrace, ?_, .symbol (by decide)⟩
      simp [blockTokens, otherwiseTokens]
  | function parameters body =>
    refine ⟨.keyword .fnWord :: enclosed .leftParen (parameters.map fun x => [.name x]) .rightParen ++
      .symbol .leftBrace :: lineTokens body, .symbol .rightBrace, ?_, .symbol (by decide)⟩
    simp [blockTokens]
  | array => exact ⟨_, _, rfl, .symbol (by decide)⟩
  | hash => exact ⟨_, _, rfl, .symbol (by decide)⟩

/-- A line that ends in a semicolon is closed by it. -/
theorem Line.closed_of_getLast? {l : Line} (h : Derives .equality l.value.tokens l.value.tree)
    (hlast : l.tokens.getLast? = some (.symbol .semicolon)) : l.closed = true := by
  by_contra hopen
  obtain ⟨us, t, hts, ht⟩ := h.exists_last
  have hopen : l.closed = false := by simpa using hopen
  rw [tokens, hts, hopen, if_neg Bool.false_ne_true, List.append_nil, ← List.append_assoc,
    List.getLast?_concat] at hlast
  cases hlast
  cases ht
  contradiction

/-- A line has a first token. -/
theorem Line.tokens_ne_nil {l : Line} (h : Derives .equality l.value.tokens l.value.tree) :
    l.tokens ≠ [] := by
  intro hnil
  obtain ⟨t, us, hts, -⟩ := h.exists_head
  have hsublist := l.sublist_tokens
  rw [hnil, hts] at hsublist
  cases hsublist

/-- Lines can follow lines if the last of these does not run into the first of those. -/
theorem Lines.append {lines others : List Line} (h : Lines lines) (h' : Lines others)
    (hapart : ∀ l ∈ lines.getLast?, l.closed = false → ∀ m ∈ others.head?, ∀ t ∈ m.tokens.head?,
      t ∉ continuing) :
    Lines (lines ++ others) where
  apart := List.isChain_append.2
    ⟨h.apart, h'.apart, fun l hl m hm hopen => hapart l hl hopen m hm⟩
  derives := List.forall_mem_append.2 ⟨h.derives, h'.derives⟩

/-- The last token of some lines is that of the last line. -/
theorem getLast?_lineTokens {lines : List Line} {l : Line} (hl : l ∈ lines.getLast?)
    (hne : l.tokens ≠ []) : (lineTokens lines).getLast? = l.tokens.getLast? := by
  obtain ⟨others, rfl⟩ := List.getLast?_eq_some_iff.1 hl
  rw [lineTokens, List.flatMap_append, List.flatMap_singleton, List.getLast?_append_of_ne_nil _ hne]

/-- A program can follow a program if this one has no tokens or is closed, or if that one does not
begin like a continuation. -/
theorem Program.append {ts us : List Token} {tree other : Tree} (h : Program ts tree)
    (h' : Program us other)
    (hside : ts = [] ∨ ts.getLast? = some (.symbol .semicolon) ∨ ∀ t ∈ us.head?, t ∉ continuing) :
    Program (ts ++ us) (tree ++ other) := by
  obtain ⟨lines, hlines, rfl, rfl⟩ := h
  obtain ⟨others, hothers, rfl, rfl⟩ := h'
  refine ⟨lines ++ others, hlines.append hothers fun l hl hopen m hm t ht => ?_, ?_, ?_⟩
  · have hlast : l ∈ lines := List.mem_of_getLast? hl
    have hne := Line.tokens_ne_nil (hlines.derives l hlast)
    rcases hside with hnil | hclosed | hbegin
    · rw [lineTokens, List.flatMap_eq_nil_iff] at hnil
      exact absurd (hnil l hlast) hne
    · rw [getLast?_lineTokens hl hne] at hclosed
      rw [Line.closed_of_getLast? (hlines.derives l hlast) hclosed] at hopen
      cases hopen
    · refine hbegin t ?_
      obtain ⟨rest, rfl⟩ := List.head?_eq_some_iff.1 hm
      obtain ⟨vs, hvs⟩ := List.head?_eq_some_iff.1 ht
      rw [lineTokens, List.flatMap_cons, hvs]
      rfl
  · simp only [lineTokens, List.flatMap_append]
  · rw [List.map_append]

end Grammar

/-- Two sources with blanks between them, of which the first one does not end within quotes, are
read to the tokens of both. If both are programs, then so are they together, with the statements of
the first and then those of the second; only a continuation of a line that is not closed must not
stand between them. -/
theorem parse_append {a b gap : String} (hne : gap ≠ "")
    (hgap : ∀ c ∈ gap.toList, isBlank c = true) (ha : ¬ EndsOpen a) :
    TokenStream.ofSource (a ++ gap ++ b) =
        ⟨(TokenStream.ofSource a).tokens ++
            (TokenStream.ofSource b).tokens.map (Spanned.moved (a ++ gap).utf8ByteSize),
          (TokenStream.ofSource b).finish.moved (a ++ gap).utf8ByteSize⟩ ∧
      ∀ tree other, parse a = .ok tree → parse b = .ok other →
        ((TokenStream.ofSource a).values = [] ∨
          (TokenStream.ofSource a).values.getLast? = some (.symbol .semicolon) ∨
          ∀ t ∈ (TokenStream.ofSource b).values.head?, t ∉ Grammar.continuing) →
        parse (a ++ gap ++ b) = .ok (tree ++ other) := by
  have happend := TokenStream.ofSource_append (b := b) hne hgap ha
  refine ⟨happend, fun tree other htree hother hside => ?_⟩
  have hvalues : (TokenStream.ofSource (a ++ gap ++ b)).values =
      (TokenStream.ofSource a).values ++ (TokenStream.ofSource b).values := by
    rw [happend]
    simp only [TokenStream.values, List.map_append, List.map_map]
    rfl
  rw [Grammar.parse_eq_ok_iff, hvalues]
  exact (Grammar.parse_eq_ok_iff.1 htree).append (Grammar.parse_eq_ok_iff.1 hother) hside

/-- A number with a semicolon and, behind a blank, a negated number: the semicolon keeps the sign
from being taken for a difference. -/
theorem parse_closed_then_negated :
    let closed : Tree := [.expression (.integer 1)]
    let negated : Tree := [.expression (.unary (.symbol .minus) (.integer 1))]
    " " ≠ "" ∧ (∀ c ∈ " ".toList, isBlank c = true) ∧ ¬ EndsOpen "1;" ∧
      parse "1;" = .ok closed ∧ parse "-1" = .ok negated ∧
      (TokenStream.ofSource "1;").values.getLast? = some (.symbol .semicolon) ∧
      parse ("1;" ++ " " ++ "-1") = .ok (closed ++ negated) := by
  intro closed negated
  have hone (rest : List Char) (h : ∀ c ∈ rest.head?, c.isDigit = false) :
      lexed ('1' :: rest) = .integer "1" :: lexed rest :=
    @lexed_integer ['1'] (by simp) (List.forall_mem_singleton.2 (by decide)) rest h
  have hclosed : (TokenStream.ofSource "1;").values = [.integer "1", .symbol .semicolon] := by
    change lexed ['1', ';'] = _
    have hnext : ∀ c ∈ [';'].head?, c.isDigit = false := by
      rintro _ ⟨⟩
      decide
    rw [hone [';'] hnext, lexed_symbol (s := .semicolon) rfl, lexed_nil]
  have hnegated : (TokenStream.ofSource "-1").values = [.symbol .minus, .integer "1"] := by
    change lexed ['-', '1'] = _
    rw [lexed_symbol (s := .minus) rfl, hone [] (by simp), lexed_nil]
  have hgap : ∀ c ∈ " ".toList, isBlank c = true := by
    simp only [String.reduceToList, List.forall_mem_singleton]
    decide
  have hlast : (TokenStream.ofSource "1;").values.getLast? = some (.symbol .semicolon) := by
    rw [hclosed]
    rfl
  have hopen : ¬ EndsOpen "1;" := by
    rintro ⟨t, content, ht, hvalue, -⟩
    rw [TokenStream.values, List.getLast?_map, ht, Option.map_some, hvalue] at hlast
    cases hlast
  have hinteger : Grammar.Derives .atom [.integer "1"] (.integer 1) := .integer (by decide)
  have read : parse "1;" = .ok closed := Grammar.parse_eq_ok_iff.2
    ⟨[⟨.bare, ⟨[.integer "1"], .integer 1⟩, true⟩],
      ⟨.singleton _, List.forall_mem_singleton.2 hinteger.loosest⟩, hclosed, rfl⟩
  have read' : parse "-1" = .ok negated := Grammar.parse_eq_ok_iff.2
    ⟨[⟨.bare, ⟨[.symbol .minus, .integer "1"], .unary (.symbol .minus) (.integer 1)⟩, false⟩],
      ⟨.singleton _, List.forall_mem_singleton.2
        (Grammar.Derives.unary (by decide) (.tighter (by decide) hinteger)).loosest⟩, hnegated, rfl⟩
  exact ⟨by decide, hgap, hopen, read, read', hlast,
    (parse_append (by decide) hgap hopen).2 closed negated read read' (.inr (.inl hlast))⟩

end Monkey
