import Monkey.Proofs.Grammar.Concatenation
import Monkey.Proofs.Rendering.Literals

/-!
# Tokens with blanks between them

Tokens can be written one after another with blanks between them, and reading undoes that: whatever
blanks there are, the same tokens are read, each one where it was written. The tokens have to be such
that reading can give them; a name, for one, must not be spelled like a keyword.
-/

namespace Monkey

namespace Token

/-- Reading can give the token, and it is not the end of the source. -/
def Writable : Token → Prop
  | symbol _ => True
  | keyword _ => True
  | name text => IsName text
  | integer digits => digits.toList ≠ [] ∧ ∀ c ∈ digits.toList, c.isDigit = true
  | string text => '"' ∉ text.toList
  | illegal c => isBlank c = false ∧ c.isDigit = false ∧ isNameChar c = false ∧
      Symbol.ofChar? c = none ∧ c ≠ '=' ∧ c ≠ '!' ∧ c ≠ '"'
  | finish => False

/-- A token by itself is read back. -/
theorem Writable.lexed {t : Token} (h : t.Writable) : lexed t.text.toList = [t] := by
  cases t with
  | symbol s =>
    cases s with
    | assign => exact (@lexed_assign [] (by simp)).trans (by rw [lexed_nil])
    | bang => exact (@lexed_bang [] (by simp)).trans (by rw [lexed_nil])
    | equal => exact (lexed_equal []).trans (by rw [lexed_nil])
    | notEqual => exact (lexed_notEqual []).trans (by rw [lexed_nil])
    | _ => exact (lexed_symbol rfl []).trans (by rw [lexed_nil])
  | keyword k => exact (spelled_keyword k).eq_lexed
  | name text => exact (spelled_name h).eq_lexed
  | integer digits =>
    have hlexed := @lexed_integer _ h.1 h.2 [] (by simp)
    rwa [List.append_nil, lexed_nil, String.ofList_toList] at hlexed
  | string text => exact (spelled_string h).eq_lexed
  | illegal c =>
    obtain ⟨hblank, hdigit, hname, hsymbol, hequal, hbang, hquote⟩ := h
    have hfirst : Lexeme.first c [] = ⟨.illegal c, [c], []⟩ := by
      simp only [Lexeme.first, hequal, hbang, hquote, hdigit, hname, if_false, Bool.false_eq_true,
        ofChar, hsymbol]
    rw [text, String.toList_singleton, lexed_cons hblank, hfirst, lexed_nil]
  | finish => cases h

end Token

/-- A token that is read back by itself is read from all of its text. -/
theorem tokensFrom_text (place : Nat) {t : Token} (h : lexed t.text.toList = [t]) :
    tokensFrom place t.text.toList = [⟨t, ⟨place, place + t.text.utf8ByteSize⟩⟩] := by
  have hvalues := values_tokensFrom place t.text.toList
  cases hd : t.text.toList.dropWhile isBlank with
  | nil =>
    rw [h, tokensFrom_of_nil place hd] at hvalues
    cases hvalues
  | cons c rest =>
    have hgap : ∀ d ∈ t.text.toList.takeWhile isBlank, isBlank d = true :=
      fun d hd => List.mem_takeWhile_imp hd
    have happend := eq_gap_append hd
    rw [h, tokensFrom_eq_cons place hd, List.map_cons, List.cons.injEq, List.map_eq_nil_iff] at hvalues
    obtain ⟨htoken, hlast⟩ := hvalues
    simp only at htoken
    rcases (Lexeme.whole_first c rest).spelled with hspelled | ⟨content, hstring, -, hopen, hrest⟩
    · rw [htoken] at hspelled
      rw [hspelled] at happend
      have hlength := congrArg List.length happend
      simp only [List.length_append] at hlength
      have hnil : t.text.toList.takeWhile isBlank = [] := List.length_eq_zero_iff.1 (by omega)
      rw [tokensFrom_eq_cons place hd, hlast, htoken, hspelled, hnil, width_nil, Nat.add_zero,
        width_toList]
    · -- There is no room for a blank before the quotes, so the second one is read as well.
      have htext : t.text.toList = '"' :: content.toList ++ ['"'] := by
        rw [← htoken, hstring, Token.text]
        simp
      rw [hopen, hrest, List.append_nil] at happend
      generalize t.text.toList.takeWhile isBlank = gap at happend hgap
      rw [htext] at happend
      cases gap with
      | nil => simp at happend
      | cons d gap =>
        have hquote : isBlank d = true := hgap d List.mem_cons_self
        obtain rfl : '"' = d := (List.cons.inj happend).1
        cases hquote

/-- Tokens with what is written before the first one and behind each of them. -/
structure Layout where
  /-- What is written before the first token. -/
  front : String
  /-- The tokens, each with what is written behind it. -/
  items : List (Token × String)

namespace Layout

/-- The tokens in a row, each with what is written behind it. -/
def written : List (Token × String) → String
  | [] => ""
  | (t, gap) :: items => t.text ++ gap ++ written items

/-- The whole text. -/
def text (l : Layout) : String := l.front ++ written l.items

/-- The tokens without what is between them. -/
def tokens (l : Layout) : List Token := l.items.map Prod.fst

/-- What is written before a token. -/
def before (l : Layout) (k : Nat) : String := l.front ++ written (l.items.take k)

/-- There are only blanks around the tokens, and neighbours are kept apart by some. -/
structure Spaced (l : Layout) : Prop where
  /-- Only blanks stand before the first token, -/
  front : ∀ c ∈ l.front.toList, isBlank c = true
  /-- and behind each one. -/
  gaps : ∀ p ∈ l.items, ∀ c ∈ p.2.toList, isBlank c = true
  /-- Something stands behind each token but the last one. -/
  apart : ∀ p ∈ l.items.dropLast, p.2 ≠ ""

/-- The tokens in a row at the places where they are written. -/
def placed (place : Nat) : List (Token × String) → List (Spanned Token)
  | [] => []
  | (t, gap) :: items =>
    ⟨t, ⟨place, place + t.text.utf8ByteSize⟩⟩ ::
      placed (place + t.text.utf8ByteSize + gap.utf8ByteSize) items

/-- No text in quotes is left open by a token that is read from all of its text. -/
theorem closed_of_text (place : Nat) {t : Token} :
    ∀ u ∈ [(⟨t, ⟨place, place + t.text.utf8ByteSize⟩⟩ : Spanned Token)], ∀ content,
      u.value = .string content → u.span.stop ≠ u.span.start + width ('"' :: content.toList) := by
  rw [List.forall_mem_singleton]
  rintro content rfl
  have hone : ('"').utf8Size = 1 := rfl
  have hquote : ("\"" : String).utf8ByteSize = 1 := rfl
  simp only [Token.text, String.utf8ByteSize_append, width_cons, width_toList]
  omega

theorem tokensFrom_written (place : Nat) {items : List (Token × String)}
    (writable : ∀ p ∈ items, p.1.Writable) (gaps : ∀ p ∈ items, ∀ c ∈ p.2.toList, isBlank c = true)
    (apart : ∀ p ∈ items.dropLast, p.2 ≠ "") :
    tokensFrom place (written items).toList = placed place items := by
  induction items generalizing place with
  | nil => exact tokensFrom_of_nil place rfl
  | cons p items ih =>
    obtain ⟨t, gap⟩ := p
    rw [List.forall_mem_cons] at writable gaps
    have htext := tokensFrom_text place writable.1.lexed
    have hothers : ∀ p ∈ items.dropLast, p.2 ≠ "" := fun p hp => by
      cases items with
      | nil => cases hp
      | cons q items => exact apart p (List.mem_cons_of_mem _ hp)
    by_cases hgap : gap = ""
    · -- Without a blank behind it, the token is the last one.
      subst hgap
      cases items with
      | nil => simpa [written, placed] using htext
      | cons q items => exact absurd rfl (apart _ List.mem_cons_self)
    · have hne : gap.toList ≠ [] := fun h => hgap (String.toList_eq_nil_iff.1 h)
      have happend := tokensFrom_append place gaps.1 hne (written items).toList
        (htext ▸ closed_of_text place)
      rw [written, String.append_assoc, String.toList_append, String.toList_append, happend, htext,
        width_append, width_toList, width_toList, ← Nat.add_assoc, ih _ writable.2 gaps.2 hothers]
      rfl

/-- Each token has the place up to which the others have been written before. -/
theorem getElem?_placed (place : Nat) (items : List (Token × String)) (k : Nat) :
    (placed place items)[k]? = items[k]?.map fun p =>
      ⟨p.1, ⟨place + (written (items.take k)).utf8ByteSize,
        place + (written (items.take k)).utf8ByteSize + p.1.text.utf8ByteSize⟩⟩ := by
  induction items generalizing place k with
  | nil => rfl
  | cons p items ih =>
    obtain ⟨t, gap⟩ := p
    cases k with
    | zero => rfl
    | succ k =>
      rw [placed, List.getElem?_cons_succ, ih, List.getElem?_cons_succ, List.take_succ_cons, written,
        String.utf8ByteSize_append, String.utf8ByteSize_append]
      simp only [Nat.add_assoc]

theorem values_placed (place : Nat) (items : List (Token × String)) :
    (placed place items).map (·.value) = items.map Prod.fst := by
  induction items generalizing place with
  | nil => rfl
  | cons p items ih => exact congrArg (p.1 :: ·) (ih _)

/-- What is written stands around each token. -/
theorem written_eq_append {items : List (Token × String)} {k : Nat} {t : Token} {gap : String}
    (h : items[k]? = some (t, gap)) :
    written items = written (items.take k) ++ t.text ++ (gap ++ written (items.drop (k + 1))) := by
  induction items generalizing k with
  | nil => cases h
  | cons p items ih =>
    cases k with
    | zero =>
      cases h
      simp [written, String.append_assoc]
    | succ k =>
      obtain ⟨u, other⟩ := p
      rw [List.getElem?_cons_succ] at h
      rw [written, ih h, List.take_succ_cons, List.drop_succ_cons, written]
      simp only [String.append_assoc]

variable {l : Layout}

/-- The tokens of a text that is written in this way are those that were written. -/
theorem Spaced.ofSource_text (spaced : l.Spaced) (writable : ∀ t ∈ l.tokens, t.Writable) :
    (TokenStream.ofSource l.text).tokens = placed l.front.utf8ByteSize l.items := by
  have hitems : ∀ p ∈ l.items, p.1.Writable := fun p hp =>
    writable p.1 (List.mem_map_of_mem hp)
  have hwritten := tokensFrom_written l.front.utf8ByteSize hitems spaced.gaps spaced.apart
  change tokensFrom 0 l.text.toList = _
  rw [text, String.toList_append, tokensFrom_gap 0 spaced.front, Nat.zero_add, width_toList, hwritten]

/-- The token at a position is read where it was written. -/
theorem Spaced.getElem?_tokens (spaced : l.Spaced) (writable : ∀ t ∈ l.tokens, t.Writable) {k : Nat}
    {t : Token} (h : l.tokens[k]? = some t) :
    ∃ span, (TokenStream.ofSource l.text).tokens[k]? = some ⟨t, span⟩ ∧
      span.start = (l.before k).utf8ByteSize ∧ span.Delimits l.text t.text := by
  rw [tokens, List.getElem?_map, Option.map_eq_some_iff] at h
  obtain ⟨⟨u, gap⟩, hitem, rfl⟩ := h
  refine ⟨⟨(l.before k).utf8ByteSize, (l.before k).utf8ByteSize + u.text.utf8ByteSize⟩, ?_, rfl,
    l.before k, gap ++ written (l.items.drop (k + 1)), ?_, rfl, rfl⟩
  · rw [spaced.ofSource_text writable, getElem?_placed, hitem, before, String.utf8ByteSize_append]
    rfl
  · rw [text, before, written_eq_append hitem]
    simp only [String.append_assoc]

theorem Spaced.values (spaced : l.Spaced) (writable : ∀ t ∈ l.tokens, t.Writable) :
    (TokenStream.ofSource l.text).values = l.tokens := by
  rw [TokenStream.values, spaced.ofSource_text writable, values_placed, tokens]

end Layout

/-- Tokens that reading can give are read back when they are written with blanks between them, and then
the end is read again and again. Each token is read from where it was written, and it does not matter
how many blanks there are and which. -/
theorem lexing_undoes_printing {l : Layout} (writable : ∀ t ∈ l.tokens, t.Writable)
    (spaced : l.Spaced) :
    (∀ more, ((TokenStream.ofSource l.text).readings more).map (·.value) =
        l.tokens ++ List.replicate (more + 1) .finish) ∧
      (∀ more k t, l.tokens[k]? = some t →
        ∃ span, ((TokenStream.ofSource l.text).readings more)[k]? = some ⟨t, span⟩ ∧
          span.start = (l.before k).utf8ByteSize ∧ span.Delimits l.text t.text) ∧
      ∀ other : Layout, other.Spaced → other.tokens = l.tokens → ∀ more,
        ((TokenStream.ofSource other.text).readings more).map (·.value) =
          ((TokenStream.ofSource l.text).readings more).map (·.value) := by
  have hvalues : ∀ other : Layout, other.Spaced → other.tokens = l.tokens → ∀ more,
      ((TokenStream.ofSource other.text).readings more).map (·.value) =
        l.tokens ++ List.replicate (more + 1) .finish := fun other hspaced htokens more => by
    have hother := hspaced.values (htokens ▸ writable)
    rw [TokenStream.values, htokens] at hother
    rw [TokenStream.readings, List.map_append, hother, List.map_replicate]
    rfl
  refine ⟨hvalues l spaced rfl, fun more k t ht => ?_, fun other hspaced htokens more => ?_⟩
  · obtain ⟨span, htoken, hplace⟩ := spaced.getElem?_tokens writable ht
    have hlt : k < (TokenStream.ofSource l.text).tokens.length :=
      (List.getElem?_eq_some_iff.1 htoken).1
    refine ⟨span, ?_, hplace⟩
    rw [TokenStream.readings, List.getElem?_append_left hlt, htoken]
  · rw [hvalues other hspaced htokens more, hvalues l spaced rfl more]

/-- A name with a letter of two bytes, a text with blanks and operators in it, and a character that
belongs to nothing, with several sorts of blanks between them. -/
def Layout.mixed : Layout :=
  ⟨" ", [(.keyword .letWord, "\t"), (.name "é", "\u2003"), (.symbol .assign, " "),
    (.string "a == b", "\n\n"), (.symbol .equal, " "), (.illegal '@', "")]⟩

/-- All of them are read back. -/
theorem mixed_tokens_read_back :
    (∀ t ∈ Layout.mixed.tokens, t.Writable) ∧ Layout.mixed.Spaced ∧
      Layout.mixed.text = " let\té\u2003= \"a == b\"\n\n== @" ∧
      ((TokenStream.ofSource " let\té\u2003= \"a == b\"\n\n== @").readings 0).map (·.value) =
        [.keyword .letWord, .name "é", .symbol .assign, .string "a == b", .symbol .equal, .illegal '@',
          .finish] := by
  have hname : IsName "é" := by
    refine ⟨by simp, ?_, fun k => by cases k <;> simp [Keyword.text]⟩
    simp only [String.reduceToList, List.forall_mem_singleton]
    decide
  have hillegal : (Token.illegal '@').Writable := by
    refine ⟨?_, ?_, ?_, ?_, ?_, ?_, ?_⟩ <;> decide
  have writable : ∀ t ∈ Layout.mixed.tokens, t.Writable := by
    simp only [Layout.tokens, Layout.mixed, List.map_cons, List.map_nil, List.forall_mem_cons]
    exact ⟨trivial, hname, trivial, by simp [Token.Writable], trivial, hillegal,
      List.forall_mem_nil _⟩
  have spaced : Layout.mixed.Spaced := by
    refine ⟨?_, ?_, ?_⟩ <;> simp [Layout.mixed] <;> decide
  have htext : Layout.mixed.text = " let\té\u2003= \"a == b\"\n\n== @" := by decide
  refine ⟨writable, spaced, htext, ?_⟩
  rw [← htext]
  exact (lexing_undoes_printing writable spaced).1 0

end Monkey
