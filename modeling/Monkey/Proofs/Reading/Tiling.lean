import Mathlib.Data.List.TakeWhile
import Monkey.Proofs.Rendering.Lexing

/-!
# Tokens tile the source

Tokens are read one after another: blanks are passed, and then the longest lexeme is taken that begins
with the next character. So the spans of the tokens, with blanks between them, are the whole source; what
stands at a span is how its token is written; and no token could have been longer. The end is read when
nothing is left, and from then on again and again.
-/

namespace Monkey

/-! ## Places -/

/-- The place after a run of characters is the length in bytes of the text that they make. -/
theorem utf8ByteSize_ofList (cs : List Char) : (String.ofList cs).utf8ByteSize = width cs := by
  induction cs with
  | nil => rfl
  | cons c cs ih => rw [String.ofList_cons, String.utf8ByteSize_append, ih, width_cons,
      String.utf8ByteSize_singleton]

theorem width_toList (source : String) : width source.toList = source.utf8ByteSize := by
  rw [← utf8ByteSize_ofList, String.ofList_toList]

/-- Only nothing takes no place. -/
theorem width_pos {cs : List Char} (h : cs ≠ []) : 0 < width cs := by
  cases cs with
  | nil => exact absurd rfl h
  | cons c cs =>
    have hc := c.utf8Size_pos
    rw [width_cons]
    omega

/-- A text is divided in one way only at a place. -/
theorem eq_of_width_eq {xs ys us vs : List Char} (h : xs ++ ys = us ++ vs)
    (hwidth : width xs = width us) : xs = us ∧ ys = vs := by
  have hnil : ∀ cs, width cs = 0 → cs = [] := fun cs hcs => by
    by_cases hne : cs = []
    · exact hne
    · have hpos := width_pos hne
      omega
  rcases List.append_eq_append_iff.1 h with ⟨cs, rfl, rfl⟩ | ⟨cs, rfl, rfl⟩
  · rw [width_append] at hwidth
    obtain rfl := hnil cs (by omega)
    exact ⟨(List.append_nil xs).symm, rfl⟩
  · rw [width_append] at hwidth
    obtain rfl := hnil cs (by omega)
    exact ⟨List.append_nil us, rfl⟩

/-- The text is what stands in the source at the span; both ends of the span are between characters. -/
def Span.Delimits (span : Span) (source text : String) : Prop :=
  ∃ before after, source = before ++ text ++ after ∧ span.start = before.utf8ByteSize ∧
    span.stop = before.utf8ByteSize + text.utf8ByteSize

theorem delimits_of_toList {source : String} {before text after : List Char}
    (h : source.toList = before ++ text ++ after) :
    Span.Delimits ⟨width before, width (before ++ text)⟩ source (String.ofList text) := by
  refine ⟨String.ofList before, String.ofList after, ?_, ?_, ?_⟩
  · rw [← String.ofList_append, ← String.ofList_append, ← h, String.ofList_toList]
  · exact (utf8ByteSize_ofList before).symm
  · rw [utf8ByteSize_ofList, utf8ByteSize_ofList]
    exact width_append before text

/-- The ends of a span that delimits a text are places between characters. -/
theorem Span.Delimits.isValid {span : Span} {source text : String} (h : span.Delimits source text) :
    String.Pos.Raw.IsValid source ⟨span.start⟩ ∧ String.Pos.Raw.IsValid source ⟨span.stop⟩ := by
  obtain ⟨before, after, rfl, hstart, hstop⟩ := h
  constructor
  · refine String.Pos.Raw.isValid_iff_exists_append.2 ⟨before, text ++ after, ?_, ?_⟩
    · rw [String.append_assoc]
    · rw [hstart]
      rfl
  · refine String.Pos.Raw.isValid_iff_exists_append.2 ⟨before ++ text, after, rfl, ?_⟩
    rw [hstop, ← String.utf8ByteSize_append]
    rfl

/-! ## Lexemes -/

/-- Whether a token would be longer if the character followed it. -/
def Token.takes : Token → Char → Bool
  | integer _, c => c.isDigit
  | name _, c => isNameChar c
  | keyword _, c => isNameChar c
  | symbol .assign, c => c == '='
  | symbol .bang, c => c == '='
  | _, _ => false

namespace Lexeme

/-- A lexeme has some characters, it is written as its token is, unless it is a text that nothing
closes, and it is as long as it can be. -/
structure Whole (l : Lexeme) : Prop where
  /-- There are characters. -/
  nonempty : l.text ≠ []
  /-- They spell the token, but the closing quote may be missing at the end of the source. -/
  spelled : l.text = l.token.text.toList ∨
    ∃ content, l.token = .string content ∧ '"' ∉ content.toList ∧ l.text = '"' :: content.toList ∧
      l.rest = []
  /-- The next character does not belong to the token. -/
  longest : ∀ c ∈ l.rest.head?, l.token.takes c = false
  /-- A name is no keyword. -/
  free : ∀ text, l.token = .name text → ∀ k : Keyword, k.text ≠ text
  /-- It is not the end. -/
  proper : l.token ≠ .finish

/-- What follows the longest run of like characters begins with another one. -/
theorem not_like_of_mem_head? {like : Char → Bool} {cs : List Char} :
    ∀ c ∈ (cs.dropWhile like).head?, like c = false := by
  intro c hc
  have hnot := List.head?_dropWhile_not like cs
  rw [Option.mem_def.1 hc] at hnot
  exact hnot

theorem whole_pair {double single : Symbol} {c : Char} (hdouble : double.text.toList = [c, '='])
    (hsingle : single.text.toList = [c]) (hend : ∀ d, (Token.symbol double).takes d = false)
    (htakes : ∀ d, (Token.symbol single).takes d = true → d = '=') (rest : List Char) :
    (pair double single c rest).Whole := by
  unfold pair
  split
  · exact ⟨by simp, .inl hdouble.symm, fun d _ => hend d, by simp, by simp⟩
  · next hrest =>
    refine ⟨by simp, .inl hsingle.symm, fun d hd => ?_, by simp, by simp⟩
    rw [Bool.eq_false_iff]
    intro htake
    obtain rfl := htakes d htake
    cases rest with
    | nil => cases hd
    | cons e es =>
      cases hd
      exact hrest es rfl

theorem whole_quoted (rest : List Char) : (quoted rest).Whole := by
  have hcontent : '"' ∉ rest.takeWhile (· != '"') := fun hmem =>
    absurd (List.mem_takeWhile_imp hmem) (by decide)
  refine ⟨by simp [quoted], ?_, by simp [quoted, Token.takes], by simp [quoted], by simp [quoted]⟩
  cases hafter : rest.dropWhile (· != '"') with
  | nil =>
    refine .inr ⟨String.ofList (rest.takeWhile (· != '"')), rfl, ?_, ?_, ?_⟩
    · rwa [String.toList_ofList]
    · simp [quoted, hafter]
    · simp [quoted, hafter]
  | cons c after =>
    have hquote := @not_like_of_mem_head? (· != '"') rest c (by rw [hafter]; rfl)
    obtain rfl : c = '"' := by simpa using hquote
    left
    simp [quoted, hafter, Token.text]

theorem whole_integer (c : Char) (rest : List Char) : (run Char.isDigit .integer c rest).Whole where
  nonempty := by simp [run]
  spelled := .inl (by simp [run, Token.text])
  longest := not_like_of_mem_head?
  free := by simp [run]
  proper := by simp [run]

theorem whole_word (c : Char) (rest : List Char) : (run isNameChar .ofWord c rest).Whole where
  nonempty := by simp [run]
  spelled := .inl (by simp [run])
  longest d hd := by
    have hlike := not_like_of_mem_head? d hd
    simp only [run, Token.ofWord]
    split <;> exact hlike
  free text htext k hk := by
    simp only [run, Token.ofWord] at htext
    split at htext
    · cases htext
    · next hnone =>
      cases htext
      rw [Keyword.ofText?_eq_some_iff.2 hk] at hnone
      cases hnone
  proper := by
    simp only [run, Token.ofWord]
    split <;> exact Token.noConfusion

theorem whole_char (c : Char) (rest : List Char) : Whole ⟨.ofChar c, [c], rest⟩ where
  nonempty := List.cons_ne_nil c []
  spelled := .inl (by simp)
  longest d _ := by
    simp only [Token.ofChar]
    split
    · next s hs =>
      unfold Symbol.ofChar? at hs
      split at hs <;> cases hs <;> rfl
    · rfl
  free text htext := by
    simp only [Token.ofChar] at htext
    split at htext <;> cases htext
  proper := by
    simp only [Token.ofChar]
    split <;> exact Token.noConfusion

/-- The lexeme that is read at the front of a text is whole. -/
theorem whole_first (c : Char) (rest : List Char) : (first c rest).Whole := by
  unfold first
  split
  · next hc =>
    subst hc
    exact whole_pair (by decide) (by decide) (fun _ => rfl) (fun _ => beq_iff_eq.1) rest
  split
  · next hc =>
    subst hc
    exact whole_pair (by decide) (by decide) (fun _ => rfl) (fun _ => beq_iff_eq.1) rest
  split
  · exact whole_quoted rest
  split
  · exact whole_integer c rest
  split
  · exact whole_word c rest
  · exact whole_char c rest

end Lexeme

/-! ## Tilings -/

/-- After the characters that have been read, those that are left are blanks and the lexemes of some
tokens, each at its span. -/
inductive Tiling : List Char → List Char → List (Spanned Token) → Prop where
  /-- Only blanks are left. -/
  | done (before : List Char) {cs : List Char} (blank : ∀ c ∈ cs, isBlank c = true) :
      Tiling before cs []
  /-- After some blanks there is a lexeme. -/
  | next {before gap : List Char} {l : Lexeme} {ts : List (Spanned Token)}
      (blank : ∀ c ∈ gap, isBlank c = true) (whole : l.Whole)
      (rest : Tiling (before ++ gap ++ l.text) l.rest ts) :
      Tiling before (gap ++ (l.text ++ l.rest))
        (⟨l.token, ⟨width (before ++ gap), width (before ++ gap ++ l.text)⟩⟩ :: ts)

theorem tokensFrom_eq_cons (place : Nat) {cs rest : List Char} {c : Char}
    (h : cs.dropWhile isBlank = c :: rest) :
    tokensFrom place cs =
      ⟨(Lexeme.first c rest).token, ⟨place + width (cs.takeWhile isBlank),
        place + width (cs.takeWhile isBlank) + width (Lexeme.first c rest).text⟩⟩ ::
      tokensFrom (place + width (cs.takeWhile isBlank) + width (Lexeme.first c rest).text)
        (Lexeme.first c rest).rest := by
  rw [tokensFrom]
  split
  · next hc => cases h.symm.trans hc
  · next hc =>
    cases h.symm.trans hc
    rfl

/-- A text is its blanks in front, the first lexeme and what follows it. -/
theorem eq_gap_append {cs rest : List Char} {c : Char} (h : cs.dropWhile isBlank = c :: rest) :
    cs = cs.takeWhile isBlank ++ ((Lexeme.first c rest).text ++ (Lexeme.first c rest).rest) := by
  rw [Lexeme.text_append_rest_first, ← h, List.takeWhile_append_dropWhile]

/-- The tokens that are read tile what they are read from. -/
theorem tiling_tokensFrom (before cs : List Char) :
    Tiling before cs (tokensFrom (width before) cs) := by
  induction hn : cs.length using Nat.strongRecOn generalizing before cs with
  | ind n ih =>
    cases hd : cs.dropWhile isBlank with
    | nil =>
      rw [tokensFrom_of_nil _ hd]
      refine .done before fun c hc => ?_
      rw [← List.takeWhile_append_dropWhile (p := isBlank) (l := cs), hd, List.append_nil] at hc
      exact List.mem_takeWhile_imp hc
    | cons c rest =>
      have hshort := length_dropWhile_le isBlank cs
      have hrest := Lexeme.length_rest_first c rest
      rw [hd, List.length_cons] at hshort
      have hnext := ih _ (by omega) (before ++ cs.takeWhile isBlank ++ (Lexeme.first c rest).text)
        (Lexeme.first c rest).rest rfl
      have htiling := Tiling.next (fun d hd => List.mem_takeWhile_imp hd)
        (Lexeme.whole_first c rest) hnext
      rw [← eq_gap_append hd] at htiling
      rw [tokensFrom_eq_cons _ hd]
      simpa only [width_append] using htiling

/-- A token is that of a whole lexeme of a text, after some characters of it. -/
structure Placed (cs : List Char) (t : Spanned Token) (prior : List Char) (l : Lexeme) : Prop where
  /-- The lexeme is whole. -/
  whole : l.Whole
  /-- It stands in the text, where its rest follows it. -/
  source : cs = prior ++ l.text ++ l.rest
  /-- The token has its span. -/
  token : t = ⟨l.token, ⟨width prior, width (prior ++ l.text)⟩⟩

namespace Tiling

variable {before cs : List Char} {ts : List (Spanned Token)}

/-- Every token has its place. -/
theorem exists_placed (h : Tiling before cs ts) {t : Spanned Token} (ht : t ∈ ts) :
    ∃ prior l, Placed (before ++ cs) t prior l := by
  induction h with
  | done => cases ht
  | @next before gap l ts _ whole _ ih =>
    rcases List.mem_cons.1 ht with rfl | ht
    · refine ⟨before ++ gap, l, whole, ?_, rfl⟩
      simp only [List.append_assoc]
    · obtain ⟨prior, m, hm⟩ := ih ht
      have hsource := hm.source
      refine ⟨prior, m, hm.whole, ?_, hm.token⟩
      simp only [List.append_assoc] at hsource ⊢
      exact hsource

/-- No token begins before the place that has been come to, and each one begins where the one before it
has ended, or after that. -/
theorem ordered (h : Tiling before cs ts) :
    (∀ t ∈ ts, width before ≤ t.span.start) ∧
      ts.Pairwise fun t u => t.span.stop ≤ u.span.start := by
  induction h with
  | done => exact ⟨List.forall_mem_nil _, .nil⟩
  | @next before gap l ts _ _ _ ih =>
    obtain ⟨hstart, hpairwise⟩ := ih
    refine ⟨List.forall_mem_cons.2 ⟨?_, fun t ht => ?_⟩, .cons hstart hpairwise⟩
    · rw [width_append]
      exact Nat.le_add_right _ _
    · have hle := hstart t ht
      rw [List.append_assoc, width_append] at hle
      omega

/-- Between neighbouring tokens, before the first one and after the last one there are only blanks. -/
theorem blanks (h : Tiling before cs ts) :
    ∀ p ∈ (width before :: ts.map (·.span.stop)).zip
        (ts.map (·.span.start) ++ [width (before ++ cs)]),
      ∃ prior gap after, before ++ cs = prior ++ gap ++ after ∧
        p = (width prior, width (prior ++ gap)) ∧ ∀ c ∈ gap, isBlank c = true := by
  induction h with
  | @done before cs blank =>
    refine List.forall_mem_singleton.2 ⟨before, cs, [], ?_, rfl, blank⟩
    rw [List.append_nil]
  | @next before gap l ts blank _ _ ih =>
    have hsource : before ++ gap ++ l.text ++ l.rest = before ++ (gap ++ (l.text ++ l.rest)) := by
      simp only [List.append_assoc]
    rw [hsource] at ih
    refine List.forall_mem_cons.2 ⟨⟨before, gap, l.text ++ l.rest, ?_, rfl, blank⟩, ih⟩
    rw [List.append_assoc]

end Tiling

namespace Placed

variable {source : String} {t : Spanned Token} {prior : List Char} {l : Lexeme}
  (h : Placed source.toList t prior l)

include h

theorem nonempty : t.span.start < t.span.stop := by
  have hpos := width_pos h.whole.nonempty
  rw [h.token, width_append]
  exact Nat.lt_add_of_pos_right hpos

theorem within : t.span.stop ≤ source.utf8ByteSize := by
  rw [h.token, ← width_toList, h.source, width_append (prior ++ l.text)]
  exact Nat.le_add_right _ _

/-- The characters of the lexeme stand at the span. -/
theorem delimits : t.span.Delimits source (String.ofList l.text) := by
  rw [h.token]
  exact delimits_of_toList h.source

/-- They spell the token, or all of the source has been read in search of a closing quote. -/
theorem spelled : t.span.Delimits source t.value.text ∨
    ∃ content, t.value = .string content ∧ '"' ∉ content.toList ∧
      t.span.Delimits source ("\"" ++ content) ∧ t.span.stop = source.utf8ByteSize := by
  have hdelimits := h.delimits
  rcases h.whole.spelled with htext | ⟨content, htoken, hquote, htext, hrest⟩
  · left
    rwa [htext, String.ofList_toList, show l.token = t.value by rw [h.token]] at hdelimits
  · right
    refine ⟨content, ?_, hquote, ?_, ?_⟩
    · rw [h.token, htoken]
    · rwa [htext, String.ofList_cons, String.ofList_toList] at hdelimits
    · rw [h.token, ← width_toList, h.source, hrest, List.append_nil]

/-- The next character of the source is the first one after the lexeme. -/
theorem longest {before after : String} {c : Char}
    (hsource : source = before ++ String.singleton c ++ after)
    (hstop : before.utf8ByteSize = t.span.stop) : t.value.takes c = false := by
  have hlist : prior ++ l.text ++ l.rest = before.toList ++ c :: after.toList := by
    rw [← h.source, hsource]
    simp
  have hwidth : width (prior ++ l.text) = width before.toList := by
    rw [width_toList, hstop, h.token]
  obtain ⟨-, hrest⟩ := eq_of_width_eq hlist hwidth
  rw [h.token]
  exact h.whole.longest c (by rw [hrest]; rfl)

end Placed

namespace TokenStream

/-- A stream has the tokens of a source: their spans tile it, and each token is read from what stands at
its span. -/
structure Tiles (s : TokenStream) (source : String) : Prop where
  /-- The end is not among the tokens, -/
  proper : ∀ t ∈ s.tokens, t.value ≠ .finish
  /-- but at the end of the source. -/
  finish : s.finish = ⟨.finish, ⟨source.utf8ByteSize, source.utf8ByteSize⟩⟩
  /-- No token is read from nothing. -/
  nonempty : ∀ t ∈ s.tokens, t.span.start < t.span.stop
  /-- All of them are read from the source, -/
  within : ∀ t ∈ s.tokens, t.span.stop ≤ source.utf8ByteSize
  /-- from whole characters of it, -/
  boundaries : ∀ t ∈ s.tokens, String.Pos.Raw.IsValid source ⟨t.span.start⟩ ∧
    String.Pos.Raw.IsValid source ⟨t.span.stop⟩
  /-- and one after another. -/
  ordered : s.tokens.Pairwise fun t u => t.span.stop ≤ u.span.start
  /-- Only blanks stand before, between and after them. -/
  blanks : ∀ p ∈ (0 :: s.tokens.map (·.span.stop)).zip
      (s.tokens.map (·.span.start) ++ [source.utf8ByteSize]),
    ∃ gap, Span.Delimits ⟨p.1, p.2⟩ source gap ∧ ∀ c ∈ gap.toList, isBlank c = true
  /-- What stands at a span is how its token is written; only a text at the very end can do without the
  closing quote. -/
  spelled : ∀ t ∈ s.tokens, t.span.Delimits source t.value.text ∨
    ∃ content, t.value = .string content ∧ '"' ∉ content.toList ∧
      t.span.Delimits source ("\"" ++ content) ∧ t.span.stop = source.utf8ByteSize ∧
      s.tokens.getLast? = some t
  /-- No character follows a token that would have made it longer. -/
  longest : ∀ t ∈ s.tokens, ∀ before c after, source = before ++ String.singleton c ++ after →
    before.utf8ByteSize = t.span.stop → t.value.takes c = false
  /-- No name is spelled like a keyword. -/
  free : ∀ t ∈ s.tokens, ∀ text, t.value = .name text → ∀ k : Keyword, k.text ≠ text

/-- A token that ends where the source does is the last one. -/
theorem getLast?_of_stop_eq {ts : List (Spanned Token)} {t : Spanned Token} {stop : Nat} (ht : t ∈ ts)
    (hnonempty : ∀ u ∈ ts, u.span.start < u.span.stop) (hwithin : ∀ u ∈ ts, u.span.stop ≤ stop)
    (hordered : ts.Pairwise fun t u => t.span.stop ≤ u.span.start) (hstop : t.span.stop = stop) :
    ts.getLast? = some t := by
  obtain ⟨earlier, later, rfl⟩ := List.append_of_mem ht
  cases later with
  | nil => exact List.getLast?_concat
  | cons u later =>
    have hu : u ∈ earlier ++ t :: u :: later := by simp
    have hle : t.span.stop ≤ u.span.start := by
      have hlater := (List.pairwise_append.1 hordered).2.1
      exact (List.pairwise_cons.1 hlater).1 u List.mem_cons_self
    have hlt := hnonempty u hu
    have hend := hwithin u hu
    omega

/-- The tokens of a source tile it. -/
theorem tiles_ofSource (source : String) : (ofSource source).Tiles source := by
  have htiling : Tiling [] source.toList (ofSource source).tokens := tiling_tokensFrom [] source.toList
  have hplaced : ∀ t ∈ (ofSource source).tokens, ∃ prior l, Placed source.toList t prior l :=
    fun t ht => htiling.exists_placed ht
  have hnonempty : ∀ t ∈ (ofSource source).tokens, t.span.start < t.span.stop := fun t ht => by
    obtain ⟨prior, l, h⟩ := hplaced t ht
    exact h.nonempty
  have hwithin : ∀ t ∈ (ofSource source).tokens, t.span.stop ≤ source.utf8ByteSize :=
    fun t ht => by
      obtain ⟨prior, l, h⟩ := hplaced t ht
      exact h.within
  have hordered := htiling.ordered.2
  refine ⟨fun t ht => ?_, ?_, hnonempty, hwithin, fun t ht => ?_, hordered, fun p hp => ?_,
    fun t ht => ?_, fun t ht => ?_, fun t ht => ?_⟩
  · obtain ⟨prior, l, h⟩ := hplaced t ht
    exact h.token ▸ h.whole.proper
  · rw [← width_toList]
    rfl
  · obtain ⟨prior, l, h⟩ := hplaced t ht
    exact h.delimits.isValid
  · rw [← width_toList] at hp
    obtain ⟨prior, gap, after, hsource, rfl, hgap⟩ := htiling.blanks p hp
    refine ⟨String.ofList gap, delimits_of_toList hsource, ?_⟩
    rwa [String.toList_ofList]
  · obtain ⟨prior, l, h⟩ := hplaced t ht
    rcases h.spelled with hspelled | ⟨content, htoken, hquote, hdelimits, hstop⟩
    · exact .inl hspelled
    · have hlast := getLast?_of_stop_eq ht hnonempty hwithin hordered hstop
      exact .inr ⟨content, htoken, hquote, hdelimits, hstop, hlast⟩
  · obtain ⟨prior, l, h⟩ := hplaced t ht
    exact fun _ _ _ => h.longest
  · obtain ⟨prior, l, h⟩ := hplaced t ht
    exact h.token ▸ h.whole.free

end TokenStream

/-! ## One token at a time -/

/-- What a reader of single tokens keeps: the place that it has come to, and what is left there. -/
structure Scanner where
  /-- The number of bytes that have been read. -/
  place : Nat
  /-- The characters after them. -/
  rest : List Char

namespace Scanner

/-- At the front of a source. -/
def start (source : String) : Scanner := ⟨0, source.toList⟩

/-- The next token, after any blanks, and what is kept then. -/
def next (s : Scanner) : Spanned Token × Scanner :=
  let start := s.place + width (s.rest.takeWhile isBlank)
  match s.rest.dropWhile isBlank with
  | [] => (⟨.finish, ⟨start, start⟩⟩, ⟨start, []⟩)
  | c :: rest =>
    let lexeme := Lexeme.first c rest
    let stop := start + width lexeme.text
    (⟨lexeme.token, ⟨start, stop⟩⟩, ⟨stop, lexeme.rest⟩)

/-- What is kept after the given number of tokens. -/
def after (s : Scanner) : Nat → Scanner
  | 0 => s
  | k + 1 => s.next.2.after k

/-- The token that is read after the given number of tokens. -/
def reading (s : Scanner) (k : Nat) : Spanned Token := (s.after k).next.1

theorem next_of_nil (place : Nat) {cs : List Char} (h : cs.dropWhile isBlank = []) :
    (Scanner.mk place cs).next =
      (⟨.finish, ⟨place + width cs, place + width cs⟩⟩, ⟨place + width cs, []⟩) := by
  have hblank : cs.takeWhile isBlank = cs := by
    have happend := List.takeWhile_append_dropWhile (p := isBlank) (l := cs)
    rwa [h, List.append_nil] at happend
  simp only [next, h, hblank]

theorem next_of_cons (place : Nat) {cs rest : List Char} {c : Char}
    (h : cs.dropWhile isBlank = c :: rest) :
    (Scanner.mk place cs).next =
      (⟨(Lexeme.first c rest).token, ⟨place + width (cs.takeWhile isBlank),
          place + width (cs.takeWhile isBlank) + width (Lexeme.first c rest).text⟩⟩,
        ⟨place + width (cs.takeWhile isBlank) + width (Lexeme.first c rest).text,
          (Lexeme.first c rest).rest⟩) := by
  simp only [next, h]

/-- One after another, the tokens are read that are read all at once, and then the end again and
again. -/
theorem reading_eq (place : Nat) (cs : List Char) (k : Nat) :
    (Scanner.mk place cs).reading k =
      (tokensFrom place cs)[k]?.getD ⟨.finish, ⟨place + width cs, place + width cs⟩⟩ := by
  induction k generalizing place cs with
  | zero =>
    rw [reading, after]
    cases hd : cs.dropWhile isBlank with
    | nil =>
      rw [next_of_nil place hd, tokensFrom_of_nil place hd]
      rfl
    | cons c rest =>
      rw [next_of_cons place hd, tokensFrom_eq_cons place hd]
      rfl
  | succ k ih =>
    rw [reading, after]
    cases hd : cs.dropWhile isBlank with
    | nil =>
      -- Nothing is left, so the end is read where it was read before.
      have hend := ih (place + width cs) []
      rw [tokensFrom_of_nil _ rfl] at hend
      rw [next_of_nil place hd, tokensFrom_of_nil place hd]
      exact hend
    | cons c rest =>
      have hwidth : width cs = width (cs.takeWhile isBlank) + (width (Lexeme.first c rest).text +
          width (Lexeme.first c rest).rest) := by
        rw [← width_append, ← width_append, ← eq_gap_append hd]
      rw [next_of_cons place hd, tokensFrom_eq_cons place hd, List.getElem?_cons_succ, hwidth,
        ← Nat.add_assoc, ← Nat.add_assoc]
      exact ih _ _

end Scanner

/-- Reading one token after another gives finitely many tokens and then the end for ever. The tokens
tile the source: each one stands where its span says, as it is written and as long as it can be, and
there are only blanks besides. -/
theorem readings_tile_source (source : String) :
    (∀ k, (Scanner.start source).reading k =
      (TokenStream.ofSource source).tokens[k]?.getD (TokenStream.ofSource source).finish) ∧
    (TokenStream.ofSource source).Tiles source := by
  refine ⟨fun k => ?_, TokenStream.tiles_ofSource source⟩
  have hreading := Scanner.reading_eq 0 source.toList k
  rw [Nat.zero_add] at hreading
  exact hreading

end Monkey
