import Mathlib.Data.List.Forall2
import Monkey.Proofs.Diagnosis.Trail
import Monkey.Proofs.Reading.Tiling

/-!
# How many diagnostics there are

The diagnostics of a refused source blame its tokens from the front to the back. Each says of its
token what is so; there are no more of them than tokens, and no token but the end is blamed three
times, since it is upcoming once and current once.
-/

namespace Monkey

namespace TokenStream

/-- No token of a source is read twice before the end is. -/
theorem Tiles.nodup {s : TokenStream} {source : String} (h : s.Tiles source) :
    (s.readings 0).Nodup := by
  have htokens : s.tokens.Nodup := by
    refine List.Pairwise.imp_of_mem (fun {t u} ht _ hle heq => ?_) h.ordered
    have hlt := h.nonempty t ht
    rw [← heq] at hle
    omega
  refine List.nodup_append.2 ⟨htokens, List.pairwise_singleton _ _, fun t ht u hu heq => ?_⟩
  obtain rfl := List.mem_singleton.1 hu
  refine h.proper t ht ?_
  rw [heq, h.finish]

/-- The tokens stand one after another, and the end behind them. -/
theorem Tiles.ascending {s : TokenStream} {source : String} (h : s.Tiles source) :
    (s.readings 0).Pairwise fun t u => t.span.start ≤ u.span.start := by
  have hle : ∀ t ∈ s.tokens, t.span.start ≤ t.span.stop := fun t ht =>
    Nat.le_of_lt (h.nonempty t ht)
  refine List.pairwise_append.2 ⟨?_, List.pairwise_singleton _ _, fun t ht u hu => ?_⟩
  · exact List.Pairwise.imp_of_mem (fun ht _ hstop => (hle _ ht).trans hstop) h.ordered
  · obtain rfl := List.mem_singleton.1 hu
    rw [h.finish]
    exact (hle t ht).trans (h.within t ht)

end TokenStream

namespace Cursor

variable {c d : Cursor}

/-- The tokens from the current one on, with the end. -/
def line (c : Cursor) : List (Spanned Token) := c.pending ++ [c.finish]

/-- The place of a later cursor among the tokens of an earlier one. -/
def placeOf (c d : Cursor) : Nat := c.pending.length - d.pending.length

/-- The current token of a later cursor stands at its place. -/
theorem getElem?_placeOf (hpending : d.pending <:+ c.pending) (hfinish : d.finish = c.finish) :
    c.line[c.placeOf d]? = some d.current := by
  obtain ⟨passed, hpassed⟩ := hpending
  have hplace : c.placeOf d = passed.length := by
    rw [placeOf, ← hpassed, List.length_append, Nat.add_sub_cancel]
  rw [hplace, line, ← hpassed, ← hfinish, List.append_assoc,
    List.getElem?_append_right (Nat.le_refl _), Nat.sub_self, current]
  cases d.pending <;> rfl

/-- The places of the tokens that are blamed by what has been noted, the latest first. -/
structure Places (c d : Cursor) (places : List Nat) : Prop where
  /-- The tokens that are blamed stand there. -/
  tokens : List.Forall₂ (fun k e => c.line[k]? = some e.got) places d.noted
  /-- The places come one after another. -/
  descending : places.Pairwise (· ≥ ·)
  /-- The cursor has come to the last of them. -/
  passed : ∀ k ∈ places, k ≤ c.placeOf d
  /-- No token before the end is blamed three times, -/
  twice : ∀ k < c.pending.length, places.count k ≤ 2
  /-- and none twice that has not been passed. -/
  once : ∀ k < c.pending.length, c.placeOf d ≤ k → places.count k ≤ 1

/-- On a trail, tokens are blamed one after another. -/
theorem Trail.exists_places (h : c.Trail d) (hnoted : c.noted = []) :
    ∃ places, c.Places d places := by
  induction h with
  | still _ _ noted =>
    refine ⟨[], ?_, .nil, by simp, by simp, by simp⟩
    rw [noted, hnoted]
    exact .nil
  | @found x d e trail here pending finish noted ih =>
    obtain ⟨places, tokens, descending, passed, twice, once⟩ := ih
    have hlead := trail.leadsTo
    have hx := hlead.pending.length_le
    have hd := pending.length_le
    obtain ⟨j, hj, hplace⟩ : ∃ j, c.line[j]? = some e.got ∧
        (j = c.placeOf x ∨ j = c.placeOf x.next) := by
      rcases here.near with hgot | hgot
      · exact ⟨_, hgot ▸ getElem?_placeOf hlead.pending hlead.finish, .inl rfl⟩
      · refine ⟨_, ?_, .inr rfl⟩
        rw [hgot]
        exact getElem?_placeOf ((List.tail_suffix _).trans hlead.pending) hlead.finish
    have hnext : x.next.pending.length = x.pending.length - 1 := List.length_tail
    rw [List.length_tail] at hd
    simp only [placeOf, hnext] at hplace passed once
    -- The earlier places are no further than `x`, and `d` is further than that.
    have habsent : ∀ k, c.pending.length - x.pending.length < k → places.count k = 0 :=
      fun k hk => List.count_eq_zero.2 fun hmem => absurd (passed k hmem) (Nat.not_le.2 hk)
    refine ⟨j :: places, noted ▸ .cons hj tokens, List.pairwise_cons.2 ⟨fun k hk => ?_, descending⟩,
      List.forall_mem_cons.2 ⟨?_, fun k hk => ?_⟩, fun k hk => ?_, fun k hk hpassed => ?_⟩
    · have := passed k hk
      omega
    · rw [placeOf]
      omega
    · have := passed k hk
      rw [placeOf]
      omega
    · rw [List.count_cons]
      have htwice := twice k hk
      have honce := once k hk
      have hzero := habsent k
      split
      · next heq =>
        rw [beq_iff_eq] at heq
        omega
      · omega
    · rw [placeOf] at hpassed
      rw [List.count_cons]
      have hzero := habsent k
      have honce := once k hk
      split
      · next heq =>
        rw [beq_iff_eq] at heq
        omega
      · omega

theorem Trail.genuine (h : c.Trail d) (hnoted : c.noted = []) : ∀ e ∈ d.noted, e.Genuine := by
  induction h with
  | still _ _ noted =>
    rw [noted, hnoted]
    simp
  | found _ here _ _ noted ih =>
    rw [noted]
    exact List.forall_mem_cons.2 ⟨here.genuine, ih⟩

end Cursor

/-- How often a token is blamed is how often its place occurs among the places of blamed tokens. -/
theorem countP_eq_count {row : List (Spanned Token)} (hnodup : row.Nodup) {places : List Nat}
    {es : List Diagnostic} (h : List.Forall₂ (fun k e => row[k]? = some e.got) places es) {k : Nat}
    {t : Spanned Token} (hk : row[k]? = some t) :
    es.countP (fun e => e.got = t) = places.count k := by
  induction h with
  | nil => rfl
  | @cons j e places es hj _ ih =>
    have hsame : e.got = t ↔ j = k := by
      constructor
      · intro heq
        have hlt : j < row.length := (List.getElem?_eq_some_iff.1 hj).1
        exact (List.getElem?_inj hlt hnodup).1 (by rw [hj, hk, heq])
      · rintro rfl
        exact Option.some.inj (hj.symm.trans hk)
    simp only [List.countP_cons, List.count_cons, ih, decide_eq_true_eq, hsame, beq_iff_eq]

/-- Tokens that are blamed in the order of their places are blamed from the front to the back. -/
theorem pairwise_start {row : List (Spanned Token)}
    (hrow : row.Pairwise fun t u => t.span.start ≤ u.span.start) {places : List Nat}
    {es : List Diagnostic} (h : List.Forall₂ (fun k e => row[k]? = some e.got) places es)
    (hplaces : places.Pairwise (· ≤ ·)) :
    es.Pairwise fun d e => d.got.span.start ≤ e.got.span.start := by
  obtain ⟨hlength, hstand⟩ := List.forall₂_iff_get.1 h
  refine List.pairwise_iff_getElem.2 fun i j hi hj hij => ?_
  have hd := hstand i (hlength ▸ hi) hi
  have he := hstand j (hlength ▸ hj) hj
  simp only [List.get_eq_getElem] at hd he
  obtain ⟨hk, hd⟩ := List.getElem?_eq_some_iff.1 hd
  obtain ⟨hl, he⟩ := List.getElem?_eq_some_iff.1 he
  have hle := List.pairwise_iff_getElem.1 hplaces i j (hlength ▸ hi) (hlength ▸ hj) hij
  rw [← hd, ← he]
  rcases Nat.lt_or_eq_of_le hle with hlt | heq
  · exact List.pairwise_iff_getElem.1 hrow _ _ hk hl hlt
  · simp only [heq, Nat.le_refl]

/-- The diagnostics of a refused source blame tokens of it, or its end, each with the span that it
has there, and from the front to the back. Each says what is so. There are at most as many of them
as there are tokens, and at most two blame the same token before the end. -/
theorem diagnostics_genuine_and_ordered {source : String} {ds : List Diagnostic}
    (h : parse source = .error ds) :
    (∃ places : List Nat, List.Forall₂
        (fun k e => ((TokenStream.ofSource source).readings 0)[k]? = some e.got) places ds ∧
      places.Pairwise (· ≤ ·)) ∧
    (ds.Pairwise fun d e => d.got.span.start ≤ e.got.span.start) ∧
    (∀ e ∈ ds, e.Genuine) ∧
    ds.length ≤ (TokenStream.ofSource source).tokens.length ∧
    ∀ t ∈ (TokenStream.ofSource source).tokens, ds.countP (fun e => e.got = t) ≤ 2 := by
  obtain ⟨-, hnoted⟩ := Reader.noted_of_parse_eq_error h
  obtain ⟨trail, hfunds, -⟩ : Reader.Orderly _ _ _ :=
    Reader.orderly_programItems (TokenStream.proper_start source)
  have htiles := TokenStream.tiles_ofSource source
  obtain ⟨places, tokens, descending, -, twice, -⟩ := trail.exists_places rfl
  have hgenuine := trail.genuine rfl
  rw [hnoted] at tokens hgenuine
  have hplaces := List.rel_reverse tokens
  rw [List.reverse_reverse] at hplaces
  have hascending : places.reverse.Pairwise (· ≤ ·) := List.pairwise_reverse.2 descending
  refine ⟨⟨places.reverse, hplaces, hascending⟩, pairwise_start htiles.ascending hplaces hascending,
    fun e he => hgenuine e (List.mem_reverse.2 he), ?_, fun t ht => ?_⟩
  · have hstart : (Cursor.start (TokenStream.ofSource source)).funds =
        (TokenStream.ofSource source).tokens.length := Nat.zero_add _
    have hlength := congrArg List.length hnoted
    rw [List.length_reverse] at hlength
    rw [hstart, Cursor.funds] at hfunds
    omega
  · obtain ⟨k, hk, hget⟩ := List.getElem_of_mem ht
    have hline : ((TokenStream.ofSource source).readings 0)[k]? = some t := by
      rw [TokenStream.readings, List.getElem?_append_left hk, List.getElem?_eq_getElem hk, hget]
    rw [countP_eq_count htiles.nodup hplaces hline, List.count_reverse]
    exact twice k hk

/-- A closing parenthesis begins no expression, and neither does the end behind an opening one: two
tokens and two diagnostics. -/
theorem diagnostics_of_stray_parens :
    let ds : List Diagnostic :=
      [.noOperand ⟨.symbol .rightParen, ⟨0, 1⟩⟩, .noOperand ⟨.finish, ⟨2, 2⟩⟩]
    parse ")(" = .error ds ∧
      (∃ places : List Nat, List.Forall₂
          (fun k e => ((TokenStream.ofSource ")(").readings 0)[k]? = some e.got) places ds ∧
        places.Pairwise (· ≤ ·)) ∧
      (∀ e ∈ ds, e.Genuine) ∧ ds.length ≤ (TokenStream.ofSource ")(").tokens.length := by
  intro ds
  have hclose : [')', '('].dropWhile isBlank = ')' :: ['('] := by decide
  have hopen : ['('].dropWhile isBlank = '(' :: [] := by decide
  have htokens : tokensFrom 0 [')', '('] =
      [⟨.symbol .rightParen, ⟨0, 1⟩⟩, ⟨.symbol .leftParen, ⟨1, 2⟩⟩] := by
    rw [tokensFrom_eq_cons 0 hclose]
    change _ :: tokensFrom 1 ['('] = _
    rw [tokensFrom_eq_cons 1 hopen]
    change _ :: _ :: tokensFrom 2 [] = _
    rw [tokensFrom_of_nil 2 rfl]
    rfl
  have hstream : TokenStream.ofSource ")(" = ⟨_, ⟨.finish, ⟨2, 2⟩⟩⟩ :=
    congrArg (TokenStream.mk · _) htokens
  have refused : parse ")(" = .error ds := by
    rw [parse, hstream]
    rfl
  obtain ⟨hplaces, -, hgenuine, hlength, -⟩ := diagnostics_genuine_and_ordered refused
  exact ⟨refused, hplaces, hgenuine, hlength⟩

end Monkey
