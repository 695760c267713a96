import Monkey.Proofs.Diagnosis.Cascade
import Monkey.Proofs.Diagnosis.Locality
import Monkey.Proofs.Diagnosis.Viable
import Monkey.Proofs.Rendering.RoundTrip

/-!
# The first diagnostic comes as early as it can

The token that the first diagnostic of a refused source blames is the first one with which no
accepted source goes on. With the tokens before it an accepted source begins: what has been read up
to there is the beginning of a program, and any tokens of sources are the tokens of a source. With
the blamed token as well none begins, because that token has been blamed without a look at those
behind it.
-/

namespace Monkey

/-! ## Texts for tokens -/

/-- Written with a blank behind it, the token is read back, whatever follows. -/
def Token.Readable (t : Token) : Prop :=
  ∀ rest, lexed (t.text.toList ++ ' ' :: rest) = t :: lexed rest

/-- What is read as one token in front of anything fresh is readable. -/
theorem readable_of_spelled {t : Token} (h : Spelled t.text [t]) : t.Readable := by
  intro rest
  rw [h _ (.cons (by decide) rest), lexed_space]
  rfl

theorem readable_symbol (s : Symbol) : (Token.symbol s).Readable := by
  intro rest
  rw [← lexed_space rest]
  cases s with
  | assign => exact lexed_assign (by simp)
  | bang => exact lexed_bang (by simp)
  | equal => exact lexed_equal _
  | notEqual => exact lexed_notEqual _
  | _ => exact lexed_symbol rfl _

/-- Every lexeme is readable as a token by itself. -/
theorem readable_first {c : Char} (hblank : isBlank c = false) (rest : List Char) :
    (Lexeme.first c rest).token.Readable := by
  unfold Lexeme.first
  split
  · unfold Lexeme.pair
    split <;> exact readable_symbol _
  split
  · unfold Lexeme.pair
    split <;> exact readable_symbol _
  split
  · refine readable_of_spelled (spelled_string ?_)
    rw [String.toList_ofList]
    exact fun hmem => absurd (List.mem_takeWhile_imp hmem) (by decide)
  split
  · next hdigit =>
    have hdigits : ∀ d ∈ c :: rest.takeWhile Char.isDigit, d.isDigit = true :=
      List.forall_mem_cons.2 ⟨hdigit, fun d hd => List.mem_takeWhile_imp hd⟩
    refine readable_of_spelled fun after hafter => ?_
    have h := lexed_integer (by simp) hdigits fun d hd => (hafter d hd).2
    simpa only [Lexeme.run, Token.text, String.toList_ofList, List.singleton_append] using h
  split
  · next hname =>
    have hchars : ∀ d ∈ c :: rest.takeWhile isNameChar, isNameChar d = true :=
      List.forall_mem_cons.2 ⟨hname, fun d hd => List.mem_takeWhile_imp hd⟩
    refine readable_of_spelled ?_
    simp only [Lexeme.run, Token.text_ofWord]
    exact spelled_ofWord (by simp) (by rwa [String.toList_ofList])
  · next hequal hbang hquote hdigit hname =>
    intro after
    have hfirst : Lexeme.first c (' ' :: after) = ⟨.ofChar c, [c], ' ' :: after⟩ := by
      simp only [Lexeme.first, hequal, hbang, hquote, hdigit, hname, if_false, Bool.false_eq_true]
    have hlexed : lexed (c :: ' ' :: after) = .ofChar c :: lexed (' ' :: after) := by
      rw [lexed_cons hblank, hfirst]
    simpa [lexed_space] using hlexed

/-- Every token of a text is readable by itself. -/
theorem readable_of_mem (place : Nat) (cs : List Char) :
    ∀ t ∈ (tokensFrom place cs).map (·.value), t.Readable := by
  fun_induction tokensFrom place cs with
  | case1 => simp
  | case2 place cs c rest hfound lexeme start stop ih =>
    have hblank : isBlank c = false := by
      have hnot := List.head?_dropWhile_not isBlank cs
      rw [hfound] at hnot
      exact hnot
    rw [List.map_cons, List.forall_mem_cons]
    exact ⟨readable_first hblank rest, ih⟩

theorem readable_of_mem_fillers {t : Token} (h : t ∈ fillers) : t.Readable := by
  have hname : IsName "x" := isName_of_small (by decide) (by simp) fun k => by cases k <;> decide
  simp only [fillers, List.mem_cons, List.not_mem_nil, or_false] at h
  rcases h with rfl | rfl | rfl | rfl | rfl | rfl | rfl | rfl
  · exact readable_of_spelled (spelled_name hname)
  all_goals exact readable_symbol _

/-- Any readable tokens are the tokens of a text. -/
theorem exists_values_ofSource {ts : List Token} (h : ∀ t ∈ ts, t.Readable) :
    ∃ source, (TokenStream.ofSource source).values = ts := by
  have hlexed : lexed (ts.flatMap fun t => t.text.toList ++ [' ']) = ts := by
    induction ts with
    | nil => exact lexed_nil
    | cons t ts ih =>
      rw [List.forall_mem_cons] at h
      rw [List.flatMap_cons, List.append_assoc, List.singleton_append, h.1, ih h.2]
  refine ⟨String.ofList (ts.flatMap fun t => t.text.toList ++ [' ']), ?_⟩
  rw [TokenStream.values, TokenStream.ofSource, String.toList_ofList]
  exact hlexed

/-! ## The first diagnostic -/

namespace Cursor

/-- A cursor sees the tokens from the current one on up to the end. -/
theorem getElem?_line (c : Cursor) {i : Nat} (h : i ≤ c.pending.length) :
    c.line[i]? = some (c.peek i) := by
  let d : Cursor := { c with pending := c.pending.drop i }
  have hplace : c.placeOf d = i := by
    rw [placeOf, List.length_drop]
    omega
  have hsuffix : d.pending <:+ c.pending := List.drop_suffix i c.pending
  have hget := getElem?_placeOf hsuffix rfl
  rwa [hplace] at hget

/-- Behind the last token it sees the end. -/
theorem peek_of_length_le (c : Cursor) {i : Nat} (h : c.pending.length ≤ i) :
    c.peek i = c.finish := by
  rw [peek, List.drop_eq_nil_of_le h]
  rfl

end Cursor

namespace TokenStream

/-- The tokens of a stream and then its end, without their places. -/
def marks (s : TokenStream) : List Token := (s.readings 0).map (·.value)

theorem marks_ofSource (source : String) :
    (ofSource source).marks = (ofSource source).values ++ [.finish] := List.map_append

theorem length_marks (s : TokenStream) : s.marks.length = s.tokens.length + 1 := by
  simp [marks, readings]

/-- The marks are what a cursor at the beginning sees. -/
theorem getElem?_marks {s : TokenStream} {i : Nat} (h : i ≤ s.tokens.length) :
    s.marks[i]? = some ((Cursor.start s).peek i).value := by
  have hline := (Cursor.start s).getElem?_line h
  rw [marks, List.getElem?_map, ← Option.map_some, ← hline]
  rfl

/-- A source with all marks of another one at its front has no other tokens. -/
theorem values_eq_of_take_marks {source other : String}
    (h : (ofSource other).marks.take ((ofSource source).tokens.length + 1) =
      (ofSource source).marks) :
    (ofSource other).values = (ofSource source).values := by
  have hlength : (ofSource source).values.length = (ofSource source).tokens.length :=
    List.length_map _
  rw [marks_ofSource, marks_ofSource, ← hlength] at h
  rcases Nat.lt_or_ge (ofSource source).values.length (ofSource other).values.length with hlt | hle
  · -- The end of the first source would be a token of the other one before its end.
    rw [List.take_append_of_le_length hlt] at h
    have hmem : Token.finish ∈ (ofSource other).values :=
      List.mem_of_mem_take (h ▸ List.mem_append_right _ (List.mem_singleton_self _))
    exact absurd rfl ((proper_start other).pending _ hmem)
  · rw [List.take_of_length_le (by simpa using hle)] at h
    exact List.append_cancel_right h

/-- From the beginning of two sources with the same first marks, the same is seen. -/
theorem alike_of_take_marks {s s' : TokenStream} {k : Nat} (hk : k ≤ s.tokens.length)
    (h : s'.marks.take (k + 1) = s.marks.take (k + 1)) :
    ∀ i < k + 1, ((Cursor.start s).peek i).value = ((Cursor.start s').peek i).value := by
  intro i hi
  have hmark : s'.marks[i]? = s.marks[i]? := by
    rw [← List.getElem?_take_of_lt hi, h, List.getElem?_take_of_lt hi]
  have his : i ≤ s.tokens.length := Nat.le_trans (Nat.le_of_lt_succ hi) hk
  rw [getElem?_marks his] at hmark
  have hi' : i ≤ s'.tokens.length := by
    have hlt := (List.getElem?_eq_some_iff.1 hmark).1
    rw [length_marks] at hlt
    exact Nat.le_of_lt_succ hlt
  rw [getElem?_marks hi'] at hmark
  exact (Option.some.inj hmark).symm

/-- What is read at one place of a source is read nowhere else in it. -/
theorem getElem?_readings_iff {source : String} {t : Spanned Token} {k : Nat}
    (h : ((ofSource source).readings 0)[k]? = some t) (i : Nat) :
    ((ofSource source).readings 0)[i]? = some t ↔ i = k := by
  constructor
  · intro hi
    have hlt := (List.getElem?_eq_some_iff.1 hi).1
    exact (List.getElem?_inj hlt (tiles_ofSource source).nodup).1 (hi.trans h.symm)
  · rintro rfl
    exact h

end TokenStream

open Reader

section Blamed

variable {source : String} {e : Diagnostic}

/-- The diagnostic is the first one of a source. -/
def BlamesFirst (source : String) (e : Diagnostic) : Prop :=
  Blames (liftM (programItems (TokenStream.ofSource source).tokens.length))
    (.start (TokenStream.ofSource source)) e

theorem blamesFirst_of_parse_eq_error {ds : List Diagnostic} (h : parse source = .error ds) :
    ∃ first rest, ds = first :: rest ∧ BlamesFirst source first := by
  obtain ⟨hne, hnoted⟩ := noted_of_parse_eq_error h
  obtain ⟨first, rest, rfl⟩ := List.exists_cons_of_ne_nil hne
  rw [List.reverse_cons] at hnoted
  exact ⟨first, rest, rfl, _, hnoted.symm⟩

/-- The tokens before the first one that is blamed are the first ones of an accepted source. -/
theorem BlamesFirst.exists_accepted (h : BlamesFirst source e) :
    ∃ k, ((TokenStream.ofSource source).readings 0)[k]? = some e.got ∧
      ∃ other tree, parse other = .ok tree ∧
        (TokenStream.ofSource other).marks.take k = (TokenStream.ofSource source).marks.take k := by
  obtain ⟨ts, d, more, hpasses, hgot, hmore, lines, hlines, hcompleted⟩ :=
    Grammar.begins_programItems (TokenStream.proper_start source) h
  have hsource : (TokenStream.ofSource source).values = ts ++ d.values := hpasses.values
  have hplace : (Cursor.start (TokenStream.ofSource source)).placeOf d = ts.length := by
    have hlength := congrArg List.length hsource
    simp only [TokenStream.values, Cursor.values, List.length_map, List.length_append] at hlength
    simp only [Cursor.placeOf, Cursor.start]
    omega
  obtain ⟨other, hother⟩ : ∃ other, (TokenStream.ofSource other).values = ts ++ more := by
    refine exists_values_ofSource fun t ht => ?_
    rcases List.mem_append.1 ht with ht | ht
    · have hmem : t ∈ (TokenStream.ofSource source).values := hsource ▸ List.mem_append_left _ ht
      exact readable_of_mem 0 source.toList t hmem
    · exact readable_of_mem_fillers (hmore ht)
  rw [List.append_nil] at hcompleted
  refine ⟨ts.length, ?_, other, lines.map Grammar.Line.tree,
    Grammar.parse_eq_ok_iff.2 ⟨lines, hlines, by rw [hother, hcompleted], rfl⟩, ?_⟩
  · rw [hgot, ← hplace]
    exact Cursor.getElem?_placeOf hpasses.pending hpasses.finish
  · simp only [TokenStream.marks_ofSource, hother, hsource, List.append_assoc, List.take_left]

/-- A source that has the first blamed token in the same place, behind the same tokens, is refused.
-/
theorem BlamesFirst.refused (h : BlamesFirst source e) {k : Nat}
    (hk : ((TokenStream.ofSource source).readings 0)[k]? = some e.got) {other : String}
    (heq : (TokenStream.ofSource other).marks.take (k + 1) =
      (TokenStream.ofSource source).marks.take (k + 1)) (tree : Tree) : parse other ≠ .ok tree := by
  intro hok
  rcases Nat.lt_or_ge k (TokenStream.ofSource source).tokens.length with hlt | hge
  · have hbeside : (Cursor.start (TokenStream.ofSource source)).Beside _ _ (k + 1)
        (.start (TokenStream.ofSource other)) :=
      ⟨TokenStream.proper_start source, TokenStream.proper_start other, Nat.le_refl _,
        Nat.le_refl _, TokenStream.alike_of_take_marks (Nat.le_of_lt hlt) heq⟩
    obtain ⟨i, hi, -, hsame⟩ := ((local_programItems _ _).follows hbeside).blamed e h
    have hik : i = k := by
      rcases Nat.le_total i (TokenStream.ofSource source).tokens.length with hle | hge
      · have hseen := Cursor.getElem?_line (.start (TokenStream.ofSource source)) hle
        rw [← hi] at hseen
        exact (TokenStream.getElem?_readings_iff hk i).1 hseen
      · have hfinish := Cursor.getElem?_line (.start (TokenStream.ofSource source)) (Nat.le_refl _)
        rw [Cursor.peek_of_length_le _ (Nat.le_refl _), ← Cursor.peek_of_length_le _ hge, ← hi]
          at hfinish
        have hlast := (TokenStream.getElem?_readings_iff hk _).1 hfinish
        exact absurd hlast (Nat.ne_of_gt hlt)
    obtain ⟨e', he'⟩ := hsame (hik ▸ Nat.lt_succ_self k)
    obtain ⟨d, hd⟩ := (TokenStream.parse_eq_ok_iff_reads _ _).1 hok
    exact hd.not_blames e' he'
  · -- The end is blamed, and the other source has the same tokens before it.
    have hend : k = (TokenStream.ofSource source).tokens.length := by
      have hlt := (List.getElem?_eq_some_iff.1 hk).1
      simp only [TokenStream.readings, List.length_append, List.length_replicate] at hlt
      omega
    rw [hend, ← TokenStream.length_marks, List.take_length, TokenStream.length_marks] at heq
    have hvalues := TokenStream.values_eq_of_take_marks heq
    rw [Grammar.parse_eq_ok_iff, hvalues, ← Grammar.parse_eq_ok_iff] at hok
    obtain ⟨d, hd⟩ := (TokenStream.parse_eq_ok_iff_reads _ _).1 hok
    exact hd.not_blames e h

end Blamed

/-- The token that the first diagnostic of a refused source blames is at one place among the tokens
and the end of the source. Some accepted source begins with the tokens before that place, and none
begins with those tokens and the blamed one. -/
theorem first_diagnostic_earliest {source : String} {ds : List Diagnostic}
    (h : parse source = .error ds) :
    ∃ first rest k, ds = first :: rest ∧
      (∀ i, ((TokenStream.ofSource source).readings 0)[i]? = some first.got ↔ i = k) ∧
      (∃ other tree, parse other = .ok tree ∧
        (TokenStream.ofSource other).marks.take k = (TokenStream.ofSource source).marks.take k) ∧
      ∀ other tree, (TokenStream.ofSource other).marks.take (k + 1) =
        (TokenStream.ofSource source).marks.take (k + 1) → parse other ≠ .ok tree := by
  obtain ⟨first, rest, rfl, hfirst⟩ := blamesFirst_of_parse_eq_error h
  obtain ⟨k, hk, haccepted⟩ := hfirst.exists_accepted
  exact ⟨first, rest, k, rfl, TokenStream.getElem?_readings_iff hk, haccepted,
    fun other tree heq => hfirst.refused hk heq tree⟩

/-- A closing parenthesis ends nothing behind a sign: that is seen as soon as it is read, since with
the sign alone a program can begin. -/
theorem first_diagnostic_of_sign_and_paren :
    parse "-)" = .error [.noOperand ⟨.symbol .rightParen, ⟨1, 2⟩⟩] ∧
      ∃ k, (∀ i, ((TokenStream.ofSource "-)").readings 0)[i]? =
          some ⟨.symbol .rightParen, ⟨1, 2⟩⟩ ↔ i = k) ∧
        (∃ other tree, parse other = .ok tree ∧
          (TokenStream.ofSource other).marks.take k = (TokenStream.ofSource "-)").marks.take k) ∧
        ∀ other tree, (TokenStream.ofSource other).marks.take (k + 1) =
          (TokenStream.ofSource "-)").marks.take (k + 1) → parse other ≠ .ok tree := by
  have hsign : ['-', ')'].dropWhile isBlank = '-' :: [')'] := by decide
  have hclose : [')'].dropWhile isBlank = ')' :: [] := by decide
  have htokens : tokensFrom 0 ['-', ')'] =
      [⟨.symbol .minus, ⟨0, 1⟩⟩, ⟨.symbol .rightParen, ⟨1, 2⟩⟩] := by
    rw [tokensFrom_eq_cons 0 hsign]
    change _ :: tokensFrom 1 [')'] = _
    rw [tokensFrom_eq_cons 1 hclose]
    change _ :: _ :: tokensFrom 2 [] = _
    rw [tokensFrom_of_nil 2 rfl]
    rfl
  have hstream : TokenStream.ofSource "-)" = ⟨_, ⟨.finish, ⟨2, 2⟩⟩⟩ :=
    congrArg (TokenStream.mk · _) htokens
  have refused : parse "-)" = .error [.noOperand ⟨.symbol .rightParen, ⟨1, 2⟩⟩] := by
    rw [parse, hstream]
    rfl
  obtain ⟨_, _, k, ⟨⟩, hplace, haccepted, hnone⟩ := first_diagnostic_earliest refused
  exact ⟨refused, k, hplace, haccepted, hnone⟩

end Monkey
