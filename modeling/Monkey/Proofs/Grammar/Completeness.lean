import Monkey.Proofs.Grammar.Soundness

/-!
# What is derived is read

A cursor on tokens that the grammar derives reads them to the tree of the derivation, whatever
follows them, as long as that does not go on with them. For a binary operator that associates to the
left this has to be said of the middle of a reading: from the front of the tokens on, reading comes
to the loop over operators with the tree as what has been read so far.
-/

namespace Monkey.Grammar

open Reader

/-- What follows an expression does not go on with it: its first token, if there is one, binds what
stands before it no more tightly than some rank allows, and announces no second block. -/
def Quits (rank : Nat) (rest : List Token) : Prop :=
  ∀ t ∈ rest.head?, (Precedence.ofKind t.kind).rank ≤ rank ∧ t ≠ .keyword .elseWord

theorem Quits.mono {m n : Nat} (h : m ≤ n) {rest : List Token} (hq : Quits m rest) :
    Quits n rest := fun t ht => ⟨Nat.le_trans (hq t ht).1 h, (hq t ht).2⟩

theorem Quits.nil (rank : Nat) : Quits rank [] := by rintro _ ⟨⟩

theorem Quits.cons {rank : Nat} {t : Token} (h : (Precedence.ofKind t.kind).rank ≤ rank)
    (hne : t ≠ .keyword .elseWord) (rest : List Token) : Quits rank (t :: rest) := by
  rintro _ ⟨⟩
  exact ⟨h, hne⟩

/-- The upcoming token does not bind more tightly than what follows is allowed to. -/
theorem Quits.pull_le {rank : Nat} {c : Cursor} (hc : c.Proper) (h : Quits rank c.after) :
    c.pull.rank ≤ rank := by
  rw [Cursor.pull, hc.upcoming_eq]
  cases ha : c.after with
  | nil => exact Nat.zero_le _
  | cons t ts =>
    rw [ha] at h
    exact (h t rfl).1

/-- From a cursor on some tokens with others behind them, the step reads the former and stops before
the latter. -/
def Accepts {α : Type} (r : Reader α) (ts : List Token) (a : α) (rest : List Token) : Prop :=
  ∀ ⦃c : Cursor⦄, c.Proper → c.values = ts ++ rest → ∃ d, Reads r c a d ∧ d.after = rest

section List

variable {α δ : Type} {item : Reader α} [Forward item] {tokens : δ → List Token} {tree : δ → α}

/-- The item is read wherever a comma or the closing token follows it, and it does not begin like the
closing token. -/
structure ItemAccepted (item : Reader α) (close : Symbol) (ts : List Token) (a : α) : Prop where
  /-- The item is read in a list. -/
  accepts : ∀ t rest, t = .symbol .comma ∨ t = .symbol close → Accepts item ts a (t :: rest)
  /-- The item is not taken for the end of the list. -/
  begins : ∃ t us, ts = t :: us ∧ t ≠ .symbol close

/-- Further items, each after a comma, are read up to the closing token. -/
theorem furtherItems_complete {close : Symbol} (hclose : close ≠ .comma) {xs : List δ}
    (hitem : ∀ x ∈ xs, ItemAccepted item close (tokens x) (tree x)) {n : Nat} {c : Cursor}
    {rest : List Token} (hc : c.Proper) (hn : c.pending.length ≤ n)
    (hafter : c.after = (xs.map tokens).flatMap (.symbol .comma :: ·) ++ .symbol close :: rest) :
    ∃ d, Reads (furtherItems item n) c (xs.map tree) d ∧ d.after = .symbol close :: rest := by
  induction n generalizing c xs with
  | zero =>
    rw [Cursor.after, List.eq_nil_of_length_eq_zero (Nat.le_zero.1 hn)] at hafter
    simp at hafter
  | succ n ih =>
    unfold furtherItems
    simp only [reads_sees_bind, reads_ite_iff, decide_eq_true_eq]
    cases xs with
    | nil =>
      refine ⟨c, .inr ⟨?_, reads_pure_iff.2 ⟨rfl, rfl⟩⟩, hafter⟩
      rw [hc.upcoming_of_after hafter]
      exact fun h => hclose (Kind.symbol.inj h)
    | cons x xs =>
      simp only [List.map_cons, List.flatMap_cons, List.cons_append, List.append_assoc] at hafter
      have hkind : c.upcoming.value.kind = .symbol .comma := hc.kind_of_after hafter rfl
      have hvalues := Cursor.after_next hafter
      obtain ⟨e, he, heafter⟩ : ∃ e, Reads item c.next.next (tree x) e ∧ e.after =
          (xs.map tokens).flatMap (.symbol .comma :: ·) ++ .symbol close :: rest := by
        have hx := (hitem x List.mem_cons_self).accepts
        cases xs with
        | nil => exact hx _ _ (.inr rfl) hc.next.next hvalues
        | cons y ys => exact hx _ _ (.inl rfl) hc.next.next hvalues
      have hlen : e.pending.length ≤ n := by
        have hshort := he.leadsTo.pending.length_le
        have hlong := congrArg List.length hafter
        simp only [Cursor.next, List.length_tail] at hshort
        simp only [Cursor.after, List.length_map, List.length_tail, List.length_cons] at hlong
        omega
      obtain ⟨d, hd, hdafter⟩ := ih (fun y hy => hitem y (List.mem_cons_of_mem _ hy))
        (he.proper hc.next.next) hlen heafter
      refine ⟨d, .inl ⟨hkind, ?_⟩, hdafter⟩
      rw [reads_advance_bind, reads_advance_bind]
      exact he.bind (hd.bind (reads_pure_iff.2 ⟨rfl, rfl⟩))

/-- A list is read from its opening token, on which the cursor stands, to the closing one. -/
theorem items_complete {close : Symbol} (hclose : close ≠ .comma) {xs : List δ}
    (hitem : ∀ x ∈ xs, ItemAccepted item close (tokens x) (tree x)) {c : Cursor}
    {rest : List Token} (hc : c.Proper)
    (hafter : c.after = listed (xs.map tokens) ++ .symbol close :: rest) :
    ∃ d, Reads (items close item) c (xs.map tree) d ∧ d.after = rest := by
  unfold items
  simp only [reads_sees_bind]
  cases xs with
  | nil =>
    have hkind : c.upcoming.value.kind = .symbol close := hc.kind_of_after hafter rfl
    simp only [hkind, decide_true, ite_true]
    exact ⟨c.next, reads_advance_bind.2 (reads_pure_iff.2 ⟨rfl, rfl⟩), Cursor.after_next hafter⟩
  | cons x xs =>
    simp only [List.map_cons, listed, List.append_assoc] at hafter
    have hx := hitem x List.mem_cons_self
    obtain ⟨t, us, hts, hne⟩ := hx.begins
    have hkind : c.upcoming.value.kind ≠ .symbol close := by
      rw [hc.upcoming_eq, hafter, hts]
      exact fun h => hne (Cursor.eq_of_kind_symbol h)
    simp only [hkind, decide_false, Bool.false_eq_true, ite_false]
    obtain ⟨e, he, heafter⟩ : ∃ e, Reads item c.next (tree x) e ∧ e.after =
        (xs.map tokens).flatMap (.symbol .comma :: ·) ++ .symbol close :: rest := by
      cases xs with
      | nil => exact hx.accepts _ _ (.inr rfl) hc.next hafter
      | cons y ys => exact hx.accepts _ _ (.inl rfl) hc.next hafter
    have hep := he.proper hc.next
    obtain ⟨d, hd, hdafter⟩ := furtherItems_complete hclose
      (fun y hy => hitem y (List.mem_cons_of_mem _ hy)) hep (Nat.le_refl _) heafter
    have hclosed : d.upcoming.value.kind = .symbol close :=
      (hd.proper hep).kind_of_after hdafter rfl
    refine ⟨d.next, ?_, Cursor.after_next hdafter⟩
    rw [reads_advance_bind]
    refine he.bind ?_
    rw [reads_remaining_bind]
    exact hd.bind (reads_expect_bind.2 ⟨hclosed, reads_pure_iff.2 ⟨rfl, rfl⟩⟩)

end List

variable {inner : Inner}

/-- What follows a statement without a semicolon begins neither a continuation nor a semicolon. -/
def Ends (rest : List Token) : Prop :=
  Quits 0 rest ∧ ∀ t ∈ rest.head?, t ≠ .symbol .semicolon

/-- The expression is read at the lowest degree, wherever nothing that follows goes on with it. -/
structure PhraseAccepted (inner : Inner) (x : Phrase (Expr Unit)) : Prop where
  /-- The expression is read. -/
  accepts : ∀ rest, Quits 0 rest → Accepts (inner .lowest) x.tokens x.tree rest
  /-- The expression has a first token. -/
  begins : ∃ t us, x.tokens = t :: us ∧ Starts t

/-- The tokens that can begin a line. -/
def Begins (t : Token) : Prop := t = .keyword .letWord ∨ t = .keyword .returnWord ∨ Starts t

/-- A line begins with a token that can begin a line. -/
theorem PhraseAccepted.exists_head {l : Line} (h : PhraseAccepted inner l.value) :
    ∃ t us, l.tokens = t :: us ∧ Begins t := by
  obtain ⟨t, us, hts, ht⟩ := h.begins
  obtain ⟨form, value, closed⟩ := l
  cases form with
  | define x => exact ⟨_, _, rfl, .inl rfl⟩
  | leave => exact ⟨_, _, rfl, .inr (.inl rfl)⟩
  | bare =>
    refine ⟨t, us ++ if closed then [.symbol .semicolon] else [], ?_, .inr (.inr ht)⟩
    rw [← List.cons_append, ← hts]
    rfl

/-- A token that begins a line, but no continuation, can follow a line that is not closed. -/
theorem Begins.ends {t : Token} (h : Begins t) (hne : t ∉ continuing) (rest : List Token) :
    Ends (t :: rest) := by
  have key : (Precedence.ofKind t.kind).rank ≤ 0 ∧ t ≠ .keyword .elseWord ∧
      t ≠ .symbol .semicolon := by
    rcases h with rfl | rfl | h
    · decide
    · decide
    · cases h with
      | name => exact ⟨Nat.le_refl _, by simp, by simp⟩
      | integer => exact ⟨Nat.le_refl _, by simp, by simp⟩
      | string => exact ⟨Nat.le_refl _, by simp, by simp⟩
      | keyword hk =>
        simp only [List.mem_cons, List.not_mem_nil, or_false] at hk
        rcases hk with rfl | rfl | rfl | rfl <;> decide
      | symbol hs =>
        simp only [List.mem_cons, List.not_mem_nil, or_false] at hs
        rcases hs with rfl | rfl | rfl | rfl | rfl <;>
          first | decide | exact absurd (by decide) hne
  refine ⟨.cons key.1 key.2.1 rest, ?_⟩
  rintro _ ⟨⟩
  exact key.2.2

/-- The other words begin no expression. -/
theorem not_starts_keyword {k : Keyword} (h : k ∉ [.trueWord, .falseWord, .ifWord, .fnWord]) :
    ¬ Starts (.keyword k) := by
  rintro ⟨⟩
  contradiction

/-- The other symbols begin no expression either. -/
theorem not_starts_symbol {s : Symbol}
    (h : s ∉ [.bang, .minus, .leftParen, .leftBracket, .leftBrace]) : ¬ Starts (.symbol s) := by
  rintro ⟨⟩
  contradiction

/-- What begins a line is neither a closing brace nor the end. -/
theorem Begins.ne {t : Token} (h : Begins t) : t ≠ .symbol .rightBrace ∧ t ≠ .finish := by
  rcases h with rfl | rfl | h
  · decide
  · decide
  · cases h with
    | name => exact ⟨by simp, by simp⟩
    | integer => exact ⟨by simp, by simp⟩
    | string => exact ⟨by simp, by simp⟩
    | keyword => exact ⟨by simp, by simp⟩
    | symbol hs => exact ⟨fun h => absurd (Token.symbol.inj h ▸ hs) (by decide), by simp⟩

/-- After the expression of a statement, its semicolon is passed. -/
theorem closing_complete {s : Stmt Unit} {closed : Bool} {rest : List Token}
    (hrest : closed = false → Ends rest) {c : Cursor} (hc : c.Proper)
    (hafter : c.after = (if closed then [.symbol .semicolon] else []) ++ rest) :
    ∃ d, Reads (skip (.symbol .semicolon) >>= fun _ => pure s) c s d ∧ d.after = rest := by
  simp only [reads_skip_bind, reads_pure_iff, true_and, exists_eq_left]
  cases closed with
  | true =>
    have hsemi : c.upcoming.value.kind = .symbol .semicolon := hc.kind_of_after hafter rfl
    rw [if_pos hsemi]
    exact Cursor.after_next hafter
  | false =>
    have hafter : c.after = rest := hafter
    rw [if_neg fun hk => ?_]
    · exact hafter
    · have hup := hc.after_eq_symbol hk
      rw [hafter] at hup
      exact (hrest rfl).2 (.symbol .semicolon) (by rw [hup]; rfl) rfl

/-- What follows a line among lines that are apart does not go on with it. -/
theorem ends_of_apart {l : Line} {lines : List Line} {rest : List Token}
    (hlines : ∀ m ∈ lines, PhraseAccepted inner m.value) (hapart : Apart (l :: lines)) (hrest : Ends rest)
    (hopen : l.closed = false) : Ends (lineTokens lines ++ rest) := by
  cases lines with
  | nil => exact hrest
  | cons m lines =>
    obtain ⟨t, us, hts, ht⟩ := (hlines m List.mem_cons_self).exists_head
    have hne : t ∉ continuing := (List.isChain_cons.1 hapart).1 m rfl hopen t (by rw [hts]; rfl)
    rw [lineTokens, List.flatMap_cons, hts, List.cons_append, List.cons_append]
    exact ht.ends hne _

/-- An item of a list is an expression, and the tokens around it do not go on with it. -/
theorem PhraseAccepted.item {x : Phrase (Expr Unit)} (h : PhraseAccepted inner x) {close : Symbol}
    (hclose : close ∈ [.rightParen, .rightBracket]) :
    ItemAccepted (inner .lowest) close x.tokens x.tree where
  accepts t rest ht := by
    refine h.accepts _ (.cons ?_ ?_ rest)
    · rcases ht with rfl | rfl
      · decide
      · simp only [List.mem_cons, List.not_mem_nil, or_false] at hclose
        rcases hclose with rfl | rfl <;> decide
    · rcases ht with rfl | rfl <;> simp
  begins := by
    obtain ⟨t, us, hts, ht⟩ := h.begins
    refine ⟨t, us, hts, ?_⟩
    rintro rfl
    simp only [List.mem_cons, List.not_mem_nil, or_false] at hclose
    rcases hclose with rfl | rfl <;> exact not_starts_symbol (by decide) ht

/-- A parameter is a name. -/
theorem itemAccepted_currentName (x : String) :
    ItemAccepted currentName .rightParen [.name x] x where
  accepts t rest _ := by
    intro c hc hvalues
    exact ⟨c, reads_currentName_iff.2 ⟨hc.current_of_values hvalues, rfl⟩,
      Cursor.after_of_values hvalues⟩
  begins := ⟨_, [], rfl, by simp⟩

/-- Parameters are read up to the closing parenthesis. -/
theorem parameters_complete {names : List String} {c : Cursor} {rest : List Token} (hc : c.Proper)
    (hafter : c.after = listed (names.map fun x => [.name x]) ++ .symbol .rightParen :: rest) :
    ∃ d, Reads (items .rightParen currentName) c names d ∧ d.after = rest := by
  have h : ∃ d, Reads (items .rightParen currentName) c (names.map id) d ∧ d.after = rest :=
    items_complete (by decide) (fun x _ => itemAccepted_currentName x) hc hafter
  rwa [List.map_id] at h

variable [∀ p, Forward (inner p)]

/-- A key and a value with a colon between them are read as such. -/
theorem itemAccepted_keyed {k v : Phrase (Expr Unit)} (hk : PhraseAccepted inner k)
    (hv : PhraseAccepted inner v) :
    ItemAccepted (keyed inner) .rightBrace (pairTokens (k, v)) (k.tree, v.tree) where
  accepts t rest ht := by
    intro c hc hvalues
    simp only [pairTokens, List.append_assoc, List.cons_append] at hvalues
    obtain ⟨d, hd, hdafter⟩ := hk.accepts _ (.cons (t := .symbol .colon) (Nat.le_refl _) (by simp) _)
      hc hvalues
    have hdp := hd.proper hc
    have hrest : Quits 0 (t :: rest) := by
      rcases ht with rfl | rfl
      · exact .cons (t := .symbol .comma) (Nat.le_refl _) (by simp) rest
      · exact .cons (t := .symbol .rightBrace) (Nat.le_refl _) (by simp) rest
    obtain ⟨e, he, heafter⟩ := hv.accepts _ hrest hdp.next.next (Cursor.after_next hdafter)
    refine ⟨e, hd.bind ?_, heafter⟩
    refine reads_expect_bind.2 ⟨hdp.kind_of_after hdafter rfl, ?_⟩
    rw [reads_advance_bind]
    exact he.bind (reads_pure_iff.2 ⟨rfl, rfl⟩)
  begins := by
    obtain ⟨t, us, hts, ht⟩ := hk.begins
    refine ⟨t, us ++ .symbol .colon :: v.tokens, ?_, ?_⟩
    · rw [pairTokens, hts, List.cons_append]
    · rintro rfl
      exact not_starts_symbol (by decide) ht

/-- A line is read as its statement, wherever nothing that follows goes on with it. -/
theorem statement_complete {l : Line} (h : PhraseAccepted inner l.value) {rest : List Token}
    (hrest : l.closed = false → Ends rest) : Accepts (statement inner) l.tokens l.tree rest := by
  intro c hc hvalues
  have hquits : Quits 0 ((if l.closed then [.symbol .semicolon] else []) ++ rest) := by
    cases hl : l.closed with
    | true => exact Quits.cons (t := .symbol .semicolon) (Nat.le_refl _) (by simp) rest
    | false => exact (hrest hl).1
  simp only [statement, reads_current_bind]
  obtain ⟨form, value, closed⟩ := l
  simp only [Line.tokens, List.append_assoc] at hvalues
  cases form with
  | define x =>
    simp only [Form.opening, List.cons_append, List.nil_append] at hvalues
    have hx := Cursor.after_of_values hvalues
    have hassign := Cursor.after_next hx
    have hname : c.next.current.value = .name x := hc.upcoming_of_after hx
    obtain ⟨d, hd, hdafter⟩ := h.accepts _ hquits hc.next.next.next (Cursor.after_next hassign)
    obtain ⟨e, he, heafter⟩ := closing_complete (s := .define x value.tree) hrest
      (hd.proper hc.next.next.next) hdafter
    rw [hc.current_of_values hvalues]
    refine ⟨e, reads_expect_bind.2 ⟨hc.kind_of_after hx rfl, ?_⟩, heafter⟩
    refine (reads_currentName_iff.2 ⟨hname, rfl⟩).bind ?_
    refine reads_expect_bind.2 ⟨hc.next.kind_of_after hassign rfl, ?_⟩
    rw [reads_advance_bind]
    exact hd.bind he
  | leave =>
    simp only [Form.opening, List.cons_append, List.nil_append] at hvalues
    obtain ⟨d, hd, hdafter⟩ := h.accepts _ hquits hc.next (Cursor.after_of_values hvalues)
    obtain ⟨e, he, heafter⟩ := closing_complete (s := .leave value.tree) hrest
      (hd.proper hc.next) hdafter
    rw [hc.current_of_values hvalues]
    refine ⟨e, reads_advance_bind.2 ?_, heafter⟩
    exact hd.bind he
  | bare =>
    simp only [Form.opening, List.nil_append] at hvalues
    obtain ⟨d, hd, hdafter⟩ := h.accepts _ hquits hc hvalues
    obtain ⟨e, he, heafter⟩ := closing_complete (s := .expression value.tree) hrest
      (hd.proper hc) hdafter
    obtain ⟨t, us, hts, ht⟩ := h.begins
    rw [hts] at hvalues
    rw [hc.current_of_values hvalues]
    refine ⟨e, ?_, heafter⟩
    split
    · exact absurd ht (not_starts_keyword (by decide))
    · exact absurd ht (not_starts_keyword (by decide))
    · exact hd.bind he

/-- Lines that are apart are read up to the closing brace. -/
theorem blockItems_complete {lines : List Line} (hlines : ∀ l ∈ lines, PhraseAccepted inner l.value)
    (hapart : Apart lines) {n : Nat} {c : Cursor} {rest : List Token} (hc : c.Proper)
    (hn : c.pending.length ≤ n)
    (hvalues : c.values = lineTokens lines ++ .symbol .rightBrace :: rest) :
    ∃ d, Reads (blockItems inner n) c (lines.map Line.tree) d ∧ d.after = rest := by
  induction n generalizing c lines with
  | zero =>
    rw [Cursor.values, List.eq_nil_of_length_eq_zero (Nat.le_zero.1 hn)] at hvalues
    simp at hvalues
  | succ n ih =>
    simp only [blockItems, reads_current_bind]
    cases lines with
    | nil =>
      refine ⟨c, ?_, Cursor.after_of_values hvalues⟩
      rw [if_pos (hc.current_of_values hvalues)]
      exact reads_pure_iff.2 ⟨rfl, rfl⟩
    | cons l lines =>
      have hl := hlines l List.mem_cons_self
      have hothers : ∀ m ∈ lines, PhraseAccepted inner m.value :=
        fun m hm => hlines m (List.mem_cons_of_mem _ hm)
      obtain ⟨t, us, hts, ht⟩ := hl.exists_head
      rw [lineTokens, List.flatMap_cons, List.append_assoc] at hvalues
      have hbrace : Ends (.symbol .rightBrace :: rest) := by
        refine ⟨.cons (t := .symbol .rightBrace) (Nat.le_refl _) (by simp) _, ?_⟩
        rintro _ ⟨⟩
        simp
      obtain ⟨e, he, heafter⟩ :=
        statement_complete hl (ends_of_apart hothers hapart hbrace) hc hvalues
      have hcurrent : c.current.value = t := by
        rw [hts] at hvalues
        exact hc.current_of_values hvalues
      have hlen : e.next.pending.length ≤ n := by
        have hshort := he.leadsTo.pending.length_le
        have hlong := congrArg List.length heafter
        simp only [Cursor.after, Cursor.next, List.length_map, List.length_tail, List.length_append,
          List.length_cons] at hlong ⊢
        omega
      obtain ⟨d, hd, hdafter⟩ := ih hothers hapart.tail (he.proper hc).next hlen heafter
      refine ⟨d, ?_, hdafter⟩
      rw [if_neg (hcurrent ▸ ht.ne.1), if_neg (hcurrent ▸ ht.ne.2)]
      refine (reads_noting_iff.2 ⟨_, rfl, he⟩).bind (reads_advance_bind.2 ?_)
      exact hd.bind (reads_pure_iff.2 ⟨rfl, rfl⟩)

/-- A block is read from its opening brace, on which the cursor stands, to its closing one. -/
theorem block_complete {lines : List Line} (hlines : ∀ l ∈ lines, PhraseAccepted inner l.value)
    (hapart : Apart lines) {c : Cursor} {rest : List Token} (hc : c.Proper)
    (hafter : c.after = lineTokens lines ++ .symbol .rightBrace :: rest) :
    ∃ d, Reads (block inner) c (lines.map Line.tree) d ∧ d.after = rest := by
  simp only [block, reads_advance_bind, reads_remaining_bind]
  exact blockItems_complete hlines hapart hc.next (Nat.le_refl _) hafter

/-- The second block of a conditional is read if there is one; otherwise what follows must not look
like one. -/
theorem otherwise_complete {other : Option (List Line)}
    (hlines : ∀ lines ∈ other, ∀ l ∈ lines, PhraseAccepted inner l.value)
    (hapart : ∀ lines ∈ other, Apart lines) {c : Cursor} {rest : List Token} (hc : c.Proper)
    (hrest : ∀ t ∈ rest.head?, t ≠ .keyword .elseWord)
    (hafter : c.after = otherwiseTokens other ++ rest) :
    ∃ d, Reads (otherwise inner) c (other.map (·.map Line.tree)) d ∧ d.after = rest := by
  simp only [otherwise, reads_sees_bind]
  cases other with
  | none =>
    have hne : c.upcoming.value.kind ≠ .keyword .elseWord := fun hk => by
      have hup := hc.after_eq_keyword hk
      rw [hafter] at hup
      exact hrest (.keyword .elseWord) (by rw [← List.nil_append rest]; exact hup ▸ rfl) rfl
    simp only [hne, decide_false, Bool.false_eq_true, ite_false]
    exact ⟨c, reads_pure_iff.2 ⟨rfl, rfl⟩, hafter⟩
  | some lines =>
    simp only [otherwiseTokens, blockTokens, List.cons_append, List.append_assoc,
      List.nil_append] at hafter
    have hbrace := Cursor.after_next hafter
    obtain ⟨d, hd, hdafter⟩ := block_complete (hlines lines rfl) (hapart lines rfl) hc.next.next
      (Cursor.after_next hbrace)
    have helse : c.upcoming.value.kind = .keyword .elseWord := hc.kind_of_after hafter rfl
    simp only [helse, decide_true, ite_true, reads_advance_bind]
    refine ⟨d, reads_expect_bind.2 ⟨hc.next.kind_of_after hbrace rfl, ?_⟩, hdafter⟩
    exact hd.bind (reads_pure_iff.2 ⟨rfl, rfl⟩)

/-- A call goes on with the expression of the called value. -/
theorem call_complete {arguments : List (Phrase (Expr Unit))}
    (h : ∀ a ∈ arguments, PhraseAccepted inner a) (left : Expr Unit) (rest : List Token) :
    Accepts (continued inner left) (enclosed .leftParen (arguments.map (·.tokens)) .rightParen)
      (.call left (arguments.map (·.tree))) rest := by
  intro c hc hvalues
  simp only [enclosed, List.cons_append, List.append_assoc, List.nil_append] at hvalues
  obtain ⟨d, hd, hafter⟩ := items_complete (by decide)
    (fun a ha => (h a ha).item (by decide)) hc (Cursor.after_of_values hvalues)
  refine ⟨d, ?_, hafter⟩
  rw [continued, reads_current_bind, hc.current_of_values hvalues]
  exact hd.bind (reads_pure_iff.2 ⟨rfl, rfl⟩)

/-- An index goes on with the expression of the collection. -/
theorem index_complete {position : Phrase (Expr Unit)} (h : PhraseAccepted inner position)
    (left : Expr Unit) (rest : List Token) :
    Accepts (continued inner left)
      (.symbol .leftBracket :: (position.tokens ++ [.symbol .rightBracket]))
      (.index left position.tree) rest := by
  intro c hc hvalues
  simp only [List.cons_append, List.append_assoc, List.nil_append] at hvalues
  obtain ⟨d, hd, hafter⟩ := h.accepts _
    (.cons (t := .symbol .rightBracket) (Nat.le_refl _) (by simp) rest) hc.next
    (Cursor.after_of_values hvalues)
  refine ⟨d.next, ?_, Cursor.after_next hafter⟩
  rw [continued, reads_current_bind, hc.current_of_values hvalues]
  refine reads_advance_bind.2 (hd.bind ?_)
  exact reads_expect_bind.2 ⟨(hd.proper hc.next).kind_of_after hafter rfl,
    reads_pure_iff.2 ⟨rfl, rfl⟩⟩

omit [∀ p, Forward (inner p)] in
/-- An operator goes on with its left operand. -/
theorem binary_complete {s : Stratum} {operator : Token} (hop : operator ∈ s.operators)
    {rs : List Token} {r : Expr Unit} {rest : List Token}
    (h : Accepts (inner (.ofKind operator.kind)) rs r rest) (left : Expr Unit) :
    Accepts (continued inner left) (operator :: rs) (.binary left operator r) rest := by
  intro c hc hvalues
  obtain ⟨-, -, hparen, hbracket⟩ := stratum_ofKind hop
  obtain ⟨d, hd, hafter⟩ := h hc.next (Cursor.after_of_values hvalues)
  refine ⟨d, ?_, hafter⟩
  rw [continued, reads_current_bind, hc.current_of_values hvalues]
  split
  · exact absurd rfl hparen
  · exact absurd rfl hbracket
  · rw [reads_advance_bind]
    exact hd.bind (reads_pure_iff.2 ⟨rfl, rfl⟩)

omit [∀ p, Forward (inner p)] in
/-- An operator before its operand is an operand. -/
theorem unary_complete {operator : Token} (hop : operator ∈ unaryOperators) {ts : List Token}
    {e : Expr Unit} {rest : List Token} (h : Accepts (inner .unary) ts e rest) :
    Accepts (operand inner) (operator :: ts) (.unary operator e) rest := by
  intro c hc hvalues
  obtain ⟨d, hd, hafter⟩ := h hc.next (Cursor.after_of_values hvalues)
  have hunary : Reads (unary inner operator) c (.unary operator e) d :=
    reads_advance_bind.2 (hd.bind (reads_pure_iff.2 ⟨rfl, rfl⟩))
  refine ⟨d, ?_, hafter⟩
  rw [operand, reads_current_bind, hc.current_of_values hvalues]
  simp only [unaryOperators, List.mem_cons, List.not_mem_nil, or_false] at hop
  rcases hop with rfl | rfl <;> exact hunary

/-- An expression in parentheses is an operand. -/
theorem grouped_complete {x : Phrase (Expr Unit)} (h : PhraseAccepted inner x)
    (rest : List Token) :
    Accepts (operand inner) (.symbol .leftParen :: x.tokens ++ [.symbol .rightParen]) x.tree
      rest := by
  intro c hc hvalues
  simp only [List.cons_append, List.append_assoc, List.nil_append] at hvalues
  obtain ⟨d, hd, hafter⟩ := h.accepts _
    (.cons (t := .symbol .rightParen) (Nat.le_refl _) (by simp) rest) hc.next
    (Cursor.after_of_values hvalues)
  refine ⟨d.next, ?_, Cursor.after_next hafter⟩
  rw [operand, reads_current_bind, hc.current_of_values hvalues]
  refine reads_advance_bind.2 (hd.bind ?_)
  exact reads_expect_bind.2 ⟨(hd.proper hc.next).kind_of_after hafter rfl,
    reads_pure_iff.2 ⟨rfl, rfl⟩⟩

/-- A conditional is an operand, unless what follows is taken for its second block. -/
theorem conditional_complete {test : Phrase (Expr Unit)} (htest : PhraseAccepted inner test)
    {chosen : List Line} (hchosen : ∀ l ∈ chosen, PhraseAccepted inner l.value)
    (hapart : Apart chosen) {other : Option (List Line)}
    (hother : ∀ lines ∈ other, ∀ l ∈ lines, PhraseAccepted inner l.value)
    (hotherApart : ∀ lines ∈ other, Apart lines) {rest : List Token}
    (hrest : ∀ t ∈ rest.head?, t ≠ .keyword .elseWord) :
    Accepts (operand inner)
      (.keyword .ifWord :: .symbol .leftParen :: test.tokens ++ .symbol .rightParen ::
        blockTokens chosen ++ otherwiseTokens other)
      (.conditional test.tree (chosen.map Line.tree) (other.map (·.map Line.tree))) rest := by
  intro c hc hvalues
  simp only [blockTokens, List.cons_append, List.append_assoc, List.nil_append] at hvalues
  have hparen := Cursor.after_of_values hvalues
  obtain ⟨d, hd, hdafter⟩ := htest.accepts _
    (.cons (t := .symbol .rightParen) (Nat.le_refl _) (by simp) _) hc.next.next
    (Cursor.after_next hparen)
  have hdp := hd.proper hc.next.next
  have hbrace := Cursor.after_next hdafter
  obtain ⟨e, he, heafter⟩ := block_complete hchosen hapart hdp.next.next (Cursor.after_next hbrace)
  obtain ⟨f, hf, hfafter⟩ := otherwise_complete hother hotherApart (he.proper hdp.next.next) hrest
    heafter
  refine ⟨f, ?_, hfafter⟩
  rw [operand, reads_current_bind, hc.current_of_values hvalues]
  refine reads_expect_bind.2 ⟨hc.kind_of_after hparen rfl, reads_advance_bind.2 (hd.bind ?_)⟩
  refine reads_expect_bind.2 ⟨hdp.kind_of_after hdafter rfl, ?_⟩
  refine reads_expect_bind.2 ⟨hdp.next.kind_of_after hbrace rfl, he.bind ?_⟩
  exact hf.bind (reads_pure_iff.2 ⟨rfl, rfl⟩)

/-- A function literal is an operand. -/
theorem function_complete (parameters : List String) {body : List Line}
    (hbody : ∀ l ∈ body, PhraseAccepted inner l.value) (hapart : Apart body)
    (rest : List Token) :
    Accepts (operand inner)
      (.keyword .fnWord :: enclosed .leftParen (parameters.map fun x => [.name x]) .rightParen ++
        blockTokens body)
      (.function () parameters (body.map Line.tree)) rest := by
  intro c hc hvalues
  simp only [blockTokens, enclosed, List.cons_append, List.append_assoc, List.nil_append]
    at hvalues
  have hparen := Cursor.after_of_values hvalues
  obtain ⟨d, hd, hdafter⟩ := parameters_complete hc.next (Cursor.after_next hparen)
  have hdp := hd.proper hc.next
  obtain ⟨e, he, heafter⟩ := block_complete hbody hapart hdp.next (Cursor.after_next hdafter)
  refine ⟨e, ?_, heafter⟩
  rw [operand, reads_current_bind, hc.current_of_values hvalues]
  refine reads_expect_bind.2 ⟨hc.kind_of_after hparen rfl, hd.bind ?_⟩
  refine reads_expect_bind.2 ⟨hdp.kind_of_after hdafter rfl, ?_⟩
  exact he.bind (reads_pure_iff.2 ⟨rfl, rfl⟩)

/-- An array literal is an operand. -/
theorem array_complete {elements : List (Phrase (Expr Unit))}
    (h : ∀ a ∈ elements, PhraseAccepted inner a) (rest : List Token) :
    Accepts (operand inner) (enclosed .leftBracket (elements.map (·.tokens)) .rightBracket)
      (.array (elements.map (·.tree))) rest := by
  intro c hc hvalues
  simp only [enclosed, List.cons_append, List.append_assoc, List.nil_append] at hvalues
  obtain ⟨d, hd, hafter⟩ := items_complete (by decide)
    (fun a ha => (h a ha).item (by decide)) hc (Cursor.after_of_values hvalues)
  refine ⟨d, ?_, hafter⟩
  rw [operand, reads_current_bind, hc.current_of_values hvalues]
  exact hd.bind (reads_pure_iff.2 ⟨rfl, rfl⟩)

/-- A hash literal is an operand. -/
theorem hash_complete {pairs : List (Phrase (Expr Unit) × Phrase (Expr Unit))}
    (hkeys : ∀ x ∈ pairs, PhraseAccepted inner x.1)
    (hvals : ∀ x ∈ pairs, PhraseAccepted inner x.2) (rest : List Token) :
    Accepts (operand inner) (enclosed .leftBrace (pairs.map pairTokens) .rightBrace)
      (.hash (pairs.map fun x => (x.1.tree, x.2.tree))) rest := by
  intro c hc hvalues
  simp only [enclosed, List.cons_append, List.append_assoc, List.nil_append] at hvalues
  obtain ⟨d, hd, hafter⟩ := items_complete (by decide)
    (fun x hx => itemAccepted_keyed (hkeys x hx) (hvals x hx)) hc (Cursor.after_of_values hvalues)
  refine ⟨d, ?_, hafter⟩
  rw [operand, reads_current_bind, hc.current_of_values hvalues]
  exact hd.bind (reads_pure_iff.2 ⟨rfl, rfl⟩)

omit [∀ p, Forward (inner p)]

/-- From a cursor on some tokens with others behind them, reading at a degree comes to the loop over
operators, with the tree as what has been read so far and the cursor just before the others. -/
def Comes (depth : Nat) (p : Precedence) (ts : List Token) (e : Expr Unit) (rest : List Token) :
    Prop :=
  ∀ ⦃c : Cursor⦄, c.Proper → c.values = ts ++ rest →
    ∃ n d, outcome (expression (depth + 1) p) c = outcome (extended (expression depth) p n e) d ∧
      d.noted = c.noted ∧ d.Proper ∧ d.after = rest ∧ d.pending.length ≤ n

/-- After an operand, reading is at the loop. -/
theorem comes_of_operand {depth : Nat} {p : Precedence} {ts : List Token} {e : Expr Unit}
    {rest : List Token} (h : Accepts (operand (expression depth)) ts e rest) :
    Comes depth p ts e rest := by
  intro c hc hvalues
  obtain ⟨d, hd, hafter⟩ := h hc hvalues
  refine ⟨d.pending.length, d, ?_, hd.noted_eq, hd.proper hc, hafter, Nat.le_refl _⟩
  rw [expression, outcome_bind, hd.outcome_eq]
  rfl

/-- A round of the loop, as a step. -/
theorem outcome_extended_succ (inner : Inner) (p : Precedence) (n : Nat) (left : Expr Unit)
    (c : Cursor) :
    outcome (extended inner p (n + 1) left) c =
      outcome (if p < .ofKind c.upcoming.value.kind then (do
        advance
        extended inner p n (← continued inner left))
      else pure left) c := rfl

/-- A round of the loop takes a token that binds what stands before it, and what goes with it. -/
theorem Comes.round {depth : Nat} {p : Precedence} {ls us : List Token} {t : Token}
    {left longer : Expr Unit} {rest : List Token} (h : Comes depth p ls left (t :: us ++ rest))
    (hlt : p < .ofKind t.kind)
    (hround : Accepts (continued (expression depth) left) (t :: us) longer rest) :
    Comes depth p (ls ++ t :: us) longer rest := by
  intro c hc hvalues
  rw [List.append_assoc] at hvalues
  obtain ⟨n, d, ho, hnoted, hd, hafter, hn⟩ := h hc hvalues
  obtain ⟨e, he, heafter⟩ := hround hd.next hafter
  cases n with
  | zero =>
    rw [Cursor.after, List.eq_nil_of_length_eq_zero (Nat.le_zero.1 hn)] at hafter
    cases hafter
  | succ n =>
    refine ⟨n, e, ?_, he.noted_eq.trans hnoted, he.proper hd.next, heafter, ?_⟩
    · have hlt : p < .ofKind d.upcoming.value.kind := by rwa [hd.upcoming_of_after hafter]
      rw [ho, outcome_extended_succ, if_pos hlt]
      change outcome (continued (expression depth) left >>= _) d.next = _
      rw [outcome_bind, he.outcome_eq]
    · have hshort := he.leadsTo.pending.length_le
      rw [Cursor.next, List.length_tail] at hshort
      omega

/-- If nothing that follows goes on with what has been read, the loop ends. -/
theorem Comes.accepts {depth : Nat} {p : Precedence} {ts : List Token} {e : Expr Unit}
    {rest : List Token} (h : Comes depth p ts e rest) (hrest : Quits p.rank rest) :
    Accepts (expression (depth + 1) p) ts e rest := by
  intro c hc hvalues
  obtain ⟨n, d, ho, hnoted, hd, rfl, -⟩ := h hc hvalues
  refine ⟨d, ⟨?_, hnoted⟩, rfl⟩
  rw [ho]
  cases n with
  | zero => rfl
  | succ n =>
    have hpull : ¬ p < .ofKind d.upcoming.value.kind := Nat.not_lt.2 (hrest.pull_le hd)
    rw [outcome_extended_succ, if_neg hpull]
    rfl

/-- What is said of derived tokens: at every degree at which their stratum is read, reading comes to
the loop with the whole of them, provided that what follows is left to the loop. -/
def Accepted (s : Stratum) (ts : List Token) (e : Expr Unit) : Prop :=
  ∀ ⦃depth : Nat⦄ ⦃p : Precedence⦄ ⦃rest : List Token⦄, p ≤ .unary → p.stratum ≤ s →
    ts.length ≤ depth + 1 → Quits s.reach rest → Comes depth p ts e rest

theorem reach_mono {s t : Stratum} (h : s ≤ t) : s.reach ≤ t.reach := by
  revert h
  cases s <;> cases t <;> decide

theorem rank_le_reach {p : Precedence} {s : Stratum} (hp : p ≤ .unary) (hs : p.stratum ≤ s) :
    p.rank ≤ s.reach := by
  revert hp hs
  cases p <;> cases s <;> decide

/-- An operator of a stratum binds what stands before it as tightly as anything that can go on with
that stratum, and more tightly than a degree at which the stratum is read. -/
theorem rank_ofKind {s : Stratum} {op : Token} (hop : op ∈ s.operators) :
    (Precedence.ofKind op.kind).rank = s.reach ∧ op ≠ .keyword .elseWord ∧
      ∀ p : Precedence, p.stratum ≤ s → p < .ofKind op.kind := by
  cases s <;> simp only [Stratum.operators, List.mem_cons, List.not_mem_nil, or_false] at hop
  all_goals rcases hop with rfl | rfl <;> refine ⟨rfl, by simp, fun p hs => ?_⟩
  all_goals
    revert hs
    cases p <;> decide

/-- Whatever is derived is accepted at every degree that reads its stratum, when nothing that follows
binds it more tightly than the degree. -/
theorem Accepted.accepts {s : Stratum} {ts : List Token} {e : Expr Unit} (h : Accepted s ts e)
    (hder : Derives s ts e) {depth : Nat} {p : Precedence} {rest : List Token} (hp : p ≤ .unary)
    (hs : p.stratum ≤ s) (hlen : ts.length ≤ depth) (hrest : Quits p.rank rest) :
    Accepts (expression depth p) ts e rest := by
  obtain ⟨t, us, rfl, -⟩ := hder.exists_head
  cases depth with
  | zero => exact absurd hlen (Nat.not_succ_le_zero _)
  | succ depth =>
    have hcomes : Comes depth p (t :: us) e rest :=
      h hp hs hlen (hrest.mono (rank_le_reach hp hs))
    exact hcomes.accepts hrest

/-- An expression of any stratum is accepted where any expression is allowed. -/
theorem Accepted.phrase {x : Phrase (Expr Unit)} (h : Accepted .equality x.tokens x.tree)
    (hder : Derives .equality x.tokens x.tree) {depth : Nat} (hlen : x.tokens.length ≤ depth) :
    PhraseAccepted (expression depth) x where
  accepts _ hrest := h.accepts (p := .lowest) hder (by decide) (by decide) hlen hrest
  begins := hder.exists_head

/-- What an operand of one token stands for depends on that token alone. -/
def Literal (t : Token) (e : Expr Unit) : Prop :=
  ∀ (inner : Inner) (c : Cursor), c.current.value = t → Reads (operand inner) c e c

/-- A literal of one token is accepted by standing on it. -/
theorem Literal.accepted {t : Token} {e : Expr Unit} (h : Literal t e) (s : Stratum) :
    Accepted s [t] e := fun _ _ _ _ _ _ _ => comes_of_operand fun c hc hvalues =>
  ⟨c, h _ c (hc.current_of_values hvalues), Cursor.after_of_values hvalues⟩

theorem literal_name (text : String) : Literal (.name text) (.name text) := by
  intro inner c hc
  rw [operand, reads_current_bind, hc]
  exact reads_pure_iff.2 ⟨rfl, rfl⟩

theorem literal_integer {digits : String} (h : decimal digits.toList ≤ largestInteger) :
    Literal (.integer digits) (.integer (Int64.ofNat (decimal digits.toList))) := by
  intro inner c hc
  rw [operand, reads_current_bind, hc]
  exact reads_ite_iff.2 (.inl ⟨h, reads_pure_iff.2 ⟨rfl, rfl⟩⟩)

theorem literal_string (text : String) : Literal (.string text) (.string text) := by
  intro inner c hc
  rw [operand, reads_current_bind, hc]
  exact reads_pure_iff.2 ⟨rfl, rfl⟩

theorem literal_true : Literal (.keyword .trueWord) (.boolean true) := by
  intro inner c hc
  rw [operand, reads_current_bind, hc]
  exact reads_pure_iff.2 ⟨rfl, rfl⟩

theorem literal_false : Literal (.keyword .falseWord) (.boolean false) := by
  intro inner c hc
  rw [operand, reads_current_bind, hc]
  exact reads_pure_iff.2 ⟨rfl, rfl⟩

/-- What the grammar derives is accepted. -/
theorem accepted_of_derives {s : Stratum} {ts : List Token} {e : Expr Unit}
    (h : Derives s ts e) : Accepted s ts e := by
  induction h with
  | tighter hst _ ih =>
    intro depth p rest hp hps hlen hrest
    exact ih hp (Nat.le_trans hps hst) hlen (hrest.mono (reach_mono hst))
  | @binary s ls rs l r op hop _ hright ihl ihr =>
    intro depth p rest hp hps hlen hrest
    obtain ⟨hrank, hne, hlt⟩ := rank_ofKind hop
    obtain ⟨hstratum, hle, -⟩ := stratum_ofKind hop
    rw [List.length_append, List.length_cons] at hlen
    have hl : Comes depth p ls l (op :: rs ++ rest) :=
      ihl hp hps (by omega) (.cons (Nat.le_of_eq hrank) hne _)
    have hr : Accepts (expression depth (.ofKind op.kind)) rs r rest :=
      ihr.accepts hright hle (Nat.le_of_eq (congrArg Stratum.rank hstratum)) (by omega)
        (hrank ▸ hrest)
    exact hl.round (hlt p hps) (binary_complete hop hr l)
  | @unary us e op hop hoperand ih =>
    intro depth p rest _ _ hlen hrest
    exact comes_of_operand (unary_complete hop
      (Accepted.accepts (p := .unary) ih hoperand (by decide) (Nat.le_refl _)
        (Nat.le_of_succ_le_succ hlen) hrest))
  | @call ts e arguments _ hitems ih ihs =>
    intro depth p rest hp hps hlen hrest
    simp only [enclosed, List.length_append, List.length_cons] at hlen
    have hcallee : Comes depth p ts e
        (enclosed .leftParen (arguments.map (·.tokens)) .rightParen ++ rest) :=
      ih hp hps (by omega) (.cons (t := .symbol .leftParen) (by decide) (by simp) _)
    refine hcallee.round (Nat.lt_of_le_of_lt hp (by decide)) (call_complete (fun a ha => ?_) e rest)
    have hshort := (sublist_listed (·.tokens) ha).length_le
    exact (ihs a ha).phrase (hitems a ha) (by omega)
  | @index ts us e i _ hposition ih ihi =>
    intro depth p rest hp hps hlen hrest
    simp only [List.length_append, List.length_cons] at hlen
    have hcollection : Comes depth p ts e
        (.symbol .leftBracket :: (us ++ [.symbol .rightBracket]) ++ rest) :=
      ih hp hps (by omega) (.cons (t := .symbol .leftBracket) (by decide) (by simp) _)
    have hi : PhraseAccepted (expression depth) ⟨us, i⟩ := Accepted.phrase ihi hposition (by
      simp only
      omega)
    simpa only [List.append_assoc, List.cons_append] using
      hcollection.round (Nat.lt_of_le_of_lt hp (by decide)) (index_complete hi e rest)
  | name text => exact (literal_name text).accepted _
  | integer hsmall => exact (literal_integer hsmall).accepted _
  | string text => exact (literal_string text).accepted _
  | isTrue => exact literal_true.accepted _
  | isFalse => exact literal_false.accepted _
  | @grouped ts e hinner ih =>
    intro depth p rest _ _ hlen _
    simp only [List.length_append, List.length_cons] at hlen
    have hi : PhraseAccepted (expression depth) ⟨ts, e⟩ := Accepted.phrase ih hinner (by
      simp only
      omega)
    exact comes_of_operand (grouped_complete hi rest)
  | @conditional ts e chosen other htest hapart hchosen hotherApart hother ih ihc iho =>
    intro depth p rest _ _ hlen hrest
    simp only [blockTokens, List.length_append, List.length_cons] at hlen
    have ht : PhraseAccepted (expression depth) ⟨ts, e⟩ := Accepted.phrase ih htest (by
      simp only
      omega)
    refine comes_of_operand (conditional_complete ht (fun l hl => ?_) hapart
      (fun lines hlines l hl => ?_) hotherApart fun t ht => (hrest t ht).2)
    · have hshort := (sublist_lineTokens hl).length_le
      exact (ihc l hl).phrase (hchosen l hl) (by omega)
    · have hshort := (sublist_lineTokens hl).length_le
      rw [Option.mem_def] at hlines
      simp only [hlines, otherwiseTokens, blockTokens, List.length_append, List.length_cons] at hlen
      exact (iho lines hlines l hl).phrase (hother lines hlines l hl) (by omega)
  | @function parameters body hapart hbody ih =>
    intro depth p rest _ _ hlen _
    simp only [blockTokens, List.length_append, List.length_cons] at hlen
    refine comes_of_operand (function_complete parameters (fun l hl => ?_) hapart rest)
    have hshort := (sublist_lineTokens hl).length_le
    exact (ih l hl).phrase (hbody l hl) (by omega)
  | @array elements hitems ih =>
    intro depth p rest _ _ hlen _
    simp only [enclosed, List.length_append, List.length_cons] at hlen
    refine comes_of_operand (array_complete (fun a ha => ?_) rest)
    have hshort := (sublist_listed (·.tokens) ha).length_le
    exact (ih a ha).phrase (hitems a ha) (by omega)
  | @hash pairs hkeys hvals ihk ihv =>
    intro depth p rest _ _ hlen _
    simp only [enclosed, List.length_append, List.length_cons] at hlen
    refine comes_of_operand (hash_complete (fun x hx => ?_) (fun x hx => ?_) rest)
    all_goals
      have hshort := (sublist_listed pairTokens hx).length_le
      rw [pairTokens, List.length_append, List.length_cons] at hshort
    · exact (ihk x hx).phrase (hkeys x hx) (by omega)
    · exact (ihv x hx).phrase (hvals x hx) (by omega)

theorem Ends.nil : Ends [] := ⟨.nil 0, by simp⟩

/-- The lines of a program are read as its statements, up to the end of the stream. -/
theorem programItems_complete {lines : List Line} (h : Lines lines) {n : Nat} {c : Cursor}
    (hc : c.Proper) (hn : c.pending.length ≤ n) (hvalues : c.values = lineTokens lines) :
    ∃ d, Reads (liftM (programItems n)) c (lines.map Line.tree) d := by
  induction n generalizing c lines with
  | zero =>
    rw [Cursor.values, List.eq_nil_of_length_eq_zero (Nat.le_zero.1 hn)] at hvalues
    cases lines with
    | nil => exact ⟨c, reads_pure_iff.2 ⟨rfl, rfl⟩⟩
    | cons l lines =>
      have hlen : l.value.tokens.length ≤ (lineTokens (l :: lines)).length :=
        (sublist_lineTokens List.mem_cons_self).length_le
      obtain ⟨t, us, hts, -⟩ := (h.derives l List.mem_cons_self).exists_head
      rw [← hvalues, hts] at hlen
      exact absurd hlen (Nat.not_succ_le_zero _)
  | succ n ih =>
    simp only [reads_congr (outcome_programItems_succ n c) rfl]
    cases lines with
    | nil =>
      have hend : c.current.value = .finish := by
        rw [hc.current_eq, hvalues]
        rfl
      rw [if_pos hend]
      exact ⟨c, reads_pure_iff.2 ⟨rfl, rfl⟩⟩
    | cons l lines =>
      have haccepted : ∀ m ∈ l :: lines,
          PhraseAccepted (expression c.pending.length) m.value := fun m hm => by
        refine (accepted_of_derives (h.derives m hm)).phrase (h.derives m hm) ?_
        have hlen := (sublist_lineTokens hm).length_le
        rwa [← hvalues, Cursor.values, List.length_map] at hlen
      have hothers : Lines lines :=
        ⟨h.apart.tail, fun m hm => h.derives m (List.mem_cons_of_mem _ hm)⟩
      have hends : l.closed = false → Ends (lineTokens lines ++ []) :=
        ends_of_apart (fun m hm => haccepted m (List.mem_cons_of_mem _ hm)) h.apart .nil
      rw [List.append_nil] at hends
      obtain ⟨t, us, hts, ht⟩ := (haccepted l List.mem_cons_self).exists_head
      obtain ⟨e, he, heafter⟩ :=
        statement_complete (haccepted l List.mem_cons_self) hends hc hvalues
      have hcurrent : c.current.value = t := by
        rw [lineTokens, List.flatMap_cons, hts] at hvalues
        exact hc.current_of_values hvalues
      have hne : c.current.value ≠ .finish := hcurrent ▸ ht.ne.2
      have hlen : e.next.pending.length ≤ n := by
        have hshort := he.leadsTo.pending.length_le
        have hpos : c.pending ≠ [] := fun hnil => by
          rw [Cursor.current, hnil] at hne
          exact hne hc.finish
        have := List.length_pos_iff.2 hpos
        rw [Cursor.next, List.length_tail]
        omega
      obtain ⟨d, hd⟩ := ih hothers (he.proper hc).next hlen heafter
      rw [if_neg hne]
      refine ⟨d, (reads_noting_iff.2 ⟨_, rfl, he⟩).bind (reads_advance_bind.2 ?_)⟩
      exact hd.bind (reads_pure_iff.2 ⟨rfl, rfl⟩)

end Monkey.Grammar
