import Monkey.Proofs.Diagnosis.Blame
import Monkey.Proofs.Grammar.Program

/-!
# What stands before a blamed token

When a token is blamed, what stands before it can be gone on with: there is a way to finish every
construct that is still open, innermost first, with a name where an expression is missing and with
the tokens that close lists, groups and blocks. So every step blames a token only behind the
beginning of what the step reads.
-/

namespace Monkey

/-- The name that is put where an expression or a name is missing. -/
def placeholder : Token := .name "x"

/-- The tokens that constructs are finished with. -/
def fillers : List Token :=
  [placeholder, .symbol .assign, .symbol .colon, .symbol .leftParen, .symbol .rightParen,
    .symbol .leftBrace, .symbol .rightBrace, .symbol .rightBracket]

namespace Cursor

/-- A token of the kind of a name is one. -/
theorem exists_name_of_kind {t : Token} (h : t.kind = .name) : ∃ x, t = .name x := by
  cases t <;> cases h
  exact ⟨_, rfl⟩

/-- From one cursor to another one, the given tokens are passed. -/
structure Passes (c : Cursor) (ts : List Token) (d : Cursor) : Prop where
  /-- The tokens that are left are the last ones of those that were. -/
  pending : d.pending <:+ c.pending
  /-- The end of the stream stays where it is. -/
  finish : d.finish = c.finish
  /-- The given tokens stand before those that are left. -/
  values : c.values = ts ++ d.values

variable {c d e : Cursor} {ts us : List Token}

theorem Passes.refl (c : Cursor) : c.Passes [] c := ⟨List.suffix_refl _, rfl, rfl⟩

theorem Passes.trans (h : c.Passes ts d) (h' : d.Passes us e) : c.Passes (ts ++ us) e where
  pending := h'.pending.trans h.pending
  finish := h'.finish.trans h.finish
  values := by rw [h.values, h'.values, List.append_assoc]

/-- A step passes the tokens that it reads, of which the cursor stands on the last one in the end.
-/
theorem Passes.of_after (hl : c.LeadsTo d) (h : c.values = ts ++ d.after) : c.Passes ts d.next where
  pending := (List.tail_suffix _).trans hl.pending
  finish := hl.finish
  values := h

/-- A step that begins behind the current token passes the tokens that it reads there. -/
theorem Passes.after (hl : c.LeadsTo d) (h : c.after = ts ++ d.after) :
    c.next.Passes ts d.next where
  pending := by
    refine List.suffix_of_suffix_length_le ((List.tail_suffix _).trans hl.pending)
      (List.tail_suffix _) ?_
    simp only [next, List.length_tail]
    exact Nat.sub_le_sub_right hl.pending.length_le 1
  finish := hl.finish
  values := h

theorem Proper.passes {t : Token} (hc : c.Proper) (h : c.current.value = t) (hne : t ≠ .finish) :
    c.Passes [t] c.next :=
  .of_after (.refl c) (by rw [hc.values_eq (by rwa [h]), h, List.singleton_append])

/-- An upcoming symbol is passed when the cursor goes on from it. -/
theorem Proper.passes_symbol {s : Symbol} (hc : c.Proper) (h : c.upcoming.value.kind = .symbol s) :
    c.next.Passes [.symbol s] c.next.next := hc.next.passes (eq_of_kind_symbol h) (by simp)

/-- The tokens from the cursor on up to the one that is blamed can be gone on with, by tokens that
constructs are finished with, to something that has the property. -/
def Begins (D : List Token → Prop) (c : Cursor) (e : Diagnostic) : Prop :=
  ∃ ts d more, c.Passes ts d ∧ e.got = d.current ∧ more ⊆ fillers ∧ D (ts ++ more)

/-- What is begun later, inside of something larger, begins that as well. -/
theorem Begins.within {D D' : List Token → Prop} {f : Diagnostic} {more : List Token}
    (h : d.Begins D f) (hpasses : c.Passes ts d) (hmore : more ⊆ fillers)
    (hD : ∀ us, D us → D' (ts ++ us ++ more)) : c.Begins D' f := by
  obtain ⟨us, x, rest, hx, hgot, hrest, hus⟩ := h
  refine ⟨ts ++ us, x, rest ++ more, hpasses.trans hx, hgot,
    List.append_subset.2 ⟨hrest, hmore⟩, ?_⟩
  simpa only [List.append_assoc] using hD _ hus

theorem Begins.behind {D D' : List Token → Prop} {f : Diagnostic} (h : d.Begins D f)
    (hpasses : c.Passes ts d) (hD : ∀ us, D us → D' (ts ++ us)) : c.Begins D' f :=
  h.within hpasses (List.nil_subset _) fun us hus => by
    simpa only [List.append_nil] using hD us hus

theorem Begins.imp {D D' : List Token → Prop} {f : Diagnostic} (h : c.Begins D f)
    (hD : ∀ us, D us → D' us) : c.Begins D' f := h.behind (.refl c) hD

end Cursor

namespace Grammar

open Reader Cursor

/-- The tokens are an expression of the stratum. -/
def Written (s : Stratum) (ts : List Token) : Prop := ∃ e, Derives s ts e

/-- The tokens are a statement. -/
def IsLine (ts : List Token) : Prop :=
  ∃ l : Line, Derives .equality l.value.tokens l.value.tree ∧ l.tokens = ts

/-- The tokens are statements, and then what follows them. -/
def AreLines (last ts : List Token) : Prop := ∃ lines, Lines lines ∧ lineTokens lines ++ last = ts

theorem Written.mono {s t : Stratum} {ts : List Token} (h : Written t ts) (hle : s ≤ t) :
    Written s ts := by
  obtain ⟨e, he⟩ := h
  exact ⟨e, he.tighter hle⟩

theorem written_placeholder (s : Stratum) : Written s [placeholder] :=
  ⟨_, .tighter (by cases s <;> decide) (.name "x")⟩

theorem areLines_nil (last : List Token) : AreLines last last := ⟨[], .nil, rfl⟩

section List

variable {α δ : Type} {item : Reader α} [Forward item] {tokens : δ → List Token} {tree : δ → α}
  {D : δ → Prop} {c : Cursor} {e : Diagnostic}

/-- What an item blames stands behind the beginning of an item. -/
def ItemBegins (item : Reader α) (tokens : δ → List Token) (D : δ → Prop) : Prop :=
  ∀ {c : Cursor} {e : Diagnostic}, c.Proper → Blames item c e →
    c.Begins (fun ts => ∃ x, D x ∧ tokens x = ts) e

theorem begins_furtherItems (hsound : ItemSound item tokens tree D)
    (hitem : ItemBegins item tokens D) {n : Nat} (hc : c.Proper) (h : Blames (furtherItems item n) c e) :
    c.next.Begins (fun ts => ∃ xs : List δ, (∀ x ∈ xs, D x) ∧
      (xs.map tokens).flatMap (.symbol .comma :: ·) = ts) e := by
  induction n generalizing c with
  | zero => exact absurd h not_blames_pure
  | succ n ih =>
    unfold furtherItems at h
    rw [blames_sees_bind, blames_ite_iff] at h
    simp only [decide_eq_true_eq] at h
    obtain ⟨hcomma, h⟩ | ⟨-, h⟩ := h
    · rw [blames_advance_bind, blames_advance_bind] at h
      have hpasses := hc.passes_symbol hcomma
      obtain h | ⟨a, d, ha, h⟩ := blames_bind_iff.1 h
      · refine (hitem hc.next.next h).behind hpasses ?_
        rintro _ ⟨x, hx, rfl⟩
        exact ⟨[x], by simpa using hx, by simp⟩
      obtain ⟨x, -, hvalues, hx⟩ := hsound hc.next.next ha
      refine (ih (ha.proper hc.next.next) (blames_bind_pure_iff.1 h)).behind
        (hpasses.trans (.of_after ha.leadsTo hvalues)) ?_
      rintro _ ⟨xs, hxs, rfl⟩
      exact ⟨x :: xs, List.forall_mem_cons.2 ⟨hx, hxs⟩, by simp⟩
    · exact absurd h not_blames_pure

/-- What is blamed in a list stands behind the beginning of a list, seen from the token behind the
opening one. -/
theorem begins_items (hsound : ItemSound item tokens tree D) (hitem : ItemBegins item tokens D)
    {close : Symbol} (hclose : .symbol close ∈ fillers) (hc : c.Proper)
    (h : Blames (items close item) c e) :
    c.next.Begins (fun ts => ∃ xs : List δ, (∀ x ∈ xs, D x) ∧
      listed (xs.map tokens) ++ [.symbol close] = ts) e := by
  have hmore : [.symbol close] ⊆ fillers := List.cons_subset.2 ⟨hclose, List.nil_subset _⟩
  unfold items at h
  rw [blames_sees_bind] at h
  by_cases hseen : c.upcoming.value.kind = .symbol close
  · simp only [hseen, decide_true, ite_true] at h
    exact absurd (blames_advance_bind.1 h) not_blames_pure
  simp only [hseen, decide_false, Bool.false_eq_true, ite_false] at h
  obtain h | ⟨a, d, ha, h⟩ := blames_bind_iff.1 (blames_advance_bind.1 h)
  · refine (hitem hc.next h).within (.refl _) hmore ?_
    rintro _ ⟨x, hx, rfl⟩
    exact ⟨[x], by simpa using hx, by simp [listed]⟩
  obtain ⟨x, -, hvalues, hx⟩ := hsound hc.next ha
  have hpasses := Passes.of_after ha.leadsTo hvalues
  have hd := ha.proper hc.next
  rw [blames_remaining_bind] at h
  obtain h | ⟨others, f, ho, h⟩ := blames_bind_iff.1 h
  · refine (begins_furtherItems hsound hitem hd h).within hpasses hmore ?_
    rintro _ ⟨xs, hxs, rfl⟩
    exact ⟨x :: xs, List.forall_mem_cons.2 ⟨hx, hxs⟩, by simp [listed]⟩
  obtain ⟨-, rfl⟩ | ⟨-, h⟩ := blames_expect_bind.1 h
  · obtain ⟨xs, -, hxs, hafter⟩ := furtherItems_sound hsound hd ho
    have hothers := Passes.after ho.leadsTo hafter
    exact ⟨_, f.next, [.symbol close], hpasses.trans hothers, rfl, hmore, x :: xs,
      List.forall_mem_cons.2 ⟨hx, hxs⟩, by simp [listed]⟩
  · exact absurd h not_blames_pure

end List

/-- What an inner expression blames stands behind the beginning of one. -/
def Begun (inner : Inner) : Prop :=
  ∀ {p : Precedence} {c : Cursor} {e : Diagnostic}, p ≤ .unary → c.Proper → Blames (inner p) c e →
    c.Begins (Written p.stratum) e

variable {inner : Inner} {c d : Cursor} {e : Diagnostic}

theorem Begun.item (hb : Begun inner) :
    ItemBegins (inner .lowest) Phrase.tokens (fun x => Derives .equality x.tokens x.tree) := by
  intro c e hc h
  refine (hb (by decide) hc h).imp ?_
  rintro ts ⟨tree, htree⟩
  exact ⟨⟨ts, tree⟩, htree, rfl⟩

theorem itemBegins_currentName : ItemBegins currentName (fun x => [.name x]) (fun _ => True) := by
  intro c e hc h
  obtain ⟨-, rfl⟩ := blames_currentName_iff.1 h
  exact ⟨[], c, [placeholder], .refl c, rfl, by simp [fillers], _, trivial, rfl⟩

variable [∀ p, Forward (inner p)]

theorem Begun.keyed (hi : Sound inner) (hb : Begun inner) :
    ItemBegins (keyed inner) pairTokens
      (fun x => Derives .equality x.1.tokens x.1.tree ∧ Derives .equality x.2.tokens x.2.tree) := by
  obtain ⟨v, hv⟩ := written_placeholder .equality
  intro c e hc h
  obtain h | ⟨k, c₁, hk, h⟩ := blames_bind_iff.1 h
  · refine (hb (by decide) hc h).within (.refl c)
      (show [.symbol .colon, placeholder] ⊆ fillers by simp [fillers]) ?_
    rintro ks ⟨k, hk⟩
    exact ⟨(⟨ks, k⟩, ⟨_, v⟩), ⟨hk, hv⟩, rfl⟩
  obtain ⟨ks, hks, hdk, -⟩ := hi (by decide) hc hk
  have hpasses := Passes.of_after hk.leadsTo hks
  have hc₁ := hk.proper hc
  obtain ⟨-, rfl⟩ | ⟨hcolon, h⟩ := blames_expect_bind.1 h
  · exact ⟨ks, c₁.next, [.symbol .colon, placeholder], hpasses, rfl, by simp [fillers],
      (⟨ks, k⟩, ⟨_, v⟩), ⟨hdk, hv⟩, rfl⟩
  have h := blames_bind_pure_iff.1 (blames_advance_bind.1 h)
  refine (hb (by decide) hc₁.next.next h).behind (hpasses.trans (hc₁.passes_symbol hcolon)) ?_
  rintro vs ⟨v, hv⟩
  exact ⟨(⟨ks, k⟩, ⟨vs, v⟩), ⟨hdk, hv⟩, by simp [pairTokens]⟩

/-- The statement of some form with an expression is a line. -/
theorem isLine_of_written (form : Form) {ts : List Token} (h : Written .equality ts) :
    IsLine (form.opening ++ ts) := by
  obtain ⟨e, he⟩ := h
  exact ⟨⟨form, ⟨ts, e⟩, false⟩, he, by simp [Line.tokens]⟩

/-- What a statement blames stands behind the beginning of one. -/
theorem begins_statement (hb : Begun inner) (hc : c.Proper) (h : Blames (statement inner) c e) :
    c.Begins IsLine e := by
  unfold statement at h
  rw [blames_current_bind] at h
  split at h
  · next hlet =>
    have hstart := hc.passes hlet (by simp)
    have hline {x : String} {ts : List Token} (hts : Written .equality ts) :
        IsLine (.keyword .letWord :: .name x :: .symbol .assign :: ts) :=
      isLine_of_written (.define x) hts
    obtain ⟨-, rfl⟩ | ⟨hname, h⟩ := blames_expect_bind.1 h
    · exact ⟨_, c.next, [placeholder, .symbol .assign, placeholder], hstart, rfl, by simp [fillers],
        hline (written_placeholder _)⟩
    obtain ⟨x, hx⟩ : ∃ x, c.next.current.value = .name x := exists_name_of_kind hname
    have hnamed := hstart.trans (hc.next.passes hx (by simp))
    obtain h | ⟨x', c', hread, h⟩ := blames_bind_iff.1 h
    · exact absurd hx ((blames_currentName_iff.1 h).1 x)
    obtain ⟨-, rfl⟩ := reads_currentName_iff.1 hread
    obtain ⟨-, rfl⟩ | ⟨hassign, h⟩ := blames_expect_bind.1 h
    · exact ⟨_, c.next.next, [.symbol .assign, placeholder], hnamed, rfl, by simp [fillers],
        hline (written_placeholder _)⟩
    have h := blames_skip_last_iff.1 (blames_advance_bind.1 h)
    exact (hb (by decide) hc.next.next.next h).behind
      (hnamed.trans (hc.next.passes_symbol hassign)) fun _ => hline
  · next hreturn =>
    have h := blames_skip_last_iff.1 (blames_advance_bind.1 h)
    exact (hb (by decide) hc.next h).behind (hc.passes hreturn (by simp)) fun _ =>
      isLine_of_written .leave
  · exact (hb (by decide) hc (blames_skip_last_iff.1 h)).imp fun _ => isLine_of_written .bare

omit [∀ p, Forward (inner p)] in
/-- A line that was read stands before the lines that are begun behind it. If the first token behind
it is blamed, the line is the last one instead. -/
theorem begins_areLines {l : Line} {last : List Token}
    (hl : Derives .equality l.value.tokens l.value.tree)
    (hpull : l.closed = false → d.pull ≤ .lowest) (hpasses : c.Passes l.tokens d.next) (hd : d.Proper) (hlast : last ⊆ fillers)
    (h : d.next.Begins (AreLines last) e) : c.Begins (AreLines last) e := by
  obtain ⟨ts, x, more, hx, hgot, hmore, lines, hlines, heq⟩ := h
  cases ts with
  | nil =>
    exact ⟨_, x, last, hpasses.trans hx, hgot, hlast, [l], Lines.nil.cons hl (by simp),
      by simp [lineTokens]⟩
  | cons t ts =>
    have ht : d.upcoming.value = t := hd.upcoming_of_after hx.values
    refine ⟨_, x, more, hpasses.trans hx, hgot, hmore, l :: lines, hlines.cons hl ?_, ?_⟩
    · intro hopen m hm u hu
      obtain ⟨rest, rfl⟩ := List.head?_eq_some_iff.1 hm
      obtain ⟨us, hus⟩ := List.head?_eq_some_iff.1 hu
      rw [lineTokens, List.flatMap_cons, hus] at heq
      obtain rfl : u = t := (List.cons.inj heq).1
      exact not_mem_continuing (ht ▸ hpull hopen)
    · rw [List.append_assoc, ← heq]
      simp only [lineTokens, List.flatMap_cons, List.append_assoc]

/-- What is blamed in a block stands behind the beginning of one. -/
theorem begins_blockItems (hi : Sound inner) (hb : Begun inner) {n : Nat} (hc : c.Proper)
    (h : Blames (blockItems inner n) c e) : c.Begins (AreLines [.symbol .rightBrace]) e := by
  have hlast : [.symbol .rightBrace] ⊆ fillers := by simp [fillers]
  have here (hgot : e.got = c.current) : c.Begins (AreLines [.symbol .rightBrace]) e :=
    ⟨[], c, [.symbol .rightBrace], .refl c, hgot, hlast, areLines_nil _⟩
  induction n generalizing c with
  | zero =>
    unfold blockItems at h
    exact here (congrArg Diagnostic.got (blames_throw_iff.1 (blames_current_bind.1 h)))
  | succ n ih =>
    unfold blockItems at h
    rw [blames_current_bind, blames_ite_iff, blames_ite_iff] at h
    obtain ⟨-, h⟩ | ⟨-, ⟨-, h⟩ | ⟨-, h⟩⟩ := h
    · exact absurd h not_blames_pure
    · exact here (congrArg Diagnostic.got (blames_throw_iff.1 h))
    obtain h | ⟨o, d, hfirst, h⟩ := blames_bind_iff.1 h
    · refine (begins_statement hb hc (blames_noting_iff.1 h)).within (.refl c) hlast ?_
      rintro ts ⟨l, hl, rfl⟩
      exact ⟨[l], Lines.nil.cons hl (by simp), by simp [lineTokens]⟩
    obtain ⟨s, rfl, hs⟩ := reads_noting_iff.1 hfirst
    have hd := hs.proper hc
    obtain ⟨l, hl, -, hvalues, hpull⟩ := statement_sound hi hc hs
    have h := blames_bind_pure_iff.1 (blames_advance_bind.1 h)
    exact begins_areLines hl hpull (.of_after hs.leadsTo hvalues) hd hlast
      (ih hd.next h fun hgot => ⟨[], d.next, _, .refl _, hgot, hlast, areLines_nil _⟩)

theorem begins_block (hi : Sound inner) (hb : Begun inner) (hc : c.Proper)
    (h : Blames (block inner) c e) : c.next.Begins (AreLines [.symbol .rightBrace]) e := by
  unfold block at h
  rw [blames_advance_bind, blames_remaining_bind] at h
  exact begins_blockItems hi hb hc.next h

/-- What is blamed behind the first block of a conditional stands behind the beginning of a second
one. -/
theorem begins_otherwise (hi : Sound inner) (hb : Begun inner) (hc : c.Proper)
    (h : Blames (otherwise inner) c e) :
    c.next.Begins (fun ts => ∃ lines, Lines lines ∧ otherwiseTokens (some lines) = ts) e := by
  unfold otherwise at h
  rw [blames_sees_bind, blames_ite_iff] at h
  simp only [decide_eq_true_eq] at h
  obtain ⟨helse, h⟩ | ⟨-, h⟩ := h
  · have helse' : c.next.Passes [.keyword .elseWord] c.next.next :=
      hc.next.passes (eq_of_kind_keyword helse) (by simp)
    obtain ⟨-, rfl⟩ | ⟨hbrace, h⟩ := blames_expect_bind.1 (blames_advance_bind.1 h)
    · exact ⟨_, _, [.symbol .leftBrace, .symbol .rightBrace], helse', rfl, by simp [fillers], [],
        .nil, rfl⟩
    refine (begins_block hi hb hc.next.next (blames_bind_pure_iff.1 h)).behind
      (helse'.trans (hc.next.passes_symbol hbrace)) ?_
    rintro _ ⟨lines, hlines, rfl⟩
    exact ⟨lines, hlines, rfl⟩
  · exact absurd h not_blames_pure

omit [∀ p, Forward (inner p)] in
/-- The parts of a conditional make one. -/
theorem written_conditional {ts us : List Token} (other : Option (List Line))
    (htest : Written .equality ts) (hchosen : AreLines [.symbol .rightBrace] us)
    (hother : ∀ lines ∈ other, Lines lines) :
    Written .atom (.keyword .ifWord :: .symbol .leftParen :: (ts ++ .symbol .rightParen ::
      .symbol .leftBrace :: (us ++ otherwiseTokens other))) := by
  obtain ⟨test, htest⟩ := htest
  obtain ⟨chosen, hchosen, rfl⟩ := hchosen
  have h := Derives.conditional chosen other htest hchosen.apart hchosen.derives
    (fun l hl => (hother l hl).apart) (fun l hl => (hother l hl).derives)
  simp only [blockTokens, List.cons_append, List.append_assoc, List.nil_append] at h ⊢
  exact ⟨_, h⟩

theorem begins_conditional (hi : Sound inner) (hb : Begun inner) (hc : c.Proper)
    (hif : c.current.value = .keyword .ifWord) (h : Blames (conditional inner) c e) :
    c.Begins (Written .atom) e := by
  have hstart := hc.passes hif (by simp)
  have hempty : AreLines [.symbol .rightBrace] [.symbol .rightBrace] := areLines_nil _
  have hplain {ts us : List Token} (hts : Written .equality ts)
      (hus : AreLines [.symbol .rightBrace] us) :
      Written .atom (.keyword .ifWord :: .symbol .leftParen :: (ts ++ .symbol .rightParen ::
        .symbol .leftBrace :: us)) := by
    simpa [otherwiseTokens] using written_conditional none hts hus (by simp)
  obtain ⟨-, rfl⟩ | ⟨hparen, h⟩ := blames_expect_bind.1 h
  · exact ⟨_, c.next, [.symbol .leftParen, placeholder, .symbol .rightParen, .symbol .leftBrace,
      .symbol .rightBrace], hstart, rfl, by simp [fillers],
      hplain (written_placeholder _) hempty⟩
  have hopen := hstart.trans (hc.passes_symbol hparen)
  obtain h | ⟨test, c₁, htest, h⟩ := blames_bind_iff.1 (blames_advance_bind.1 h)
  · refine (hb (by decide) hc.next.next h).within hopen
      (show [.symbol .rightParen, .symbol .leftBrace, .symbol .rightBrace] ⊆ fillers by
        simp [fillers]) fun ts hts => ?_
    simpa using hplain hts hempty
  obtain ⟨ts, hts, hder, -⟩ := hi (by decide) hc.next.next htest
  have hc₁ := htest.proper hc.next.next
  have htested := hopen.trans (.of_after htest.leadsTo hts)
  obtain ⟨-, rfl⟩ | ⟨hclose, h⟩ := blames_expect_bind.1 h
  · refine ⟨_, c₁.next, [.symbol .rightParen, .symbol .leftBrace, .symbol .rightBrace], htested,
      rfl, by simp [fillers], ?_⟩
    simpa using hplain ⟨_, hder⟩ hempty
  have hclosed := htested.trans (hc₁.passes_symbol hclose)
  obtain ⟨-, rfl⟩ | ⟨hbrace, h⟩ := blames_expect_bind.1 h
  · refine ⟨_, c₁.next.next, [.symbol .leftBrace, .symbol .rightBrace], hclosed, rfl,
      by simp [fillers], ?_⟩
    simpa using hplain ⟨_, hder⟩ hempty
  have hbraced := hclosed.trans (hc₁.next.passes_symbol hbrace)
  obtain h | ⟨chosen, c₂, hchosen, h⟩ := blames_bind_iff.1 h
  · refine (begins_block hi hb hc₁.next.next h).behind hbraced fun us hus => ?_
    simpa using hplain ⟨_, hder⟩ hus
  obtain ⟨lines, hlines, rfl, hafter⟩ := block_sound hi hc₁.next.next hchosen
  have hblock : c₁.next.next.next.Passes (lineTokens lines ++ [.symbol .rightBrace]) c₂.next :=
    .after hchosen.leadsTo (by rw [hafter, List.append_assoc]; rfl)
  have h := begins_otherwise hi hb (hchosen.proper hc₁.next.next) (blames_bind_pure_iff.1 h)
  refine h.behind (hbraced.trans hblock) ?_
  rintro _ ⟨others, hothers, rfl⟩
  simpa using written_conditional (some others) ⟨_, hder⟩ ⟨lines, hlines, rfl⟩
    (by simpa using hothers)

theorem begins_function (hi : Sound inner) (hb : Begun inner) (hc : c.Proper)
    (hfn : c.current.value = .keyword .fnWord) (h : Blames (function inner) c e) :
    c.Begins (Written .atom) e := by
  have hstart := hc.passes hfn (by simp)
  have hfunction (names : List String) {us : List Token} (hus : AreLines [.symbol .rightBrace] us) :
      Written .atom (.keyword .fnWord :: .symbol .leftParen :: (listed (names.map fun x => [.name x])
        ++ .symbol .rightParen :: .symbol .leftBrace :: us)) := by
    obtain ⟨lines, hlines, rfl⟩ := hus
    have h := Derives.function names lines hlines.apart hlines.derives
    simp only [blockTokens, enclosed, List.cons_append, List.append_assoc, List.nil_append] at h ⊢
    exact ⟨_, h⟩
  obtain ⟨-, rfl⟩ | ⟨hparen, h⟩ := blames_expect_bind.1 h
  · exact ⟨_, c.next, [.symbol .leftParen, .symbol .rightParen, .symbol .leftBrace,
      .symbol .rightBrace], hstart, rfl, by simp [fillers], hfunction [] (areLines_nil _)⟩
  have hopen := hstart.trans (hc.passes_symbol hparen)
  obtain h | ⟨parameters, c₁, hparameters, h⟩ := blames_bind_iff.1 h
  · refine (begins_items itemSound_currentName itemBegins_currentName (by simp [fillers]) hc.next
      h).within hopen
        (show [.symbol .leftBrace, .symbol .rightBrace] ⊆ fillers by simp [fillers]) ?_
    rintro _ ⟨names, -, rfl⟩
    simpa using hfunction names (areLines_nil _)
  obtain ⟨names, -, -, hnames⟩ := items_sound itemSound_currentName hc.next hparameters
  have hc₁ := hparameters.proper hc.next
  have hnamed : c.next.next.Passes (listed (names.map fun x => [.name x]) ++ [.symbol .rightParen])
      c₁.next := .after hparameters.leadsTo (by rw [hnames, List.append_assoc]; rfl)
  obtain ⟨-, rfl⟩ | ⟨hbrace, h⟩ := blames_expect_bind.1 h
  · refine ⟨_, c₁.next, [.symbol .leftBrace, .symbol .rightBrace], hopen.trans hnamed, rfl,
      by simp [fillers], ?_⟩
    simpa using hfunction names (areLines_nil _)
  refine (begins_block hi hb hc₁.next (blames_bind_pure_iff.1 h)).behind
    ((hopen.trans hnamed).trans (hc₁.passes_symbol hbrace)) fun us hus => ?_
  simpa using hfunction names hus

/-- What an operand blames stands behind the beginning of one. -/
theorem begins_operand (hi : Sound inner) (hb : Begun inner) (hc : c.Proper)
    (h : Blames (operand inner) c e) : c.Begins (Written .unary) e := by
  have missing (hgot : e.got = c.current) : c.Begins (Written .unary) e :=
    ⟨[], c, [placeholder], .refl c, hgot, by simp [fillers], written_placeholder _⟩
  have atom (hatom : c.Begins (Written .atom) e) : c.Begins (Written .unary) e :=
    hatom.imp fun _ hus => hus.mono (by decide)
  have negated {t : Token} (ht : c.current.value = t) (hne : t ≠ .finish)
      (hmem : t ∈ unaryOperators) (h : Blames (unary inner t) c e) :
      c.Begins (Written .unary) e := by
    have h := blames_bind_pure_iff.1 (blames_advance_bind.1 h)
    refine (hb (by decide) hc.next h).behind (hc.passes ht hne) ?_
    rintro us ⟨r, hr⟩
    exact ⟨_, .unary hmem hr⟩
  unfold operand at h
  rw [blames_current_bind] at h
  split at h
  · exact absurd h not_blames_pure
  · unfold integer at h
    obtain ⟨-, h⟩ | ⟨-, h⟩ := blames_ite_iff.1 h
    · exact absurd h not_blames_pure
    · exact missing (congrArg Diagnostic.got (blames_throw_iff.1 (blames_current_bind.1 h)))
  · exact absurd h not_blames_pure
  · exact absurd h not_blames_pure
  · exact absurd h not_blames_pure
  · next hif => exact atom (begins_conditional hi hb hc hif h)
  · next hfn => exact atom (begins_function hi hb hc hfn h)
  · next ht => exact negated ht (by simp) (by decide) h
  · next ht => exact negated ht (by simp) (by decide) h
  · next ht =>
    have hopen := hc.passes ht (by simp)
    have hgrouped {us : List Token} (hus : Written .equality us) :
        Written .atom (.symbol .leftParen :: us ++ [.symbol .rightParen]) := by
      obtain ⟨r, hr⟩ := hus
      exact ⟨r, .grouped hr⟩
    obtain h | ⟨r, c₁, hr, h⟩ := blames_bind_iff.1 (blames_advance_bind.1 h)
    · exact atom ((hb (by decide) hc.next h).within hopen (by simp [fillers]) fun _ => hgrouped)
    obtain ⟨ts, hts, hder, -⟩ := hi (by decide) hc.next hr
    obtain ⟨-, rfl⟩ | ⟨-, h⟩ := blames_expect_bind.1 h
    · exact atom ⟨_, c₁.next, [.symbol .rightParen], hopen.trans (.of_after hr.leadsTo hts), rfl,
        by simp [fillers], hgrouped ⟨r, hder⟩⟩
    · exact absurd h not_blames_pure
  · next ht =>
    have h := begins_items hi.item hb.item (by simp [fillers]) hc (blames_bind_pure_iff.1 h)
    refine atom (h.behind (hc.passes ht (by simp)) ?_)
    rintro _ ⟨xs, hxs, rfl⟩
    exact ⟨_, .array xs hxs⟩
  · next ht =>
    have h := begins_items hi.keyed (Begun.keyed hi hb) (by simp [fillers]) hc
      (blames_bind_pure_iff.1 h)
    refine atom (h.behind (hc.passes ht (by simp)) ?_)
    rintro _ ⟨xs, hxs, rfl⟩
    exact ⟨_, .hash xs (fun x hx => (hxs x hx).1) (fun x hx => (hxs x hx).2)⟩
  · exact missing (congrArg Diagnostic.got (blames_throw_iff.1 h))

/-- One round of the loop: what is blamed stands behind the beginning of something that goes on with
what was read before. -/
theorem begins_continued (hi : Sound inner) (hb : Begun inner) {s : Stratum} {ls : List Token}
    {left : Expr Unit} (hleft : Derives s ls left)
    (hpos : 0 < (Precedence.ofKind c.current.value.kind).rank)
    (hreach : (Precedence.ofKind c.current.value.kind).rank ≤ s.reach) (hc : c.Proper)
    (h : Blames (continued inner left) c e) {p : Precedence}
    (hp : p < .ofKind c.current.value.kind) :
    c.Begins (fun ts => Written p.stratum (ls ++ ts)) e := by
  have hcurrent := hc.passes rfl fun hf => by
    rw [hf] at hpos
    exact absurd hpos (by decide)
  have happlied (h6 : 6 ≤ s.reach) : Derives .applied ls left :=
    hleft.tighter (by cases s <;> first | exact absurd h6 (by decide) | decide)
  have looser {us : List Token} (h : Written .applied us) : Written p.stratum us :=
    h.mono (Nat.le_trans (stratum_le_unary p) (by decide))
  unfold continued at h
  rw [blames_current_bind] at h
  rcases operator_of_pull hpos with ht | ht | ⟨t, ht, htr⟩
  · rw [ht] at h hreach hcurrent
    have h := begins_items hi.item hb.item (by simp [fillers]) hc (blames_bind_pure_iff.1 h)
    refine h.behind hcurrent ?_
    rintro _ ⟨xs, hxs, rfl⟩
    exact looser ⟨_, .call xs (happlied hreach) hxs⟩
  · rw [ht] at h hreach hcurrent
    have hindex {us : List Token} (hus : Written .equality us) :
        Written p.stratum (ls ++ (.symbol .leftBracket :: us ++ [.symbol .rightBracket])) := by
      obtain ⟨i, hi⟩ := hus
      have h := Derives.index (happlied (Nat.le_of_succ_le hreach)) hi
      rw [List.append_assoc] at h
      exact looser ⟨_, h⟩
    obtain h | ⟨i, c₁, hindexed, h⟩ := blames_bind_iff.1 (blames_advance_bind.1 h)
    · exact (hb (by decide) hc.next h).within hcurrent (by simp [fillers]) fun _ => hindex
    obtain ⟨ts, hts, hder, -⟩ := hi (by decide) hc.next hindexed
    obtain ⟨-, rfl⟩ | ⟨-, h⟩ := blames_expect_bind.1 h
    · have hpasses := hcurrent.trans (.of_after hindexed.leadsTo hts)
      exact ⟨_, c₁.next, [.symbol .rightBracket], hpasses, rfl, by simp [fillers],
        hindex ⟨i, hder⟩⟩
    · exact absurd h not_blames_pure
  · obtain ⟨hstratum, hle, hparen, hbracket⟩ := stratum_ofKind ht
    split at h
    · next heq => exact absurd heq hparen
    · next heq => exact absurd heq hbracket
    have h := blames_bind_pure_iff.1 (blames_advance_bind.1 h)
    refine (hb hle hc.next h).behind hcurrent ?_
    rintro us ⟨r, hr⟩
    rw [hstratum] at hr
    have hbinary := Derives.binary ht (hleft.tighter (stratum_le_of_reach ht (htr ▸ hreach))) hr
    exact Written.mono ⟨_, hbinary⟩ (stratum_le_of_lt ht (htr ▸ hp))

/-- What is blamed in the loop over operators stands behind the beginning of an expression that
begins with what was read before. -/
theorem begins_extended (hi : Sound inner) (hb : Begun inner) {p : Precedence} {n : Nat}
    {s : Stratum} {ls : List Token} {left : Expr Unit} (hleft : Derives s ls left)
    (hreach : c.pull.rank ≤ s.reach) (hc : c.Proper) (h : Blames (extended inner p n left) c e) :
    c.next.Begins (fun ts => Written p.stratum (ls ++ ts)) e := by
  induction n generalizing c s ls left with
  | zero => exact absurd h not_blames_pure
  | succ n ih =>
    unfold extended at h
    rw [blames_upcoming_bind, blames_ite_iff] at h
    obtain ⟨hlt, h⟩ | ⟨-, h⟩ := h
    · have hpos : 0 < (Precedence.ofKind c.next.current.value.kind).rank :=
        Nat.lt_of_le_of_lt (Nat.zero_le _) hlt
      obtain h | ⟨longer, c₁, hlonger, h⟩ := blames_bind_iff.1 (blames_advance_bind.1 h)
      · exact begins_continued hi hb hleft hpos hreach hc.next h hlt
      obtain ⟨t, ts, hvalues, hder, hreach', -⟩ :=
        continued_sound hi hleft hpos hreach hc.next hlonger
      refine (ih hder hreach' (hlonger.proper hc.next) h).behind (.of_after hlonger.leadsTo hvalues)
        fun us hus => ?_
      rwa [← List.append_assoc]
    · exact absurd h not_blames_pure

omit [∀ p, Forward (inner p)] in
/-- What an expression of any depth blames stands behind the beginning of an expression. -/
theorem begun_expression (depth : Nat) : Begun (expression depth) := by
  induction depth with
  | zero =>
    intro p c e _ _ h
    unfold expression at h
    exact ⟨[], c, [placeholder], .refl c,
      congrArg Diagnostic.got (blames_throw_iff.1 (blames_current_bind.1 h)), by simp [fillers],
      written_placeholder _⟩
  | succ depth ih =>
    intro p c e _ hc h
    unfold expression at h
    obtain h | ⟨first, c₁, hfirst, h⟩ := blames_bind_iff.1 h
    · exact (begins_operand (expression_sound depth) ih hc h).imp fun _ hus =>
        hus.mono (stratum_le_unary p)
    rw [blames_remaining_bind] at h
    obtain ⟨s, ts, hts, hder, -, hreach⟩ := operand_sound (expression_sound depth) hc hfirst
    exact (begins_extended (expression_sound depth) ih hder hreach (hfirst.proper hc) h).behind
      (.of_after hfirst.leadsTo hts) fun us hus => hus

omit [∀ p, Forward (inner p)] in
/-- The first token that is blamed in a text stands behind the beginning of a program. -/
theorem begins_programItems {n : Nat} (hc : c.Proper) (h : Blames (liftM (programItems n)) c e) :
    c.Begins (AreLines []) e := by
  induction n generalizing c with
  | zero => exact absurd h not_blames_pure
  | succ n ih =>
    rw [blames_congr (outcome_programItems_succ n c) rfl, blames_ite_iff] at h
    obtain ⟨-, h⟩ | ⟨-, h⟩ := h
    · exact absurd h not_blames_pure
    have hdepth : Begun (expression c.pending.length) := begun_expression _
    obtain h | ⟨o, d, hfirst, h⟩ := blames_bind_iff.1 h
    · refine (begins_statement hdepth hc (blames_noting_iff.1 h)).imp ?_
      rintro ts ⟨l, hl, rfl⟩
      exact ⟨[l], Lines.nil.cons hl (by simp), by simp [lineTokens]⟩
    obtain ⟨s, rfl, hs⟩ := reads_noting_iff.1 hfirst
    have hd := hs.proper hc
    obtain ⟨l, hl, -, hvalues, hpull⟩ := statement_sound (expression_sound _) hc hs
    have h := blames_bind_pure_iff.1 (blames_advance_bind.1 h)
    exact begins_areLines hl hpull (.of_after hs.leadsTo hvalues) hd (List.nil_subset _)
      (ih hd.next h)

end Grammar

end Monkey
