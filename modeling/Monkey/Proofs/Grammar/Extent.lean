import Monkey.Proofs.Diagnosis.Locality
import Monkey.Proofs.Grammar.Brackets
import Monkey.Proofs.Grammar.Completeness
import Monkey.Proofs.Reading.Landing

/-!
# How far an expression goes

An expression is read from a run of tokens, which begins with the current token and ends with the one
that the cursor stops on. The run is an expression of the grammar, so its brackets are nested. What is
read depends on the run and on the token behind it, which ends the expression, and on nothing else. It
does not even depend on the degree, as long as this is loose enough for that token to end the expression
and no looser than that: a loop that goes on at some degree goes on at every looser one.
-/

namespace Monkey

namespace Cursor

variable {c d c' : Cursor} {p : Precedence}

/-- The tokens from the current one of a cursor up to the current one of a later cursor. -/
def upTo (c d : Cursor) : List (Spanned Token) :=
  c.pending.take (c.pending.length - d.pending.tail.length)

/-- The tokens from the current one of a cursor up to the current one of a later cursor, without their
places. -/
def valuesUpTo (c d : Cursor) : List Token := (c.upTo d).map (·.value)

/-- The upcoming token ends an expression that is read up to the degree. -/
def Stops (c : Cursor) (p : Precedence) : Prop :=
  c.upcoming.value = .symbol .semicolon ∨ c.pull ≤ p

/-- A semicolon binds nothing. -/
theorem stops_iff : c.Stops p ↔ c.pull ≤ p := by
  refine ⟨fun h => h.elim (fun hsemicolon => ?_) id, .inr⟩
  rw [pull, hsemicolon]
  exact Nat.zero_le _

/-- What stands up to a later token, and what stands behind it, are all tokens. -/
theorem LeadsTo.upTo_append (h : c.LeadsTo d) : c.upTo d ++ d.pending.tail = c.pending := by
  obtain ⟨run, hrun⟩ := (List.tail_suffix d.pending).trans h.pending
  rw [upTo, ← hrun, List.length_append, Nat.add_sub_cancel, List.take_left]

theorem LeadsTo.valuesUpTo_append (h : c.LeadsTo d) : c.valuesUpTo d ++ d.after = c.values := by
  rw [valuesUpTo, after, ← List.map_append, h.upTo_append, values]

theorem LeadsTo.valuesUpTo_eq (h : c.LeadsTo d) {ts : List Token} (hts : c.values = ts ++ d.after) :
    c.valuesUpTo d = ts := by
  rw [← h.valuesUpTo_append] at hts
  exact List.append_cancel_right hts

/-- A later token of the stream is the last one of those up to it. -/
theorem LeadsTo.exists_upTo_eq (h : c.LeadsTo d) (hne : d.pending ≠ []) :
    ∃ before, c.pending = before ++ d.pending ∧ c.upTo d = before ++ [d.current] := by
  obtain ⟨before, hbefore⟩ := h.pending
  have htail : d.pending = d.current :: d.pending.tail := by
    rw [current]
    cases hd : d.pending with
    | nil => exact absurd hd hne
    | cons t ts => rfl
  have hall : c.upTo d ++ d.pending.tail = (before ++ [d.current]) ++ d.pending.tail := by
    rw [h.upTo_append, ← hbefore, List.append_assoc, List.singleton_append, ← htail]
  exact ⟨before, hbefore.symm, List.append_cancel_right hall⟩

theorem LeadsTo.head?_upTo (h : c.LeadsTo d) (hne : d.pending ≠ []) :
    (c.upTo d).head? = some c.current := by
  obtain ⟨before, -, hrun⟩ := h.exists_upTo_eq hne
  have hall := h.upTo_append
  cases hfirst : c.upTo d with
  | nil => exact absurd (hrun ▸ hfirst) (List.append_ne_nil_of_right_ne_nil _ (List.cons_ne_nil _ _))
  | cons t ts =>
    rw [hfirst] at hall
    rw [current, ← hall]
    rfl

theorem LeadsTo.getLast?_upTo (h : c.LeadsTo d) (hne : d.pending ≠ []) :
    (c.upTo d).getLast? = some d.current := by
  obtain ⟨before, -, hrun⟩ := h.exists_upTo_eq hne
  rw [hrun, List.getLast?_concat]

theorem Proper.peek_value (h : c.Proper) (i : Nat) :
    (c.peek i).value = (c.values.drop i).headD .finish := by
  rw [peek, values, ← List.map_drop]
  cases c.pending.drop i with
  | nil => exact h.finish
  | cons t ts => rfl

/-- Two cursors with the same tokens in front of them, and the same one behind those, see the same. -/
theorem Proper.alike (h : c.Proper) (h' : c'.Proper) {run ts us : List Token}
    (hvalues : c.values = run ++ ts) (hvalues' : c'.values = run ++ us)
    (hnext : us.headD .finish = ts.headD .finish) :
    ∀ i < run.length + 1, (c.peek i).value = (c'.peek i).value := by
  intro i hi
  have hzero : i - run.length = 0 := by omega
  rw [h.peek_value, h'.peek_value, hvalues, hvalues', List.drop_append, List.drop_append, hzero,
    List.drop_zero, List.drop_zero]
  cases run.drop i with
  | nil => exact hnext.symm
  | cons t ts => rfl

end Cursor

namespace Grammar

open Reader

/-- The tokens are an expression in parentheses. -/
def Parenthesized (ts : List Token) (e : Expr Unit) : Prop :=
  ∃ us, ts = .symbol .leftParen :: us ++ [.symbol .rightParen] ∧ Derives .equality us e

/-- An operator between two operands is one of the stratum or of a tighter one, unless there are
parentheses around all of it. -/
theorem Derives.operator_of_binary {s : Stratum} {ts : List Token} {l r : Expr Unit} {operator : Token}
    (h : Derives s ts (.binary l operator r)) (hopen : ¬ Parenthesized ts (.binary l operator r)) :
    ∃ t : Stratum, s ≤ t ∧ operator ∈ t.operators := by
  generalize he : Expr.binary l operator r = e at h hopen
  induction h with
  | tighter le _ ih =>
    obtain ⟨t, hle, hmem⟩ := ih he hopen
    exact ⟨t, Nat.le_trans le hle, hmem⟩
  | binary mem _ _ _ _ =>
    cases he
    exact ⟨_, Nat.le_refl _, mem⟩
  | grouped inner _ => exact absurd ⟨_, rfl, inner⟩ hopen
  | _ => cases he

section Degree

variable {p q : Precedence} {c d : Cursor} {e : Expr Unit}

/-- A loop that stops before a token stops there at every looser degree that this token does not bind
more tightly, after the same rounds. -/
theorem reads_extended_of_le {inner : Inner} [∀ p, Forward (inner p)] (hq : q ≤ p) (hstop : d.pull ≤ q)
    {n : Nat} {left : Expr Unit} (h : Reads (extended inner p n left) c e d) :
    Reads (extended inner q n left) c e d := by
  induction n generalizing c left with
  | zero => exact h
  | succ n ih =>
    unfold extended at h ⊢
    rw [reads_upcoming_bind, reads_ite_iff] at h ⊢
    rcases h with ⟨hlt, h⟩ | ⟨-, h⟩
    · refine .inl ⟨Nat.lt_of_le_of_lt hq hlt, ?_⟩
      rw [reads_advance_bind] at h ⊢
      obtain ⟨longer, c₁, hlonger, h⟩ := reads_bind_iff.1 h
      exact hlonger.bind (ih h)
    · obtain ⟨rfl, rfl⟩ := reads_pure_iff.1 h
      exact .inr ⟨Nat.not_lt.2 hstop, reads_pure_iff.2 ⟨rfl, rfl⟩⟩

/-- What is read up to some degree is read up to every looser one at which the upcoming token ends it.
-/
theorem reads_expression_of_le (hq : q ≤ p) (hstop : d.Stops q) {depth : Nat}
    (h : Reads (expression depth p) c e d) : Reads (expression depth q) c e d := by
  cases depth with
  | zero => exact h
  | succ depth =>
    unfold expression at h ⊢
    obtain ⟨first, c₁, hfirst, h⟩ := reads_bind_iff.1 h
    refine hfirst.bind ?_
    rw [reads_remaining_bind] at h ⊢
    exact reads_extended_of_le hq (Cursor.stops_iff.1 hstop) h

/-- From a cursor that sees the same run and the same token behind it, the same is read. -/
theorem exists_reads_beside (hc : c.Proper) {depth : Nat} (hdepth : c.pending.length ≤ depth)
    (h : Reads (expression depth p) c e d) {c' : Cursor} (hc' : c'.Proper) {depth' : Nat}
    (hdepth' : c'.pending.length ≤ depth') {rest : List Token}
    (hvalues : c'.values = c.valuesUpTo d ++ rest) (hnext : rest.headD .finish = d.upcoming.value) :
    ∃ d', Reads (expression depth' p) c' e d' ∧ c'.valuesUpTo d' = c.valuesUpTo d ∧ d'.after = rest := by
  have hne := Lands.pending_ne_nil hc h.outcome_eq
  obtain ⟨before, hpending, hrun⟩ := h.leadsTo.exists_upTo_eq hne
  have hlength : (c.valuesUpTo d).length = before.length + 1 := by
    rw [Cursor.valuesUpTo, hrun, List.length_map, List.length_append, List.length_singleton]
  rw [(h.proper hc).upcoming_eq] at hnext
  have hbeside : c.Beside depth depth' ((c.valuesUpTo d).length + 1) c' :=
    ⟨hc, hc', hdepth, hdepth', hc.alike hc' h.leadsTo.valuesUpTo_append.symm hvalues hnext⟩
  obtain ⟨j, hj, hsame⟩ := ((local_expression depth depth' p).follows hbeside).read e d h
  have hplace : j = before.length := by
    have hpos := List.length_pos_iff.2 hne
    have hfirst := congrArg List.length hpending
    have hlater := congrArg List.length hj
    rw [List.length_append] at hfirst
    rw [List.length_drop] at hlater
    omega
  obtain ⟨d', hd', hj'⟩ := hsame (by omega)
  have hafter : d'.after = rest := by
    have hdrop : d'.after = c'.values.drop (c.valuesUpTo d).length := by
      rw [Cursor.after, hj', List.tail_drop, List.map_drop, hlength, hplace, Cursor.values]
    rw [hdrop, hvalues, List.drop_left]
  exact ⟨d', hd', hd'.leadsTo.valuesUpTo_eq (hafter ▸ hvalues), hafter⟩

end Degree

end Grammar

open Reader Grammar

/-- An expression is read, up to any degree, from a run of tokens of the stream: from the current token up
to the one that the cursor stops on. There is neither the end nor a character without a meaning among them,
and their brackets are nested. The token behind the run ends the expression, and an operator that is not
in parentheses of the run binds more tightly than the degree. From any other cursor at the same run with
the same token behind it, the same expression is read from the same run, up to this degree and up to
every looser one at which that token ends it. -/
theorem expression_decided_by_run {depth : Nat} {p : Precedence} {c d : Cursor} {e : Expr Unit}
    (hc : c.Proper) (hdepth : c.pending.length ≤ depth) (h : Reads (expression depth p) c e d) :
    (c.upTo d ++ d.pending.tail = c.pending ∧ (c.upTo d).head? = some c.current ∧
        (c.upTo d).getLast? = some d.current) ∧
      (∀ t ∈ c.valuesUpTo d, t.kind ≠ .finish ∧ t.kind ≠ .illegal) ∧
      Balanced (c.valuesUpTo d) ∧
      d.Stops p ∧
      (∀ l operator r, e = .binary l operator r → ¬ Parenthesized (c.valuesUpTo d) e →
        p < .ofKind operator.kind) ∧
      ∀ (c' : Cursor) (depth' : Nat) (rest : List Token) (q : Precedence), c'.Proper →
        c'.pending.length ≤ depth' → c'.values = c.valuesUpTo d ++ rest →
        rest.headD .finish = d.upcoming.value → q ≤ p → d.Stops q →
        ∃ d', Reads (expression depth' q) c' e d' ∧ c'.valuesUpTo d' = c.valuesUpTo d ∧
          d'.after = rest := by
  have hleads := h.leadsTo
  have hne := Lands.pending_ne_nil hc h.outcome_eq
  obtain ⟨ts, hts, hder, hpull⟩ := derives_of_reads hc h
  rw [← hleads.valuesUpTo_eq hts] at hder
  refine ⟨⟨hleads.upTo_append, hleads.head?_upTo hne, hleads.getLast?_upTo hne⟩,
    hder.composed (composed_forall (fun t ht => ?_) fun s _ => ?_), hder.composed composed_balanced,
    Cursor.stops_iff.2 hpull, ?_, ?_⟩
  · cases t <;> first | exact absurd ht id | simp [Token.kind]
  · simp [Token.kind]
  · rintro l operator r rfl hopen
    obtain ⟨t, hle, hmem⟩ := hder.operator_of_binary hopen
    exact (rank_ofKind hmem).2.2 p hle
  · intro c' depth' rest q hc' hdepth' hvalues hnext hq hstop
    exact exists_reads_beside hc hdepth (reads_expression_of_le hq hstop h) hc' hdepth' hvalues hnext

/-- In front of a comparison, a product with an array is read up to the degree of sums. It is read up to
the degree of comparisons as well, also where nothing can be compared. -/
theorem product_before_comparison_decided_by_run :
    let c := Cursor.start ⟨[⟨.symbol .leftBracket, ⟨0, 1⟩⟩, ⟨.name "x", ⟨1, 2⟩⟩,
      ⟨.symbol .rightBracket, ⟨2, 3⟩⟩, ⟨.symbol .asterisk, ⟨3, 4⟩⟩, ⟨.name "y", ⟨4, 5⟩⟩,
      ⟨.symbol .less, ⟨5, 6⟩⟩, ⟨.name "z", ⟨6, 7⟩⟩], ⟨.finish, ⟨7, 7⟩⟩⟩
    let d : Cursor := { c with pending := c.pending.drop 4, taken := 6 }
    let c' := Cursor.start ⟨[⟨.symbol .leftBracket, ⟨1, 2⟩⟩, ⟨.name "x", ⟨2, 3⟩⟩,
      ⟨.symbol .rightBracket, ⟨3, 4⟩⟩, ⟨.symbol .asterisk, ⟨5, 6⟩⟩, ⟨.name "y", ⟨7, 8⟩⟩,
      ⟨.symbol .less, ⟨9, 10⟩⟩, ⟨.symbol .rightParen, ⟨10, 11⟩⟩], ⟨.finish, ⟨11, 11⟩⟩⟩
    let e : Expr Unit := .binary (.array [.name "x"]) (.symbol .asterisk) (.name "y")
    c.Proper ∧ Reads (expression 7 .sum) c e d ∧ Balanced (c.valuesUpTo d) ∧
      ¬ Parenthesized (c.valuesUpTo d) e ∧ Precedence.sum < .ofKind (.symbol .asterisk) ∧
      c'.Proper ∧ Precedence.comparison ≤ .sum ∧ d.Stops .comparison ∧
      ∃ d', Reads (expression 7 .comparison) c' e d' ∧ c'.valuesUpTo d' = c.valuesUpTo d ∧
        d'.after = [.symbol .less, .symbol .rightParen] := by
  intro c d c' e
  have hc : c.Proper := ⟨rfl, by simp [c, Cursor.start, Cursor.values]⟩
  have hc' : c'.Proper := ⟨rfl, by simp [c', Cursor.start, Cursor.values]⟩
  have hread : Reads (expression 7 .sum) c e d := ⟨rfl, rfl⟩
  have hstop : d.Stops .comparison := Cursor.stops_iff.2 (by decide)
  have hopen : ¬ Parenthesized (c.valuesUpTo d) e := by
    rintro ⟨us, hus, -⟩
    cases hus
  obtain ⟨-, -, hbalanced, -, hbinds, hsame⟩ := expression_decided_by_run hc (Nat.le_refl 7) hread
  exact ⟨hc, hread, hbalanced, hopen, hbinds _ _ _ rfl hopen, hc', by decide, hstop,
    hsame c' 7 [.symbol .less, .symbol .rightParen] .comparison hc' (Nat.le_refl 7) rfl rfl (by decide)
      hstop⟩

end Monkey
