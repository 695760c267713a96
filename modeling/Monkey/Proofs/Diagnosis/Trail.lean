import Monkey.Proofs.Diagnosis.Blame
import Monkey.Proofs.Grammar.Program

/-!
# The trail of diagnostics

Every diagnostic is found at a cursor whose current or upcoming token it blames, and once it is
noted, the cursor moves on. So the tokens that are blamed come one after another, and none of them
is blamed a third time. There is a note for at most every token: what is not spent on one before the
end of the stream is left for the blocks that are still open there.
-/

namespace Monkey

/-- What the diagnostic says of the token that it blames is so. -/
def Diagnostic.Genuine : Diagnostic → Prop
  | expected kind got => got.value.kind ≠ kind
  | noOperand got => ∀ s t ts e, t.kind = got.value.kind → ¬ Grammar.Derives s (t :: ts) e
  | tooLarge got =>
    ∃ digits, got.value = .integer digits ∧ Reader.largestInteger < decimal digits.toList

/-- The diagnostic is genuine, and it blames a token that the cursor sees. -/
structure Diagnostic.FoundAt (e : Diagnostic) (c : Cursor) : Prop where
  /-- What it says is so. -/
  genuine : e.Genuine
  /-- It blames the current token or the upcoming one. -/
  near : e.got = c.current ∨ e.got = c.upcoming

/-- Whether a token can begin an expression depends on its kind alone. -/
theorem Grammar.Starts.of_kind {t u : Token} (h : Starts t) (hkind : t.kind = u.kind) :
    Starts u := by
  cases h with
  | name text => cases u <;> cases hkind; exact .name _
  | integer digits => cases u <;> cases hkind; exact .integer _
  | string text => cases u <;> cases hkind; exact .string _
  | keyword hk => exact Cursor.eq_of_kind_keyword hkind.symm ▸ .keyword hk
  | symbol hs => exact Cursor.eq_of_kind_symbol hkind.symm ▸ .symbol hs

namespace Cursor

/-- From one cursor to a later one, diagnostics have been found on the way, one after another, and
each time the cursor has moved on. -/
inductive Trail (c : Cursor) : Cursor → Prop where
  /-- No diagnostic has been found. -/
  | still {d : Cursor} (pending : d.pending <:+ c.pending) (finish : d.finish = c.finish)
      (noted : d.noted = c.noted) : Trail c d
  /-- A diagnostic has been found where some trail leads to. -/
  | found {x d : Cursor} {e : Diagnostic} (trail : Trail c x) (here : e.FoundAt x)
      (pending : d.pending <:+ x.pending.tail) (finish : d.finish = x.finish)
      (noted : d.noted = e :: x.noted) : Trail c d

variable {c d e : Cursor}

theorem Trail.refl (c : Cursor) : c.Trail c := .still (List.suffix_refl _) rfl rfl

theorem Trail.next (c : Cursor) : c.Trail c.next := .still (List.tail_suffix _) rfl rfl

theorem Trail.trans (h : c.Trail d) (h' : d.Trail e) : c.Trail e := by
  induction h' with
  | still pending finish noted =>
    cases h with
    | still pending' finish' noted' =>
      exact .still (pending.trans pending') (finish.trans finish') (noted.trans noted')
    | found trail here pending' finish' noted' =>
      exact .found trail here (pending.trans pending') (finish.trans finish') (noted.trans noted')
  | found _ here pending finish noted ih => exact .found ih here pending finish noted

theorem Trail.leadsTo (h : c.Trail d) : c.LeadsTo d := by
  induction h with
  | still pending finish noted => exact ⟨pending, finish, noted ▸ List.suffix_refl _⟩
  | found _ _ pending finish noted ih =>
    exact ⟨(pending.trans (List.tail_suffix _)).trans ih.pending, finish.trans ih.finish,
      ih.noted.trans (noted ▸ List.suffix_cons _ _)⟩

/-- A diagnostic is found, noted, and left behind. -/
theorem Trail.note (h : c.Trail d) {f : Diagnostic} (hf : f.FoundAt d) :
    c.Trail (d.note f).next := .found h hf (List.suffix_refl _) rfl rfl

/-- What there is for notes: one for every token that is left, besides those that there are. -/
def funds (c : Cursor) : Nat := c.noted.length + c.pending.length

/-- What there is for notes in the middle of a statement: at the end of the stream, there has to be
one for a diagnostic that is on its way. -/
def credit (c : Cursor) : Nat := c.noted.length + max c.pending.length 1

theorem credit_next_le (c : Cursor) : c.next.credit ≤ c.credit := by
  simp only [credit, next, List.length_tail]
  omega

/-- The token that is passed at the beginning of a block pays for what is on its way at the end of
it. -/
theorem credit_le_of_funds_le (h : d.pending <:+ c.next.pending) (hfunds : d.funds ≤ c.next.funds) :
    d.credit ≤ c.credit := by
  have hshort := h.length_le
  simp only [funds, credit, next, List.length_tail] at hfunds hshort ⊢
  omega

end Cursor

namespace Reader

variable {α β : Type} {worth : Cursor → Nat}

/-- From the cursor, diagnostics are found in order, the cursor is not worth more in the end, and
what is thrown is found where the step stops. -/
structure Orderly (worth : Cursor → Nat) (r : Reader α) (c : Cursor) : Prop where
  /-- Diagnostics are found one after another. -/
  trail : c.Trail (outcome r c).2
  /-- They are paid for. -/
  worth_le : worth (outcome r c).2 ≤ worth c
  /-- The diagnostic that is thrown is found as well. -/
  thrown : ∀ e, (outcome r c).1 = .error e → e.FoundAt (outcome r c).2

/-- The step is orderly from every cursor with at most the given number of tokens left. -/
class Ordered (n : Nat) (r : Reader α) : Prop where
  /-- The step is orderly. -/
  orderly : ∀ c : Cursor, c.Proper → c.pending.length ≤ n → Orderly Cursor.credit r c

namespace Orderly

variable {r : Reader α} {c d : Cursor}

theorem of_ok {a : α} (h : outcome r c = (.ok a, d)) (trail : c.Trail d)
    (hworth : worth d ≤ worth c) :
    Orderly worth r c where
  trail := by rwa [h]
  worth_le := by rwa [h]
  thrown := by
    rw [h]
    rintro _ ⟨⟩

theorem of_throw {e : Diagnostic} (h : outcome r c = (.error e, c)) (he : e.FoundAt c) :
    Orderly worth r c where
  trail := by
    rw [h]
    exact .refl c
  worth_le := by rw [h]
  thrown := by
    rw [h]
    rintro _ ⟨⟩
    exact he

/-- A step that goes on as another one from a later cursor. -/
theorem of_later {s : Reader α} (h : outcome r c = outcome s d) (trail : c.Trail d)
    (hworth : worth d ≤ worth c) (hs : Orderly worth s d) : Orderly worth r c where
  trail := by
    rw [h]
    exact trail.trans hs.trail
  worth_le := by
    rw [h]
    exact hs.worth_le.trans hworth
  thrown := by
    rw [h]
    exact hs.thrown

theorem congr {s : Reader α} (h : outcome r c = outcome s c) (hs : Orderly worth s c) :
    Orderly worth r c := .of_later h (.refl c) (Nat.le_refl _) hs

theorem current_bind {f : Spanned Token → Reader α} (hf : Orderly worth (f c.current) c) :
    Orderly worth (current >>= f) c := hf.congr (s := f c.current) rfl

/-- One step after another goes on in order. -/
theorem bind {f : α → Reader β} (h : Orderly worth r c)
    (hf : ∀ a d, outcome r c = (.ok a, d) → Orderly worth (f a) d) : Orderly worth (r >>= f) c := by
  obtain ⟨trail, hworth, thrown⟩ := h
  have ho := outcome_bind r f c
  rcases hr : outcome r c with ⟨e | a, d⟩
  · rw [hr] at trail hworth thrown ho
    simp only at ho
    refine ⟨ho ▸ trail, ho ▸ hworth, ?_⟩
    rw [ho]
    rintro _ ⟨⟩
    exact thrown e rfl
  · rw [hr] at trail hworth ho
    exact .of_later ho trail hworth (hf a d hr)

end Orderly

section Instances

variable {n : Nat}

instance (a : α) : Ordered n (pure a : Reader α) :=
  ⟨fun c _ _ => .of_ok rfl (.refl c) (Nat.le_refl _)⟩

instance : Ordered n current := ⟨fun c _ _ => .of_ok rfl (.refl c) (Nat.le_refl _)⟩

instance : Ordered n upcoming := ⟨fun c _ _ => .of_ok rfl (.refl c) (Nat.le_refl _)⟩

instance (kind : Kind) : Ordered n (sees kind) :=
  ⟨fun c _ _ => .of_ok rfl (.refl c) (Nat.le_refl _)⟩

instance : Ordered n remaining := ⟨fun c _ _ => .of_ok rfl (.refl c) (Nat.le_refl _)⟩

instance : Ordered n advance := ⟨fun c _ _ => .of_ok rfl (.next c) c.credit_next_le⟩

instance (kind : Kind) : Ordered n (skip kind) := by
  refine ⟨fun c _ _ => .of_ok (outcome_skip kind c) ?_ ?_⟩
  · split
    · exact .next c
    · exact .refl c
  · split
    · exact c.credit_next_le
    · exact Nat.le_refl _

instance (kind : Kind) : Ordered n (expect kind) where
  orderly c _ _ := by
    have ho := outcome_expect kind c
    by_cases h : c.upcoming.value.kind = kind
    · rw [if_pos h] at ho
      exact .of_ok ho (.next c) c.credit_next_le
    · rw [if_neg h] at ho
      exact .of_throw ho ⟨h, .inr rfl⟩

instance : Ordered n currentName where
  orderly c _ _ := by
    refine .current_bind ?_
    split
    · exact .of_ok rfl (.refl c) (Nat.le_refl _)
    · next hn =>
      refine .of_throw rfl ⟨fun h => ?_, .inl rfl⟩
      cases hv : c.current.value with
      | name x => exact hn x hv
      | _ =>
        rw [hv] at h
        cases h

instance (priority := low) {r : Reader α} {f : α → Reader β} [hr : Ordered n r]
    [hf : ∀ a, Ordered n (f a)] : Ordered n (r >>= f) where
  orderly c hc hn := by
    have h := hr.orderly c hc hn
    refine h.bind fun a d hd => ?_
    have hl := h.trail.leadsTo
    rw [hd] at hl
    exact (hf a).orderly d (hc.of_leadsTo hl) (hl.pending.length_le.trans hn)

/-- What follows on the next token has one token fewer before it. -/
instance {g : Unit → Reader β} [hg : Ordered n (g ())] : Ordered (n + 1) (advance >>= g) where
  orderly c hc hn := by
    refine ((inferInstance : Ordered (n + 1) advance).orderly c hc hn).bind ?_
    rintro _ _ ⟨⟩
    refine hg.orderly _ hc.next ?_
    rw [Cursor.next, List.length_tail]
    omega

instance {kind : Kind} {g : Unit → Reader β} [hg : Ordered n (g ())] :
    Ordered (n + 1) (expect kind >>= g) where
  orderly c hc hn := by
    refine ((inferInstance : Ordered (n + 1) (expect kind)).orderly c hc hn).bind fun a d hd => ?_
    rw [outcome_expect] at hd
    split at hd <;> cases hd
    refine hg.orderly _ hc.next ?_
    rw [Cursor.next, List.length_tail]
    omega

instance {p : Prop} [Decidable p] {r s : Reader α} [hr : Ordered n r] [hs : Ordered n s] :
    Ordered n (if p then r else s) := by
  split
  · exact hr
  · exact hs

instance ordered_furtherItems {item : Reader α} [Ordered n item] (bound : Nat) :
    Ordered n (furtherItems item bound) := by
  induction bound with
  | zero => exact inferInstanceAs (Ordered n (pure []))
  | succ bound ih =>
    unfold furtherItems
    infer_instance

instance ordered_items {item : Reader α} [Ordered n item] (close : Symbol) :
    Ordered n (items close item) := by
  unfold items
  infer_instance

/-- The items of a list stand behind its opening token. -/
instance (priority := high) ordered_items_succ {item : Reader α} [Ordered n item] (close : Symbol) :
    Ordered (n + 1) (items close item) := by
  unfold items
  infer_instance

section Inner

variable {inner : Inner} [hinner : ∀ p, Ordered n (inner p)]

instance (operator : Token) : Ordered (n + 1) (unary inner operator) := by
  unfold unary
  infer_instance

instance : Ordered (n + 1) (grouped inner) := by unfold grouped; infer_instance

instance : Ordered n (define inner) := by unfold define; infer_instance

instance : Ordered n (leave inner) := by unfold leave; infer_instance

instance : Ordered n (bare inner) := by unfold bare; infer_instance

instance ordered_statement : Ordered n (statement inner) where
  orderly c hc hn := by
    refine .current_bind ?_
    split <;> exact Ordered.orderly c hc hn

instance : Ordered n (keyed inner) := by unfold keyed; infer_instance

/-- A statement whose diagnostic is noted, and the next token: that one pays for the note. -/
theorem noting_advance {r : Reader α} {c : Cursor} (hr : Orderly Cursor.credit r c)
    (hne : c.pending ≠ []) :
    ∃ o d, outcome (liftM (noting r)) c = (.ok o, d) ∧ c.Trail d.next ∧ d.next.funds ≤ c.funds ∧
      d.next.pending.length < c.pending.length := by
  obtain ⟨trail, hcredit, thrown⟩ := hr
  have hpos := List.length_pos_iff.2 hne
  have ho := outcome_lift (noting r) c
  rw [outcome_noting] at ho
  rcases h : outcome r c with ⟨e | a, d⟩
  all_goals
    rw [h] at trail hcredit ho
    have hshort : d.pending.length ≤ c.pending.length := trail.leadsTo.pending.length_le
    simp only [Cursor.credit] at hcredit
  · rw [h] at thrown
    refine ⟨_, _, ho, trail.note (thrown e rfl), ?_, ?_⟩
    · simp only [Cursor.funds, Cursor.next, Cursor.note, List.length_tail, List.length_cons]
      omega
    · simp only [Cursor.next, Cursor.note, List.length_tail]
      omega
  · refine ⟨_, _, ho, trail.trans (.next d), ?_, ?_⟩
    · simp only [Cursor.funds, Cursor.next, List.length_tail]
      omega
    · simp only [Cursor.next, List.length_tail]
      omega

/-- A round of a loop over statements: one of them, whose diagnostic is noted, the next token, and
the rest of the loop. -/
theorem Orderly.round {r : Reader α} {s : Reader (List α)} {c : Cursor}
    (hr : Orderly Cursor.credit r c) (hne : c.pending ≠ [])
    (hs : ∀ d : Cursor, c.Trail d → d.pending.length < c.pending.length →
      Orderly Cursor.funds s d) :
    Orderly Cursor.funds (do
      let first ← liftM (noting r)
      advance
      let others ← s
      return first.toList ++ others) c := by
  obtain ⟨o, d, ho, trail, hfunds, hshort⟩ := noting_advance hr hne
  refine .of_later (d := d.next) (s := s >>= fun others => pure (o.toList ++ others)) ?_ trail hfunds
    ((hs _ trail hshort).bind fun a x _ => .of_ok rfl (.refl x) (Nat.le_refl _))
  rw [outcome_bind, ho]
  rfl

/-- The end is no closing brace. -/
theorem foundAt_finish {c : Cursor} (h : c.current.value = .finish) :
    (Diagnostic.expected (.symbol .rightBrace) c.current).FoundAt c :=
  ⟨by simp [Diagnostic.Genuine, h, Token.kind], .inl rfl⟩

theorem orderly_blockItems {bound : Nat} {c : Cursor} (hc : c.Proper) (hn : c.pending.length ≤ n)
    (hbound : c.pending.length ≤ bound) : Orderly Cursor.funds (blockItems inner bound) c := by
  induction bound generalizing c with
  | zero =>
    have hnil := List.eq_nil_of_length_eq_zero (Nat.le_zero.1 hbound)
    exact .of_throw rfl (foundAt_finish (hc.current_eq_finish_iff.2 hnil))
  | succ bound ih =>
    refine .current_bind ?_
    split
    · exact .of_ok rfl (.refl c) (Nat.le_refl _)
    split
    · next hfinish => exact .of_throw rfl (foundAt_finish hfinish)
    · next hfinish =>
      have hne : c.pending ≠ [] := fun hnil => hfinish (hc.current_eq_finish_iff.2 hnil)
      have hstatement : Orderly Cursor.credit (statement inner) c :=
        ordered_statement.orderly c hc hn
      refine hstatement.round hne fun d trail hshort => ih (hc.of_leadsTo trail.leadsTo) ?_ ?_
      · omega
      · omega

instance ordered_block : Ordered n (block inner) where
  orderly c hc hn := by
    have ho : outcome (block inner) c =
        outcome (blockItems inner c.next.pending.length) c.next := rfl
    have hshort : c.next.pending.length ≤ n := by
      rw [Cursor.next, List.length_tail]
      omega
    have hitems : Orderly Cursor.funds (blockItems inner c.next.pending.length) c.next :=
      orderly_blockItems hc.next hshort (Nat.le_refl _)
    obtain ⟨trail, hfunds, thrown⟩ := hitems
    refine ⟨?_, ?_, ?_⟩ <;> rw [ho]
    · exact (Cursor.Trail.next c).trans trail
    · exact Cursor.credit_le_of_funds_le trail.leadsTo.pending hfunds
    · exact thrown

instance : Ordered n (otherwise inner) := by unfold otherwise; infer_instance

instance : Ordered (n + 1) (conditional inner) := by
  unfold conditional
  infer_instance

instance : Ordered (n + 1) (function inner) := by
  unfold function
  infer_instance

omit hinner in
/-- A number is blamed only if it is too large. -/
theorem orderly_integer {digits : String} {c : Cursor} (h : c.current.value = .integer digits) :
    Orderly worth (integer digits) c := by
  by_cases hsmall : decimal digits.toList ≤ largestInteger
  · have ho : outcome (integer digits) c =
        (.ok (.integer (Int64.ofNat (decimal digits.toList))), c) := by
      rw [integer, if_pos hsmall]
      rfl
    exact .of_ok ho (.refl c) (Nat.le_refl _)
  · have ho : outcome (integer digits) c = (.error (.tooLarge c.current), c) := by
      rw [integer, if_neg hsmall]
      rfl
    exact .of_throw ho ⟨⟨digits, h, Nat.not_le.1 hsmall⟩, .inl rfl⟩

omit hinner in
/-- A token that no expression begins with is blamed for that. -/
theorem foundAt_noOperand {c : Cursor} (h : ¬ Grammar.Starts c.current.value) :
    (Diagnostic.noOperand c.current).FoundAt c := by
  refine ⟨fun s t ts e hkind hder => h ?_, .inl rfl⟩
  obtain ⟨_, _, ht, hstarts⟩ := hder.exists_head
  cases ht
  exact hstarts.of_kind hkind

instance ordered_operand : Ordered (n + 1) (operand inner) where
  orderly c hc hn := by
    refine .current_bind ?_
    split
    case h_2 digits hdigits => exact orderly_integer hdigits
    case h_13 hname hinteger hstring htrue hfalse hif hfn hbang hminus hparen hbracket hbrace =>
      refine .of_throw rfl (foundAt_noOperand fun h => ?_)
      generalize c.current.value = t at *
      cases h with
      | name text => exact hname text rfl
      | integer digits => exact hinteger digits rfl
      | string text => exact hstring text rfl
      | keyword hk =>
        simp only [List.mem_cons, List.not_mem_nil, or_false] at hk
        rcases hk with rfl | rfl | rfl | rfl
        · exact htrue rfl
        · exact hfalse rfl
        · exact hif rfl
        · exact hfn rfl
      | symbol hs =>
        simp only [List.mem_cons, List.not_mem_nil, or_false] at hs
        rcases hs with rfl | rfl | rfl | rfl | rfl
        · exact hbang rfl
        · exact hminus rfl
        · exact hparen rfl
        · exact hbracket rfl
        · exact hbrace rfl
    all_goals exact Ordered.orderly c hc hn

instance ordered_continued (left : Expr Unit) : Ordered n (continued inner left) where
  orderly c hc hn := by
    refine .current_bind ?_
    split <;> exact Ordered.orderly c hc hn

instance ordered_extended (p : Precedence) (bound : Nat) (left : Expr Unit) :
    Ordered n (extended inner p bound left) := by
  induction bound generalizing left with
  | zero => exact inferInstanceAs (Ordered n (pure left))
  | succ bound ih =>
    unfold extended
    infer_instance

/-- The loop over operators begins behind the current token. -/
instance (priority := high) ordered_extended_succ (p : Precedence) (bound : Nat) (left : Expr Unit) :
    Ordered (n + 1) (extended inner p bound left) := by
  cases bound with
  | zero => exact inferInstanceAs (Ordered (n + 1) (pure left))
  | succ bound =>
    unfold extended
    infer_instance

omit hinner in
instance ordered_expression (depth : Nat) (p : Precedence) : Ordered depth (expression depth p) := by
  induction depth generalizing p with
  | zero =>
    refine ⟨fun c hc hn => .of_throw rfl (foundAt_noOperand fun h => ?_)⟩
    have hnil := List.eq_nil_of_length_eq_zero (Nat.le_zero.1 hn)
    rw [hc.current_eq_finish_iff.2 hnil] at h
    cases h
  | succ depth ih =>
    unfold expression
    infer_instance

omit hinner in
theorem orderly_programItems {bound : Nat} {c : Cursor} (hc : c.Proper) :
    Orderly Cursor.funds (liftM (programItems bound) : Reader Tree) c := by
  induction bound generalizing c with
  | zero => exact .of_ok rfl (.refl c) (Nat.le_refl _)
  | succ bound ih =>
    refine .congr (outcome_programItems_succ bound c) ?_
    split
    · exact .of_ok rfl (.refl c) (Nat.le_refl _)
    · next hfinish =>
      have hne : c.pending ≠ [] := fun hnil => hfinish (hc.current_eq_finish_iff.2 hnil)
      have hstatement : Orderly Cursor.credit (statement (expression c.pending.length)) c :=
        ordered_statement.orderly c hc (Nat.le_refl _)
      exact hstatement.round hne fun d trail _ => ih (hc.of_leadsTo trail.leadsTo)

end Inner

end Instances

end Reader

end Monkey
