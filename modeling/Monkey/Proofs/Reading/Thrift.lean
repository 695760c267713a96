import Mathlib.Logic.Basic
import Monkey.Proofs.Reading.Forward

/-!
# How many tokens are taken

Every token that is left is worth two tokens taken: one for itself, and one for a step at the end of the
stream, where a loop over statements goes on although there is nothing more to take. Such a step follows
a statement that could not be read to its end, and it is paid for by the opening brace of the block that
the loop is about, or by the last token before the end. So no more than two tokens are taken for each
one of the stream, besides the two at the beginning.
-/

namespace Monkey

namespace Cursor

variable {c d : Cursor}

/-- What has been taken, and what the tokens that are left are worth. -/
def worth (c : Cursor) : Nat := c.taken + 2 * c.pending.length

/-- What has been taken, and what is left for it in the middle of a statement: at the end of the stream one
more token will have to be taken. -/
def allowance (c : Cursor) : Nat := c.taken + max (2 * c.pending.length) 1

theorem allowance_next_le (h : c.pending ≠ []) : c.next.allowance ≤ c.allowance := by
  have hpos := List.length_pos_iff.2 h
  simp only [allowance, next, List.length_tail]
  omega

/-- The step that ends a round of a loop over statements costs nothing more. -/
theorem worth_next_le_allowance (d : Cursor) : d.next.worth ≤ d.allowance := by
  simp only [worth, allowance, next, List.length_tail]
  omega

theorem allowance_eq_worth (h : c.pending ≠ []) : c.allowance = c.worth := by
  have hpos := List.length_pos_iff.2 h
  simp only [worth, allowance]
  omega

/-- The opening brace of a block pays for the step at the end of the stream. -/
theorem allowance_le_of_worth_le (h : c.pending ≠ []) (hworth : d.worth ≤ c.next.worth) :
    d.allowance ≤ c.allowance := by
  have hpos := List.length_pos_iff.2 h
  simp only [worth, allowance, next, List.length_tail] at hworth ⊢
  omega

/-- What is noted costs nothing. -/
theorem allowance_note (c : Cursor) (e : Diagnostic) : (c.note e).allowance = c.allowance := rfl

theorem pending_ne_nil_of_next (h : c.next.pending ≠ []) : c.pending ≠ [] := by
  intro hnil
  rw [next, hnil] at h
  exact h rfl

end Cursor

namespace Reader

variable {α β : Type}

/-- The step takes no more tokens than it has an allowance for. -/
class Thrifty (r : Reader α) : Prop where
  /-- The allowance does not grow. -/
  allowance_le : ∀ c : Cursor, c.Proper → (outcome r c).2.allowance ≤ c.allowance

/-- The step takes no more tokens than it has an allowance for, unless it begins at the end of the
stream. -/
class Spending (r : Reader α) : Prop where
  /-- The allowance does not grow. -/
  allowance_le : ∀ c : Cursor, c.Proper → c.pending ≠ [] → (outcome r c).2.allowance ≤ c.allowance

instance (s : Symbol) : Fact (Kind.symbol s ≠ .finish) := ⟨by simp⟩

instance (k : Keyword) : Fact (Kind.keyword k ≠ .finish) := ⟨by simp⟩

instance : Fact (Kind.name ≠ .finish) := ⟨by simp⟩

section Steps

instance (a : α) : Thrifty (pure a : Reader α) := ⟨fun _ _ => Nat.le_refl _⟩

instance (e : Diagnostic) : Thrifty (throw e : Reader α) := ⟨fun _ _ => Nat.le_refl _⟩

instance : Thrifty current := ⟨fun _ _ => Nat.le_refl _⟩

instance : Thrifty upcoming := ⟨fun _ _ => Nat.le_refl _⟩

instance (kind : Kind) : Thrifty (sees kind) := ⟨fun _ _ => Nat.le_refl _⟩

instance : Thrifty remaining := ⟨fun _ _ => Nat.le_refl _⟩

instance : Spending advance := ⟨fun _ _ h => Cursor.allowance_next_le h⟩

instance (priority := low) {r : Reader α} [hr : Thrifty r] : Spending r :=
  ⟨fun c hc _ => hr.allowance_le c hc⟩

/-- What follows is judged where the first step stops, if it gives a result. -/
theorem allowance_bind_le {r : Reader α} [Forward r] {f : α → Reader β} {c : Cursor} (hc : c.Proper)
    (hr : (outcome r c).2.allowance ≤ c.allowance)
    (hf : ∀ a d, outcome r c = (.ok a, d) → d.Proper → (outcome (f a) d).2.allowance ≤ d.allowance) :
    (outcome (r >>= f) c).2.allowance ≤ c.allowance := by
  rw [outcome_bind]
  split
  · next a d hd =>
    rw [hd] at hr
    exact Nat.le_trans (hf a d hd (hc.of_leadsTo (Forward.leadsTo hd))) hr
  · next e d hd => rwa [hd] at hr

instance {r : Reader α} {f : α → Reader β} [Forward r] [hr : Thrifty r] [hf : ∀ a, Thrifty (f a)] :
    Thrifty (r >>= f) :=
  ⟨fun c hc => allowance_bind_le hc (hr.allowance_le c hc) fun a d _ hd => (hf a).allowance_le d hd⟩

instance (priority := low) {r : Reader α} {f : α → Reader β} [Forward r] [hr : Spending r]
    [hf : ∀ a, Thrifty (f a)] : Spending (r >>= f) :=
  ⟨fun c hc hne =>
    allowance_bind_le hc (hr.allowance_le c hc hne) fun a d _ hd => (hf a).allowance_le d hd⟩

instance {p : Prop} [Decidable p] {r s : Reader α} [hr : Thrifty r] [hs : Thrifty s] :
    Thrifty (if p then r else s) := by
  split
  · exact hr
  · exact hs

instance {p : Prop} [Decidable p] {r s : Reader α} [hr : Spending r] [hs : Spending s] :
    Spending (if p then r else s) := by
  split
  · exact hr
  · exact hs

/-- An expected token comes before the end, so what follows does not begin there. -/
instance {kind : Kind} [hkind : Fact (kind ≠ .finish)] {g : Unit → Reader β} [hg : Spending (g ())] :
    Thrifty (expect kind >>= g) where
  allowance_le c hc := by
    rw [outcome_bind, outcome_expect]
    by_cases h : c.upcoming.value.kind = kind
    · have hnext := hc.next_pending_ne_nil hkind.out h
      rw [if_pos h]
      exact Nat.le_trans (hg.allowance_le _ hc.next hnext)
        (Cursor.allowance_next_le (Cursor.pending_ne_nil_of_next hnext))
    · exact Nat.le_of_eq (by rw [if_neg h])

instance {kind : Kind} [hkind : Fact (kind ≠ .finish)] : Thrifty (expect kind) := by
  rw [← bind_pure (expect kind)]
  infer_instance

instance {kind : Kind} [hkind : Fact (kind ≠ .finish)] : Thrifty (skip kind) where
  allowance_le c hc := by
    rw [outcome_skip]
    by_cases h : c.upcoming.value.kind = kind
    · rw [if_pos h]
      exact Cursor.allowance_next_le
        (Cursor.pending_ne_nil_of_next (hc.next_pending_ne_nil hkind.out h))
    · exact Nat.le_of_eq (by rw [if_neg h])

/-- A token that is seen comes before the end, so what goes on behind it does not begin there. -/
instance {kind : Kind} [hkind : Fact (kind ≠ .finish)] {s : Reader α} {g : Unit → Reader α}
    [hg : Spending (g ())] [hs : Thrifty s] :
    Thrifty (sees kind >>= fun b => if b = true then advance >>= g else s) where
  allowance_le c hc := by
    have ho : outcome (sees kind >>= fun b => if b = true then advance >>= g else s) c =
        outcome (if c.upcoming.value.kind = kind then advance >>= g else s) c := by
      rw [outcome_sees_bind]
      simp only [decide_eq_true_eq]
    rw [ho]
    by_cases h : c.upcoming.value.kind = kind
    · have hnext := hc.next_pending_ne_nil hkind.out h
      rw [if_pos h]
      exact Nat.le_trans (hg.allowance_le _ hc.next hnext)
        (Cursor.allowance_next_le (Cursor.pending_ne_nil_of_next hnext))
    · rw [if_neg h]
      exact hs.allowance_le c hc

/-- To see a token is not to move. -/
instance (priority := low) {kind : Kind} {f : Bool → Reader α} [hf : ∀ b, Spending (f b)] :
    Spending (sees kind >>= f) := ⟨fun c hc hne => (hf _).allowance_le c hc hne⟩

instance : Thrifty currentName where
  allowance_le c hc := by
    rw [currentName, outcome_current_bind]
    split <;> exact Nat.le_refl _

instance thrifty_furtherItems {item : Reader α} [Forward item] [Thrifty item] (bound : Nat) :
    Thrifty (furtherItems item bound) := by
  induction bound with
  | zero => exact inferInstanceAs (Thrifty (pure []))
  | succ bound ih =>
    unfold furtherItems
    infer_instance

instance {item : Reader α} [Forward item] [Thrifty item] (close : Symbol) :
    Spending (items close item) := by
  have hitems : Thrifty (do
      let first ← item
      let others ← furtherItems item (← remaining)
      expect (.symbol close)
      return first :: others) := inferInstance
  unfold items
  infer_instance

end Steps

section Inner

variable {inner : Inner} [∀ p, Forward (inner p)] [hinner : ∀ p, Thrifty (inner p)]

instance (digits : String) : Thrifty (integer digits) := by unfold integer; infer_instance

instance (operator : Token) : Spending (unary inner operator) := by unfold unary; infer_instance

instance : Spending (grouped inner) := by unfold grouped; infer_instance

instance : Thrifty (define inner) := by unfold define; infer_instance

instance : Spending (leave inner) := by unfold leave; infer_instance

instance : Thrifty (bare inner) := by unfold bare; infer_instance

/-- A statement that begins at the end of the stream is an expression. -/
instance thrifty_statement : Thrifty (statement inner) where
  allowance_le c hc := by
    rw [statement, outcome_current_bind]
    split
    · exact Thrifty.allowance_le c hc
    · next hleave => exact Spending.allowance_le c hc (hc.pending_ne_nil hleave (by simp))
    · exact Thrifty.allowance_le c hc

omit hinner [∀ p, Forward (inner p)] in
/-- To note a diagnostic takes nothing. -/
theorem exists_outcome_noting (r : Reader α) (c : Cursor) :
    ∃ o d, outcome (liftM (noting r)) c = (.ok o, d) ∧
      d.allowance = (outcome r c).2.allowance := by
  rw [outcome_lift, outcome_noting]
  rcases outcome r c with ⟨e | a, d⟩
  · exact ⟨none, d.note e, rfl, d.allowance_note e⟩
  · exact ⟨some a, d, rfl, rfl⟩

omit hinner [∀ p, Forward (inner p)] in
/-- A round of a loop over statements pays for itself, and it goes past at least one token. -/
theorem worth_round_le {r : Reader α} [Forward r] [hr : Thrifty r] {c : Cursor} (hc : c.Proper)
    (hne : c.pending ≠ []) :
    ∃ o d, outcome (liftM (noting r)) c = (.ok o, d) ∧ c.LeadsTo d.next ∧ d.next.worth ≤ c.worth ∧
      d.next.pending.length < c.pending.length := by
  obtain ⟨o, d, ho, hsame⟩ := exists_outcome_noting r c
  have hleads : c.LeadsTo d := Forward.leadsTo ho
  refine ⟨o, d, ho, hleads.trans d.leadsTo_next, ?_, ?_⟩
  · calc
      d.next.worth ≤ d.allowance := d.worth_next_le_allowance
      _ ≤ c.allowance := hsame ▸ hr.allowance_le c hc
      _ = c.worth := Cursor.allowance_eq_worth hne
  · have hshort := hleads.pending.length_le
    have hpos := List.length_pos_iff.2 hne
    rw [Cursor.length_pending_next]
    omega

omit hinner [∀ p, Forward (inner p)] in
/-- What a round leads to goes on as the rest of the loop. -/
theorem outcome_round {r : Reader α} {s : Reader (List α)} {c d : Cursor} {o : Option α}
    (ho : outcome (liftM (noting r)) c = (.ok o, d)) :
    (outcome (do
      let first ← liftM (noting r)
      advance
      let others ← s
      return first.toList ++ others) c).2 = (outcome s d.next).2 := by
  rw [outcome_bind, ho]
  change (outcome (s >>= fun others => pure (o.toList ++ others)) d.next).2 = _
  rw [outcome_bind]
  rcases outcome s d.next with ⟨_ | _, _⟩ <;> rfl

theorem worth_blockItems_le (bound : Nat) {c : Cursor} (hc : c.Proper) :
    (outcome (blockItems inner bound) c).2.worth ≤ c.worth := by
  induction bound generalizing c with
  | zero => exact Nat.le_refl _
  | succ bound ih =>
    change (outcome (if c.current.value = .symbol .rightBrace then pure []
      else if c.current.value = .finish then throw (.expected (.symbol .rightBrace) c.current)
      else do
        let first ← liftM (noting (statement inner))
        advance
        let others ← blockItems inner bound
        return first.toList ++ others) c).2.worth ≤ c.worth
    split
    · exact Nat.le_refl _
    split
    · exact Nat.le_refl _
    · next hfinish =>
      obtain ⟨o, d, ho, hleads, hworth, -⟩ :=
        worth_round_le (r := statement inner) hc (hc.pending_ne_nil rfl hfinish)
      rw [outcome_round ho]
      exact Nat.le_trans (ih (hc.of_leadsTo hleads)) hworth

instance : Spending (block inner) where
  allowance_le c hc hne :=
    Cursor.allowance_le_of_worth_le hne (worth_blockItems_le c.next.pending.length hc.next)

instance : Thrifty (otherwise inner) := by unfold otherwise; infer_instance

instance : Thrifty (conditional inner) := by unfold conditional; infer_instance

instance : Thrifty (function inner) := by unfold function; infer_instance

instance : Thrifty (keyed inner) := by unfold keyed; infer_instance

/-- At the end of the stream there is no operand, so nothing is taken. -/
instance thrifty_operand : Thrifty (operand inner) where
  allowance_le c hc := by
    rw [operand, outcome_current_bind]
    by_cases hne : c.pending = []
    · rw [hc.current_eq_finish_iff.2 hne]
      exact Nat.le_refl _
    · split <;> exact Spending.allowance_le c hc hne

instance (left : Expr Unit) : Spending (continued inner left) where
  allowance_le c hc hne := by
    rw [continued, outcome_current_bind]
    split <;> exact Spending.allowance_le c hc hne

instance thrifty_extended (p : Precedence) (bound : Nat) (left : Expr Unit) :
    Thrifty (extended inner p bound left) := by
  induction bound generalizing left with
  | zero => exact inferInstanceAs (Thrifty (pure left))
  | succ bound ih =>
    refine ⟨fun c hc => ?_⟩
    change (outcome (if p < .ofKind c.upcoming.value.kind then do
      advance
      extended inner p bound (← continued inner left)
      else pure left) c).2.allowance ≤ c.allowance
    split
    · next hbinds =>
      -- An operator is not the end, which binds least.
      have hnext : c.next.pending ≠ [] := hc.next_pending_ne_nil (fun hend => by
        rw [hend] at hbinds
        exact absurd hbinds (Nat.not_lt_zero _)) rfl
      have hgoes : Spending (do extended inner p bound (← continued inner left)) := inferInstance
      exact Nat.le_trans (hgoes.allowance_le c.next hc.next hnext)
        (Cursor.allowance_next_le (Cursor.pending_ne_nil_of_next hnext))
    · exact Nat.le_refl _

omit hinner [∀ p, Forward (inner p)] in
instance thrifty_expression (depth : Nat) (p : Precedence) : Thrifty (expression depth p) := by
  induction depth generalizing p with
  | zero =>
    unfold expression
    infer_instance
  | succ depth ih =>
    unfold expression
    infer_instance

omit hinner [∀ p, Forward (inner p)] in
theorem worth_programItems_le (bound : Nat) {c : Cursor} (hc : c.Proper) :
    ((programItems bound).run c).2.worth ≤ c.worth := by
  induction bound generalizing c with
  | zero => exact Nat.le_refl _
  | succ bound ih =>
    change (outcome (liftM (programItems (bound + 1))) c).2.worth ≤ c.worth
    rw [outcome_programItems_succ]
    split
    · exact Nat.le_refl _
    · next hfinish =>
      obtain ⟨o, d, ho, hleads, hworth, -⟩ :=
        worth_round_le (r := statement (expression c.pending.length)) hc (hc.pending_ne_nil rfl hfinish)
      rw [outcome_round ho]
      exact Nat.le_trans (ih (hc.of_leadsTo hleads)) hworth

omit hinner [∀ p, Forward (inner p)] in
/-- Two tokens are taken at the beginning, and no more than two for each one of the stream. -/
theorem taken_program_le {s : TokenStream} (h : (Cursor.start s).Proper) :
    (program s).2.taken ≤ 2 * s.tokens.length + 2 := by
  have hworth : (program s).2.worth ≤ 2 + 2 * s.tokens.length := worth_programItems_le s.tokens.length h
  simp only [Cursor.worth] at hworth
  omega

end Inner

end Reader

end Monkey
