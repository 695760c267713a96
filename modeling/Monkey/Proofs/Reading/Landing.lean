import Monkey.Proofs.Reading.Forward

/-!
# Where reading stops

What is read as an expression ends on a token, and never at the end of the stream, although there may be
nothing more behind it. Behind an operator or an opening bracket the reader goes on to a token that it has
not seen yet, and there it needs an operand again; and an expected token is there when it is passed.
-/

namespace Monkey.Reader

variable {α β : Type}

/-- Whenever the step gives a result, it stops on a token. -/
class Lands (r : Reader α) : Prop where
  /-- The cursor is not at the end of the stream. -/
  pending_ne_nil {c d : Cursor} {a : α} (hc : c.Proper) (h : outcome r c = (.ok a, d)) : d.pending ≠ []

/-- If the step begins on a token and gives a result, it stops on a token. -/
class Stays (r : Reader α) : Prop where
  /-- The cursor is not at the end of the stream. -/
  pending_ne_nil {c d : Cursor} {a : α} (hc : c.Proper) (hne : c.pending ≠ [])
    (h : outcome r c = (.ok a, d)) : d.pending ≠ []

section Steps

instance (priority := low) {r : Reader α} [hr : Lands r] : Stays r :=
  ⟨fun hc _ h => hr.pending_ne_nil hc h⟩

instance (e : Diagnostic) : Lands (throw e : Reader α) := ⟨fun _ h => by cases h⟩

instance (a : α) : Stays (pure a : Reader α) := ⟨fun _ hne h => by cases h; exact hne⟩

instance : Stays current := ⟨fun _ hne h => by cases h; exact hne⟩

instance : Stays upcoming := ⟨fun _ hne h => by cases h; exact hne⟩

instance (kind : Kind) : Stays (sees kind) := ⟨fun _ hne h => by cases h; exact hne⟩

instance : Stays remaining := ⟨fun _ hne h => by cases h; exact hne⟩

/-- An expected symbol is there when it is passed. -/
instance (s : Symbol) : Lands (expect (.symbol s)) where
  pending_ne_nil {c d _} hc h := by
    rw [outcome_expect] at h
    split at h
    · next hkind =>
      cases h
      exact hc.next_pending_ne_nil (by simp) hkind
    · cases h

/-- What lands can follow anything. -/
theorem lands_bind {r : Reader α} {f : α → Reader β} [Forward r] (hf : ∀ a, Lands (f a)) :
    Lands (r >>= f) where
  pending_ne_nil hc h := by
    obtain ⟨a, e, hr, h⟩ := exists_of_outcome_bind h
    exact (hf a).pending_ne_nil (hc.of_leadsTo (Forward.leadsTo hr)) h

instance {r : Reader α} {f : α → Reader β} [Forward r] [hf : ∀ a, Lands (f a)] : Lands (r >>= f) :=
  lands_bind hf

/-- What stays can follow what lands. -/
instance (priority := low) {r : Reader α} {f : α → Reader β} [Forward r]
    [hr : Lands r] [hf : ∀ a, Stays (f a)] : Lands (r >>= f) where
  pending_ne_nil hc h := by
    obtain ⟨a, e, ho, h⟩ := exists_of_outcome_bind h
    exact (hf a).pending_ne_nil (hc.of_leadsTo (Forward.leadsTo ho)) (hr.pending_ne_nil hc ho) h

instance {r : Reader α} {f : α → Reader β} [Forward r] [hr : Stays r] [hf : ∀ a, Stays (f a)] :
    Stays (r >>= f) where
  pending_ne_nil hc hne h := by
    obtain ⟨a, e, ho, h⟩ := exists_of_outcome_bind h
    exact (hf a).pending_ne_nil (hc.of_leadsTo (Forward.leadsTo ho)) (hr.pending_ne_nil hc hne ho) h

instance {p : Prop} [Decidable p] {r s : Reader α} [hr : Lands r] [hs : Lands s] :
    Lands (if p then r else s) := by
  split
  · exact hr
  · exact hs

instance {p : Prop} [Decidable p] {r s : Reader α} [hr : Stays r] [hs : Stays s] :
    Stays (if p then r else s) := by
  split
  · exact hr
  · exact hs

/-- A list ends with its closing symbol, whether it has items or not. -/
instance {item : Reader α} [Forward item] (close : Symbol) : Lands (items close item) where
  pending_ne_nil {c d _} hc h := by
    rw [items, outcome_sees_bind] at h
    by_cases hclose : c.upcoming.value.kind = .symbol close
    · simp only [hclose, decide_true, ite_true] at h
      cases h
      exact hc.next_pending_ne_nil (by simp) hclose
    · simp only [hclose, decide_false, Bool.false_eq_true, ite_false] at h
      exact Lands.pending_ne_nil hc h

end Steps

section Inner

variable {inner : Inner} [∀ p, Forward (inner p)] [hinner : ∀ p, Lands (inner p)]

/-- A block ends with its closing brace. -/
instance lands_blockItems (n : Nat) : Lands (blockItems inner n) := by
  induction n with
  | zero =>
    unfold blockItems
    infer_instance
  | succ n ih =>
    refine ⟨fun {c d _} hc h => ?_⟩
    rw [blockItems, outcome_current_bind] at h
    by_cases hbrace : c.current.value = .symbol .rightBrace
    · rw [if_pos hbrace] at h
      cases h
      exact hc.pending_ne_nil hbrace (by simp)
    · rw [if_neg hbrace] at h
      exact Lands.pending_ne_nil hc h

instance : Lands (block inner) := by
  unfold block
  infer_instance

instance : Stays (otherwise inner) := by
  unfold otherwise
  infer_instance

instance : Lands (conditional inner) := by
  unfold conditional
  -- One search for all steps of a conditional would be too long.
  refine lands_bind fun _ => lands_bind fun _ => lands_bind fun _ => ?_
  infer_instance

instance : Lands (function inner) := by
  unfold function
  infer_instance

instance (digits : String) : Stays (integer digits) := by
  unfold integer
  infer_instance

instance (operator : Token) : Lands (unary inner operator) := by
  unfold unary
  infer_instance

instance : Lands (grouped inner) := by
  unfold grouped
  infer_instance

/-- At the end of the stream there is no operand. -/
instance : Lands (operand inner) where
  pending_ne_nil {c d _} hc h := by
    rw [operand, outcome_current_bind] at h
    by_cases hne : c.pending = []
    · rw [hc.current_eq_finish_iff.2 hne] at h
      cases h
    · split at h <;> exact Stays.pending_ne_nil hc hne h

instance (left : Expr Unit) : Lands (continued inner left) where
  pending_ne_nil hc h := by
    rw [continued, outcome_current_bind] at h
    split at h <;> exact Lands.pending_ne_nil hc h

instance stays_extended (p : Precedence) (n : Nat) (left : Expr Unit) :
    Stays (extended inner p n left) := by
  induction n generalizing left with
  | zero =>
    unfold extended
    infer_instance
  | succ n ih =>
    unfold extended
    infer_instance

omit hinner [∀ p, Forward (inner p)] in
instance lands_expression (depth : Nat) (p : Precedence) : Lands (expression depth p) := by
  induction depth generalizing p with
  | zero =>
    unfold expression
    infer_instance
  | succ depth ih =>
    unfold expression
    infer_instance

end Inner

end Monkey.Reader
