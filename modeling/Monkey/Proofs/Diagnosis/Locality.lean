import Monkey.Proofs.Diagnosis.Blame

/-!
# How far a step looks

A step sees the current token and the upcoming one, and where it stops it has seen no more than the
token after that. A token that is blamed is the last one that was seen, except that the upcoming one
may have been seen when the current one is blamed: nothing depends on it then. So of two streams
that agree up to the token that is blamed in one of them, the other is refused as well.
-/

namespace Monkey

namespace Cursor

/-- The token that stands so many tokens behind the current one. -/
def peek (c : Cursor) (i : Nat) : Spanned Token := (c.pending.drop i).headD c.finish

theorem peek_zero (c : Cursor) : c.peek 0 = c.current := rfl

theorem peek_one (c : Cursor) : c.peek 1 = c.upcoming := by
  rw [peek, List.drop_one]
  rfl

theorem peek_drop {c d : Cursor} {j : Nat} (hd : d.pending = c.pending.drop j)
    (hfinish : d.finish = c.finish) (i : Nat) : d.peek i = c.peek (j + i) := by
  rw [peek, peek, hd, hfinish, List.drop_drop]

theorem next_pending (c : Cursor) : c.next.pending = c.pending.drop 1 := List.drop_one.symm

/-- From the current token on, two cursors see the same tokens, as far as the first `m` of them go.
The two have at most `n` and `n'` tokens left. -/
structure Beside (n n' m : Nat) (c c' : Cursor) : Prop where
  /-- The first stream has the end at its end only, -/
  proper : c.Proper
  /-- and so has the second one. -/
  proper' : c'.Proper
  /-- So many tokens are left to the first cursor, -/
  length_le : c.pending.length ≤ n
  /-- and so many to the second one. -/
  length_le' : c'.pending.length ≤ n'
  /-- The first tokens are the same. -/
  alike : ∀ i < m, (c.peek i).value = (c'.peek i).value

variable {n n' k k' m j : Nat} {c c' d d' : Cursor}

/-- Where both cursors have gone on by as many tokens, they still see the same. -/
theorem Beside.drop (h : Beside n n' m c c') (hl : c.LeadsTo d) (hl' : c'.LeadsTo d')
    (hd : d.pending = c.pending.drop j) (hd' : d'.pending = c'.pending.drop j) :
    Beside (n - j) (n' - j) (m - j) d d' where
  proper := h.proper.of_leadsTo hl
  proper' := h.proper'.of_leadsTo hl'
  length_le := by
    rw [hd, List.length_drop]
    exact Nat.sub_le_sub_right h.length_le j
  length_le' := by
    rw [hd', List.length_drop]
    exact Nat.sub_le_sub_right h.length_le' j
  alike i hi := by
    rw [peek_drop hd hl.finish, peek_drop hd' hl'.finish]
    exact h.alike (j + i) (by omega)

theorem Beside.next (h : Beside n n' m c c') : Beside (n - 1) (n' - 1) (m - 1) c.next c'.next :=
  h.drop c.leadsTo_next c'.leadsTo_next c.next_pending c'.next_pending

theorem Beside.mono (h : Beside n n' m c c') (hn : n ≤ k) (hn' : n' ≤ k') : Beside k k' m c c' :=
  { h with length_le := Nat.le_trans h.length_le hn, length_le' := Nat.le_trans h.length_le' hn' }

theorem Beside.current_eq (h : Beside n n' m c c') (hm : 0 < m) :
    c'.current.value = c.current.value := (h.alike 0 hm).symm

theorem Beside.upcoming_eq (h : Beside n n' m c c') (hm : 1 < m) :
    c'.upcoming.value = c.upcoming.value := by
  rw [← peek_one, ← peek_one]
  exact (h.alike 1 hm).symm

end Cursor

namespace Reader

open Cursor

variable {α β : Type} {n n' k k' m : Nat} {early : Bool} {c c' d d' : Cursor}

/-- From two cursors that see the same up to the token `m`, the second step does what the first one
does, as long as the first one does not look that far. Only an early step can blame the current
token. -/
structure Follows (early : Bool) (m : Nat) (r r' : Reader α) (c c' : Cursor) : Prop where
  /-- If a token before `m` is blamed, something is blamed on the other side. -/
  blamed : ∀ e, Blames r c e →
    ∃ i, e.got = c.peek i ∧ (early = false → 0 < i) ∧ (i < m → ∃ e', Blames r' c' e')
  /-- If the step stops with the upcoming token before `m`, the same is read on the other side. -/
  read : ∀ a d, Reads r c a d →
    ∃ j, d.pending = c.pending.drop j ∧
      (j + 2 ≤ m → ∃ d', Reads r' c' a d' ∧ d'.pending = c'.pending.drop j)

/-- From any two cursors, with at most `n` and `n'` tokens left, the second step does what the first
one does as far as they see the same. -/
class Local (n n' : Nat) (early : outParam Bool) (r r' : Reader α) : Prop where
  /-- The second step does what the first one does. -/
  follows : ∀ {m c c'}, Beside n n' m c c' → Follows early m r r' c c'

namespace Follows

variable {r r' s s' : Reader α}

/-- A step that blames no current token is as good as one that may blame it. -/
theorem weaken (h : Follows early m r r' c c') : Follows true m r r' c c' where
  blamed e he := by
    obtain ⟨i, hgot, -, hsame⟩ := h.blamed e he
    exact ⟨i, hgot, by simp, hsame⟩
  read := h.read

/-- What the second step does matters only as far as the tokens are the same that the first one
sees. -/
theorem congr (h : Follows early m s s' c c') (ho : outcome r c = outcome s c)
    (ho' : 0 < m → (early = false → 1 < m) → outcome r' c' = outcome s' c') :
    Follows early m r r' c c' where
  blamed e he := by
    obtain ⟨i, hgot, hpos, hsame⟩ := h.blamed e ((blames_congr ho rfl).1 he)
    refine ⟨i, hgot, hpos, fun hi => ?_⟩
    obtain ⟨e', he'⟩ := hsame hi
    have heq := ho' (by omega) fun hearly => by
      have := hpos hearly
      omega
    exact ⟨e', (blames_congr heq rfl).2 he'⟩
  read a d hd := by
    obtain ⟨j, hj, hsame⟩ := h.read a d ((reads_congr ho rfl).1 hd)
    refine ⟨j, hj, fun hm => ?_⟩
    obtain ⟨d', hd', hj'⟩ := hsame hm
    exact ⟨d', (reads_congr (ho' (by omega) fun _ => by omega) rfl).2 hd', hj'⟩

theorem pure (a : α) : Follows false m (pure a) (pure a) c c' where
  blamed _ he := absurd he not_blames_pure
  read b d hd := by
    obtain ⟨rfl, rfl⟩ := reads_pure_iff.1 hd
    exact ⟨0, rfl, fun _ => ⟨c', reads_pure_iff.2 ⟨rfl, rfl⟩, rfl⟩⟩

/-- If the current token is blamed, it does not matter what the other step blames. -/
theorem throw {e e' : Diagnostic} (he : e.got = c.current) :
    Follows true m (throw e : Reader α) (throw e') c c' where
  blamed f hf := by
    rw [blames_throw_iff] at hf
    exact ⟨0, by rw [hf, he, peek_zero], by simp, fun _ => ⟨e', blames_throw_iff.2 rfl⟩⟩
  read _ _ hd := absurd hd not_reads_throw

/-- Behind the next token, all that is blamed comes later than the current one. -/
theorem advance_bind {g g' : Unit → Reader β}
    (h : Follows early (m - 1) (g ()) (g' ()) c.next c'.next) :
    Follows false m (advance >>= g) (advance >>= g') c c' where
  blamed e he := by
    obtain ⟨i, hgot, -, hsame⟩ := h.blamed e (blames_advance_bind.1 he)
    refine ⟨1 + i, by rw [hgot, peek_drop c.next_pending rfl], fun _ => by omega, fun hi => ?_⟩
    obtain ⟨e', he'⟩ := hsame (by omega)
    exact ⟨e', blames_advance_bind.2 he'⟩
  read a d hd := by
    obtain ⟨j, hj, hsame⟩ := h.read a d (reads_advance_bind.1 hd)
    refine ⟨1 + j, by rw [hj, next_pending, List.drop_drop], fun hm => ?_⟩
    obtain ⟨d', hd', hj'⟩ := hsame (by omega)
    exact ⟨d', reads_advance_bind.2 hd', by rw [hj', next_pending, List.drop_drop]⟩

/-- What is expected is there on both sides or on none. -/
theorem expect_bind {kind : Kind} {g g' : Unit → Reader β} (hb : Beside n n' m c c')
    (h : Follows early (m - 1) (g ()) (g' ()) c.next c'.next) :
    Follows false m (expect kind >>= g) (expect kind >>= g') c c' := by
  by_cases hkind : c.upcoming.value.kind = kind
  · refine (h.advance_bind (g := g)).congr ?_ fun _ hm => ?_
    · rw [outcome_bind, outcome_expect, if_pos hkind]
      rfl
    · rw [outcome_bind, outcome_expect, hb.upcoming_eq (hm rfl), if_pos hkind]
      rfl
  · constructor
    · intro e he
      obtain ⟨-, rfl⟩ | ⟨habsurd, -⟩ := blames_expect_bind.1 he
      · refine ⟨1, c.peek_one.symm, fun _ => Nat.one_pos, fun hm => ?_⟩
        exact ⟨_, blames_expect_bind.2 (.inl ⟨by rwa [hb.upcoming_eq hm], rfl⟩)⟩
      · exact absurd habsurd hkind
    · intro a d hd
      exact absurd (reads_expect_bind.1 hd).1 hkind

/-- A step that blames no current token can follow any step. -/
theorem bind {f f' : α → Reader β} [Forward r] [Forward r'] [∀ a, Forward (f a)]
    [∀ a, Forward (f' a)] (hb : Beside n n' m c c') (h : Follows early m r r' c c')
    (hf : ∀ {k d d'} a, Beside n n' k d d' → Follows false k (f a) (f' a) d d') :
    Follows early m (r >>= f) (r' >>= f') c c' := by
  -- If the first step looks too far on the other side, it does not matter what that side does then.
  have between {a : α} {d : Cursor} (hd : Reads r c a d) : ∃ j k d',
      d.pending = c.pending.drop j ∧ Beside n n' k d d' ∧
        (j + 2 ≤ m → k = m - j ∧ Reads r' c' a d' ∧ d'.pending = c'.pending.drop j) := by
    obtain ⟨j, hj, hsame⟩ := h.read a d hd
    by_cases hm : j + 2 ≤ m
    · obtain ⟨d', hd', hj'⟩ := hsame hm
      have hdrop := (hb.drop hd.leadsTo hd'.leadsTo hj hj').mono (Nat.sub_le n j) (Nat.sub_le n' j)
      exact ⟨j, m - j, d', hj, hdrop, fun _ => ⟨rfl, hd', hj'⟩⟩
    · have hlength := Nat.le_trans hd.leadsTo.pending.length_le hb.length_le
      exact ⟨j, 0, c', hj, ⟨hd.proper hb.proper, hb.proper', hlength, hb.length_le', by simp⟩,
        fun hm' => absurd hm' hm⟩
  constructor
  · intro e he
    rcases blames_bind_iff.1 he with he | ⟨a, d, hd, he⟩
    · obtain ⟨i, hgot, hpos, hsame⟩ := h.blamed e he
      refine ⟨i, hgot, hpos, fun hi => ?_⟩
      obtain ⟨e', he'⟩ := hsame hi
      exact ⟨e', blames_bind_iff.2 (.inl he')⟩
    · obtain ⟨j, k, d', hj, hbeside, hsame⟩ := between hd
      obtain ⟨i, hgot, hpos, hlater⟩ := (hf a hbeside).blamed e he
      have hpos := hpos rfl
      refine ⟨j + i, by rw [hgot, peek_drop hj hd.leadsTo.finish], fun _ => by omega, fun hi => ?_⟩
      obtain ⟨rfl, hd', -⟩ := hsame (by omega)
      obtain ⟨e', he'⟩ := hlater (by omega)
      exact ⟨e', blames_bind_iff.2 (.inr ⟨a, d', hd', he'⟩)⟩
  · intro b f hf'
    obtain ⟨a, d, hd, hb'⟩ := reads_bind_iff.1 hf'
    obtain ⟨j, k, d', hj, hbeside, hsame⟩ := between hd
    obtain ⟨i, hi, hlater⟩ := (hf a hbeside).read b f hb'
    refine ⟨j + i, by rw [hi, hj, List.drop_drop], fun hm => ?_⟩
    obtain ⟨rfl, hd', hj'⟩ := hsame (by omega)
    obtain ⟨f', hf', hi'⟩ := hlater (by omega)
    exact ⟨f', hd'.bind hf', by rw [hi', hj', List.drop_drop]⟩

end Follows

section Steps

variable {r r' s s' : Reader α} {f f' : α → Reader β} {g g' : Unit → Reader β}

theorem Local.mono (h : Local n n' early r r') (hk : k ≤ n) (hk' : k' ≤ n') :
    Local k k' early r r' := ⟨fun hb => h.follows (hb.mono hk hk')⟩

/-- A step that begins with the current token decides on the same one on both sides. -/
theorem Local.of_current {f f' : Spanned Token → Reader α}
    (h : ∀ {m c c'}, Beside n n' m c c' → ∀ t', t'.value = c.current.value →
      Follows early m (f c.current) (f' t') c c') :
    Local n n' early (current >>= f) (current >>= f') where
  follows {m c c'} hb := by
    by_cases hm : 0 < m
    · exact (h hb c'.current (hb.current_eq hm)).congr rfl fun _ _ => rfl
    · exact (h hb c.current rfl).congr rfl fun hpos => absurd hpos hm

/-- A step that begins with the upcoming token decides on the same one on both sides. -/
theorem Local.of_upcoming {f f' : Spanned Token → Reader α}
    (h : ∀ {m c c'}, Beside n n' m c c' → ∀ t', t'.value = c.upcoming.value →
      Follows false m (f c.upcoming) (f' t') c c') :
    Local n n' false (upcoming >>= f) (upcoming >>= f') where
  follows {m c c'} hb := by
    by_cases hm : 1 < m
    · exact (h hb c'.upcoming (hb.upcoming_eq hm)).congr rfl fun _ _ => rfl
    · exact (h hb c.upcoming rfl).congr rfl fun _ hpos => absurd (hpos rfl) hm

/-- A step that begins with the number of tokens that are left can take it for a bound. -/
theorem Local.of_remaining {f f' : Nat → Reader α}
    (h : ∀ k ≤ n, ∀ k' ≤ n', Local k k' early (f k) (f' k')) :
    Local n n' early (remaining >>= f) (remaining >>= f') where
  follows hb :=
    ((h _ hb.length_le _ hb.length_le').follows
      { hb with length_le := Nat.le_refl _, length_le' := Nat.le_refl _ }).congr rfl fun _ _ => rfl

instance (a : α) : Local n n' false (pure a : Reader α) (pure a) := ⟨fun _ => .pure a⟩

/-- What follows a step is at a cursor from which that step has seen the upcoming token already. -/
theorem Local.bind [Forward r] [Forward r'] [∀ a, Forward (f a)] [∀ a, Forward (f' a)]
    (hr : Local n n' early r r') (hf : ∀ a, Local n n' false (f a) (f' a)) :
    Local n n' early (r >>= f) (r' >>= f') :=
  ⟨fun hb => (hr.follows hb).bind hb fun a => (hf a).follows⟩

instance (priority := low) [Forward r] [Forward r'] [∀ a, Forward (f a)] [∀ a, Forward (f' a)]
    [hr : Local n n' early r r'] [hf : ∀ a, Local n n' false (f a) (f' a)] :
    Local n n' early (r >>= f) (r' >>= f') := .bind hr hf

theorem Local.of_succ (h : Local (n + 1) (n' + 1) early r r') : Local n n' early r r' :=
  h.mono (Nat.le_succ n) (Nat.le_succ n')

theorem Local.of_pred (h : Local n (n' - 1 + 1) early r r') : Local n n' early r r' :=
  h.mono (Nat.le_refl n) (by omega)

/-- What follows on the next token has one token fewer before it. -/
theorem Local.advance_bind (h : Local n n' early (g ()) (g' ())) :
    Local (n + 1) (n' + 1) false (advance >>= g) (advance >>= g') :=
  ⟨fun hb => (h.follows hb.next).advance_bind⟩

theorem Local.expect_bind {kind : Kind} (h : Local n n' early (g ()) (g' ())) :
    Local (n + 1) (n' + 1) false (expect kind >>= g) (expect kind >>= g') :=
  ⟨fun hb => (h.follows hb.next).expect_bind hb⟩

instance (priority := high) [hg : Local n n' early (g ()) (g' ())] :
    Local (n + 1) (n' + 1) false (advance >>= g) (advance >>= g') := hg.advance_bind

instance [hg : Local n n' early (g ()) (g' ())] :
    Local n n' false (advance >>= g) (advance >>= g') := hg.advance_bind.of_succ

instance (priority := high) {kind : Kind} [hg : Local n n' early (g ()) (g' ())] :
    Local (n + 1) (n' + 1) false (expect kind >>= g) (expect kind >>= g') := hg.expect_bind

instance {kind : Kind} [hg : Local n n' early (g ()) (g' ())] :
    Local n n' false (expect kind >>= g) (expect kind >>= g') := hg.expect_bind.of_succ

instance : Local n n' false advance advance :=
  ⟨fun _ => (Follows.advance_bind (g := pure) (.pure ())).congr rfl fun _ _ => rfl⟩

instance {f f' : Bool → Reader α} {kind : Kind} [hf : ∀ b, Local n n' false (f b) (f' b)] :
    Local n n' false (sees kind >>= f) (sees kind >>= f') where
  follows hb := by
    refine ((hf _).follows hb).congr rfl fun _ hm => ?_
    rw [← hb.upcoming_eq (hm rfl)]
    rfl

instance {p : Prop} [Decidable p] [hr : Local n n' early r r'] [hs : Local n n' early s s'] :
    Local n n' early (if p then r else s) (if p then r' else s') := by
  split
  · exact hr
  · exact hs

instance (kind : Kind) : Local n n' false (skip kind) (skip kind) := by
  unfold skip
  infer_instance

/-- A diagnostic that is noted is blamed like one that is not. -/
instance [Forward r] [Forward r'] [hr : Local n n' early r r'] :
    Local n n' early (liftM (noting r) : Reader (Option α)) (liftM (noting r')) where
  follows hb := by
    obtain ⟨blamed, read⟩ := hr.follows hb
    constructor
    · intro e he
      obtain ⟨i, hgot, hpos, hsame⟩ := blamed e (blames_noting_iff.1 he)
      refine ⟨i, hgot, hpos, fun hi => ?_⟩
      obtain ⟨e', he'⟩ := hsame hi
      exact ⟨e', blames_noting_iff.2 he'⟩
    · intro o d hd
      obtain ⟨a, rfl, ha⟩ := reads_noting_iff.1 hd
      obtain ⟨j, hj, hsame⟩ := read a d ha
      refine ⟨j, hj, fun hm => ?_⟩
      obtain ⟨d', hd', hj'⟩ := hsame hm
      exact ⟨d', reads_noting_iff.2 ⟨a, rfl, hd'⟩, hj'⟩

instance : Local n n' true currentName currentName := by
  refine .of_current fun _ _ ht => ?_
  simp only [ht]
  split
  · exact (Follows.pure _).weaken
  · exact .throw rfl

end Steps

/-- Loops that take a bound for the number of their rounds. If no tokens are left, the bound makes
no difference, and a round of both loops makes both bounds smaller. -/
theorem Local.of_rounds {σ : Type} (loop loop' : σ → Nat → Reader α)
    (hend : ∀ {c : Cursor}, c.Proper → c.pending = [] → ∀ x k,
      outcome (loop' x k) c = outcome (loop' x 0) c)
    (hstop : ∀ {m c c'} x, Follows early m (loop x 0) (loop' x 0) c c')
    (hround : ∀ {k k'}, k + 1 ≤ n → k' ≤ n' →
      (∀ x, Local k (k' - 1) early (loop x k) (loop' x (k' - 1))) →
      ∀ x, Local (k + 1) k' early (loop x (k + 1)) (loop' x (k' - 1 + 1)))
    (hk : k ≤ n) (hk' : k' ≤ n') (x : σ) : Local k k' early (loop x k) (loop' x k') := by
  induction k generalizing k' x with
  | zero =>
    refine ⟨fun hb => (hstop x).congr rfl fun hm _ => ?_⟩
    have hc := List.eq_nil_of_length_eq_zero (Nat.le_zero.1 hb.length_le)
    have hcurrent := hb.current_eq hm
    rw [hb.proper.current_eq_finish_iff.2 hc] at hcurrent
    exact hend hb.proper' (hb.proper'.current_eq_finish_iff.1 hcurrent) x k'
  | succ k ih =>
    have h := hround hk hk' (ih (Nat.le_of_succ_le hk) (Nat.le_trans (Nat.sub_le k' 1) hk')) x
    cases k' with
    | zero =>
      refine ⟨fun hb => (h.follows hb).congr rfl fun _ _ => ?_⟩
      have hc' := List.eq_nil_of_length_eq_zero (Nat.le_zero.1 hb.length_le')
      exact (hend hb.proper' hc' x 1).symm
    | succ k' => exact h

section Items

variable {item item' : Reader α}

/-- Without tokens there are no further items, whatever their number may be. -/
theorem outcome_furtherItems_of_nil (hc : c.Proper) (h : c.pending = []) (n : Nat) :
    outcome (furtherItems item n) c = outcome (pure []) c := by
  obtain ⟨_, _, _, rfl⟩ := hc.eq_of_nil h
  cases n <;> rfl

variable [Forward item] [Forward item']

theorem local_furtherItems (hitem : Local n n' true item item') (hk : k ≤ n) (hk' : k' ≤ n') :
    Local k k' false (furtherItems item k) (furtherItems item' k') := by
  refine Local.of_rounds (fun (_ : Unit) => furtherItems item) (fun _ => furtherItems item')
    (fun hc h _ => outcome_furtherItems_of_nil hc h) (fun _ => .pure [])
    (fun {k k'} hk hk' ih _ => .of_pred ?_) hk hk' ()
  have := hitem.mono (Nat.le_of_succ_le hk) (Nat.le_trans (Nat.sub_le k' 1) hk')
  have := ih ()
  simp only [furtherItems]
  infer_instance

/-- The items of a list stand behind its opening token. -/
instance (priority := high) [hitem : Local n n' true item item'] (close : Symbol) :
    Local (n + 1) (n' + 1) false (items close item) (items close item') := by
  have hothers (first : α) : Local n n' false
      (do
        let others ← furtherItems item (← remaining)
        expect (.symbol close)
        return first :: others : Reader (List α))
      (do
        let others ← furtherItems item' (← remaining)
        expect (.symbol close)
        return first :: others) := by
    refine .of_remaining fun k hk k' hk' => ?_
    have := local_furtherItems hitem hk hk'
    infer_instance
  unfold items
  infer_instance

instance [hitem : Local n n' true item item'] (close : Symbol) :
    Local n n' false (items close item) (items close item') := .of_succ inferInstance

end Items

section Inner

variable {inner inner' : Inner} [∀ p, Forward (inner p)] [∀ p, Forward (inner' p)]
  [hinner : ∀ p, Local n n' true (inner p) (inner' p)]

instance (operator : Token) :
    Local (n + 1) (n' + 1) false (unary inner operator) (unary inner' operator) := by
  unfold unary
  infer_instance

instance : Local (n + 1) (n' + 1) false (grouped inner) (grouped inner') := by
  unfold grouped
  infer_instance

instance : Local n n' false (define inner) (define inner') := by
  unfold define
  infer_instance

instance : Local n n' false (leave inner) (leave inner') := by
  unfold leave
  infer_instance

instance : Local n n' true (bare inner) (bare inner') := by
  unfold bare
  infer_instance

instance : Local n n' true (statement inner) (statement inner') := by
  refine .of_current fun hb _ ht => ?_
  simp only [ht]
  split
  · exact (Local.follows hb).weaken
  · exact (Local.follows hb).weaken
  · exact Local.follows hb

instance : Local n n' true (keyed inner) (keyed inner') := by
  unfold keyed
  infer_instance

omit [∀ p, Forward (inner p)] [∀ p, Forward (inner' p)] hinner in
/-- At the end of the stream a block is refused, whatever the bound may be. -/
theorem outcome_blockItems_of_nil (hc : c.Proper) (h : c.pending = []) (n : Nat) :
    outcome (blockItems inner n) c = outcome (blockItems inner 0) c := by
  obtain ⟨_, _, _, rfl⟩ := hc.eq_of_nil h
  cases n <;> rfl

theorem local_blockItems (hk : k ≤ n) (hk' : k' ≤ n') :
    Local k k' true (blockItems inner k) (blockItems inner' k') := by
  refine Local.of_rounds (fun (_ : Unit) => blockItems inner) (fun _ => blockItems inner')
    (fun hc h _ => outcome_blockItems_of_nil hc h)
    (fun _ => (Follows.throw rfl).congr rfl fun _ _ => rfl) (fun {k k'} hk hk' ih _ => ?_) hk hk' ()
  refine .of_current fun hb _ ht => ?_
  simp only [ht]
  split
  · exact (Follows.pure _).weaken
  split
  · exact .throw rfl
  · refine Follows.bind hb (Local.follows (hb.mono hk hk')) fun _ hd => ?_
    exact .advance_bind (.bind hd.next ((ih ()).follows hd.next) fun _ _ => .pure _)

instance : Local n n' false (block inner) (block inner') := by
  have : Local n n' true (remaining >>= blockItems inner) (remaining >>= blockItems inner') :=
    .of_remaining fun _ hk _ hk' => local_blockItems hk hk'
  unfold block
  infer_instance

instance : Local n n' false (otherwise inner) (otherwise inner') := by
  unfold otherwise
  infer_instance

instance : Local (n + 1) (n' + 1) false (conditional inner) (conditional inner') := by
  unfold conditional
  -- One search for all steps of a conditional would be too long.
  refine .expect_bind (.of_succ (.advance_bind (.bind (hinner .lowest) fun _ => ?_)))
  infer_instance

instance : Local (n + 1) (n' + 1) false (function inner) (function inner') := by
  unfold function
  infer_instance

omit [∀ p, Forward (inner p)] [∀ p, Forward (inner' p)] hinner in
instance (digits : String) : Local n n' true (integer digits) (integer digits) := by
  have : Local n n' true (do throw (.tooLarge (← current)) : Reader (Expr Unit))
      (do throw (.tooLarge (← current))) := .of_current fun _ _ _ => .throw rfl
  refine ⟨fun hb => ?_⟩
  simp only [integer]
  split
  · exact (Follows.pure _).weaken
  · exact Local.follows hb

instance : Local (n + 1) (n' + 1) true (operand inner) (operand inner') := by
  refine .of_current fun hb t' ht => ?_
  simp only [ht]
  split
  all_goals first
    | exact (Local.follows hb).weaken
    | exact Local.follows hb
    | exact .throw rfl

instance (left : Expr Unit) : Local n n' false (continued inner left) (continued inner' left) := by
  refine .of_current fun hb t' ht => ?_
  simp only [ht]
  split <;> exact Local.follows hb

omit [∀ p, Forward (inner p)] [∀ p, Forward (inner' p)] hinner in
/-- At the end of the stream nothing goes on with an expression, whatever the bound may be. -/
theorem outcome_extended_of_nil (hc : c.Proper) (h : c.pending = []) (p : Precedence) (n : Nat)
    (left : Expr Unit) :
    outcome (extended inner p n left) c = outcome (extended inner p 0 left) c := by
  have hup : c.upcoming.value = .finish := by
    obtain ⟨_, _, _, rfl⟩ := hc.eq_of_nil h
    rfl
  cases n with
  | zero => rfl
  | succ n =>
    have hround : outcome (extended inner p (n + 1) left) c =
        outcome (if p < .ofKind c.upcoming.value.kind then do
          advance
          extended inner p n (← continued inner left)
        else pure left) c := rfl
    have hstop : ¬ p < .ofKind Token.finish.kind := Nat.not_lt_zero _
    rw [hround, hup, if_neg hstop]
    rfl

theorem local_extended (p : Precedence) (left : Expr Unit) (hk : k ≤ n + 1) (hk' : k' ≤ n' + 1) :
    Local k k' false (extended inner p k left) (extended inner' p k' left) := by
  refine Local.of_rounds (fun left n => extended inner p n left)
    (fun left n => extended inner' p n left)
    (fun hc h left n => outcome_extended_of_nil hc h p n left)
    (fun left => .pure left) (fun {k k'} hk hk' ih left => .of_pred ?_) hk hk' left
  have hinner (p : Precedence) : Local k (k' - 1) true (inner p) (inner' p) :=
    (hinner p).mono (by omega) (by omega)
  refine .of_upcoming fun hb t' ht => ?_
  simp only [ht]
  exact Local.follows hb

end Inner

/-- At the end of the stream there is no operand, whatever the depth may be. -/
theorem outcome_expression_of_nil (hc : c.Proper) (h : c.pending = []) (p : Precedence)
    (depth : Nat) : outcome (expression depth p) c = outcome (expression 0 p) c := by
  obtain ⟨_, _, _, rfl⟩ := hc.eq_of_nil h
  cases depth <;> rfl

theorem local_expression (depth depth' : Nat) (p : Precedence) :
    Local depth depth' true (expression depth p) (expression depth' p) := by
  refine Local.of_rounds (fun p depth => expression depth p) (fun p depth => expression depth p)
    (fun hc h p n => outcome_expression_of_nil hc h p n)
    (fun _ => (Follows.throw rfl).congr rfl fun _ _ => rfl) (fun {k k'} _ _ ih p => .of_pred ?_)
    (Nat.le_refl depth) (Nat.le_refl depth') p
  have (first : Expr Unit) : Local (k + 1) (k' - 1 + 1) false
      (do extended (expression k) p (← remaining) first)
      (do extended (expression (k' - 1)) p (← remaining) first) :=
    .of_remaining fun _ hj _ hj' => local_extended p first hj hj'
  simp only [expression]
  infer_instance

/-- A program is read alike up to the first token that is blamed, also with other bounds. -/
theorem local_programItems (k k' : Nat) :
    Local k k' true (liftM (programItems k) : Reader Tree) (liftM (programItems k')) := by
  refine Local.of_rounds (fun (_ : Unit) n => (liftM (programItems n) : Reader Tree))
    (fun _ n => liftM (programItems n)) (fun hc h _ n => ?_)
    (fun _ => (Follows.pure []).weaken) (fun {k k'} _ _ ih _ => ⟨fun {m c c'} hb => ?_⟩)
    (Nat.le_refl k) (Nat.le_refl k') ()
  · obtain ⟨_, _, _, rfl⟩ := hc.eq_of_nil h
    cases n <;> rfl
  · have hlocal := local_expression c.pending.length c'.pending.length
    have hsame : Follows true m
        (if c.current.value = .finish then pure [] else do
          let first ← liftM (noting (statement (expression c.pending.length)))
          advance
          let others ← liftM (programItems k)
          return first.toList ++ others)
        (if c.current.value = .finish then pure [] else do
          let first ← liftM (noting (statement (expression c'.pending.length)))
          advance
          let others ← liftM (programItems (k' - 1))
          return first.toList ++ others) c c' := by
      split
      · exact (Follows.pure _).weaken
      · have hb' : Beside c.pending.length c'.pending.length m c c' :=
          { hb with length_le := Nat.le_refl _, length_le' := Nat.le_refl _ }
        refine .bind hb (Local.follows hb') fun _ hd => ?_
        exact .advance_bind (.bind hd.next ((ih ()).follows hd.next) fun _ _ => .pure _)
    refine hsame.congr (outcome_programItems_succ _ _) fun hm _ => ?_
    rw [outcome_programItems_succ, hb.current_eq hm]

end Reader

end Monkey
