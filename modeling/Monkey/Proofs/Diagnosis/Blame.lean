import Monkey.Proofs.Reading.Forward

/-!
# The first diagnostic of a step

What a step reports are the diagnostics that have been noted, and the one that it throws if it gives
no result. A step blames a diagnostic if that is the first new one of these. Of two steps, the first
one blames it, or the first one reads without any and the second one blames it. So what can be said
of the first diagnostic is said along the steps, as it is for readings.
-/

namespace Monkey.Reader

variable {α β : Type}

/-- All diagnostics of an outcome, the latest first. -/
def reported : Except Diagnostic α × Cursor → List Diagnostic
  | (.ok _, d) => d.noted
  | (.error e, d) => e :: d.noted

/-- The diagnostic is the first new one of the step. -/
def Blames (r : Reader α) (c : Cursor) (e : Diagnostic) : Prop :=
  (e :: c.noted) <:+ reported (outcome r c)

/-- No diagnostic is taken back. -/
theorem noted_suffix_reported (r : Reader α) [hr : Forward r] (c : Cursor) :
    c.noted <:+ reported (outcome r c) := by
  have hl := (hr.leads c).noted
  generalize outcome r c = o at hl ⊢
  rcases o with ⟨e | a, d⟩
  · exact hl.trans (List.suffix_cons e _)
  · exact hl

/-- A step that reads without a diagnostic blames none. -/
theorem Reads.not_blames {r : Reader α} {c d : Cursor} {a : α} (h : Reads r c a d)
    (e : Diagnostic) : ¬ Blames r c e := by
  intro hb
  rw [Blames, h.outcome_eq, reported, h.noted_eq] at hb
  have hlen := hb.length_le
  rw [List.length_cons] at hlen
  omega

/-- Two steps with one outcome, from cursors at which the same is noted, blame the same. -/
theorem blames_congr {r s : Reader α} {c d : Cursor} {e : Diagnostic}
    (ho : outcome r c = outcome s d) (hn : d.noted = c.noted) : Blames r c e ↔ Blames s d e := by
  rw [Blames, Blames, ho, hn]

/-- Of two steps the first one blames, or it reads and the second one blames. -/
theorem blames_bind_iff {r : Reader α} {f : α → Reader β} [hr : Forward r] [hf : ∀ a, Forward (f a)]
    {c : Cursor} {e : Diagnostic} :
    Blames (r >>= f) c e ↔ Blames r c e ∨ ∃ a d, Reads r c a d ∧ Blames (f a) d e := by
  have hl := (hr.leads c).noted
  unfold Blames
  rw [outcome_bind]
  rcases ho : outcome r c with ⟨e' | a, d⟩
  · refine ⟨.inl, ?_⟩
    rintro (h | ⟨a, d', hreads, -⟩)
    · exact h
    · rw [hreads.outcome_eq] at ho
      cases ho
  · rw [ho] at hl
    have hrest := noted_suffix_reported (f a) d
    constructor
    · intro h
      by_cases hn : d.noted = c.noted
      · exact .inr ⟨a, d, ⟨ho, hn⟩, by rwa [hn]⟩
      · have hlonger : c.noted.length < d.noted.length :=
          Nat.lt_of_le_of_ne hl.length_le fun hlen => hn (hl.eq_of_length hlen).symm
        exact .inl (List.suffix_of_suffix_length_le h hrest hlonger)
    · rintro (h | ⟨a', d', hreads, h⟩)
      · exact h.trans hrest
      · rw [hreads.outcome_eq] at ho
        cases ho
        rwa [hreads.noted_eq] at h

theorem not_blames_pure {a : α} {c : Cursor} {e : Diagnostic} : ¬ Blames (pure a : Reader α) c e :=
  Reads.not_blames (reads_pure_iff.2 ⟨rfl, rfl⟩) e

/-- What is made of a result blames nothing. -/
theorem blames_bind_pure_iff {r : Reader α} {f : α → β} [Forward r] {c : Cursor} {e : Diagnostic} :
    Blames (r >>= fun a => pure (f a)) c e ↔ Blames r c e := by
  rw [blames_bind_iff]
  constructor
  · rintro (h | ⟨a, d, -, h⟩)
    · exact h
    · exact absurd h not_blames_pure
  · exact .inl

theorem blames_throw_iff {d e : Diagnostic} {c : Cursor} :
    Blames (throw d : Reader α) c e ↔ e = d := by
  have ho : outcome (throw d : Reader α) c = (.error d, c) := rfl
  rw [Blames, ho, reported]
  constructor
  · intro h
    exact (List.cons.inj (h.eq_of_length (by simp))).1
  · rintro rfl
    exact List.suffix_refl _

/-- A choice blames what the step blames that is chosen. -/
theorem blames_ite_iff {p : Prop} [Decidable p] {r s : Reader α} {c : Cursor} {e : Diagnostic} :
    Blames (if p then r else s) c e ↔ p ∧ Blames r c e ∨ ¬ p ∧ Blames s c e := by
  by_cases hp : p <;> simp [hp]

/-- What a step blames is blamed when its diagnostic is noted. -/
theorem blames_noting_iff {r : Reader α} {c : Cursor} {e : Diagnostic} :
    Blames (liftM (noting r) : Reader (Option α)) c e ↔ Blames r c e := by
  rw [Blames, Blames, outcome_lift, outcome_noting]
  rcases outcome r c with ⟨e' | a, d⟩ <;> rfl

section Bind

variable {f : Spanned Token → Reader β} {g : Unit → Reader β} {c : Cursor} {e : Diagnostic}

theorem blames_current_bind : Blames (current >>= f) c e ↔ Blames (f c.current) c e :=
  blames_congr rfl rfl

theorem blames_upcoming_bind : Blames (upcoming >>= f) c e ↔ Blames (f c.upcoming) c e :=
  blames_congr rfl rfl

theorem blames_sees_bind {f : Bool → Reader β} {kind : Kind} :
    Blames (sees kind >>= f) c e ↔ Blames (f (decide (c.upcoming.value.kind = kind))) c e :=
  blames_congr rfl rfl

theorem blames_remaining_bind {f : Nat → Reader β} :
    Blames (remaining >>= f) c e ↔ Blames (f c.pending.length) c e := blames_congr rfl rfl

theorem blames_advance_bind : Blames (advance >>= g) c e ↔ Blames (g ()) c.next e :=
  blames_congr rfl rfl

/-- The upcoming token is blamed if it is not the expected one. -/
theorem blames_expect_bind {kind : Kind} :
    Blames (expect kind >>= g) c e ↔
      c.upcoming.value.kind ≠ kind ∧ e = .expected kind c.upcoming ∨
        c.upcoming.value.kind = kind ∧ Blames (g ()) c.next e := by
  by_cases h : c.upcoming.value.kind = kind
  · have ho : outcome (expect kind >>= g) c = outcome (g ()) c.next := by
      rw [outcome_bind, outcome_expect, if_pos h]
    rw [blames_congr (d := c.next) ho rfl]
    simp only [h, ne_eq, not_true_eq_false, false_and, true_and, false_or]
  · have ho : outcome (expect kind >>= g) c =
        outcome (throw (.expected kind c.upcoming) : Reader β) c := by
      rw [outcome_bind, outcome_expect, if_neg h]
      rfl
    rw [blames_congr ho rfl, blames_throw_iff]
    simp only [h, ne_eq, not_false_eq_true, true_and, false_and, or_false]

/-- Passing a token that may be there blames nothing. -/
theorem blames_skip_bind {kind : Kind} :
    Blames (skip kind >>= g) c e ↔
      Blames (g ()) (if c.upcoming.value.kind = kind then c.next else c) e := by
  refine blames_congr ?_ (by split <;> rfl)
  rw [outcome_bind, outcome_skip]

/-- Nothing is blamed where a token may be passed at the end. -/
theorem blames_skip_last_iff {r : Reader α} [Forward r] {f : α → β} {kind : Kind} :
    Blames (r >>= fun a => skip kind >>= fun _ => pure (f a)) c e ↔ Blames r c e := by
  rw [blames_bind_iff]
  constructor
  · rintro (h | ⟨a, d, -, h⟩)
    · exact h
    · rw [blames_skip_bind] at h
      exact absurd h not_blames_pure
  · exact .inl

end Bind

theorem blames_currentName_iff {c : Cursor} {e : Diagnostic} :
    Blames currentName c e ↔
      (∀ x, c.current.value ≠ .name x) ∧ e = .expected .name c.current := by
  unfold currentName
  rw [blames_current_bind]
  split
  · next text ht => exact iff_of_false not_blames_pure fun h => h.1 text ht
  · next hn => rw [blames_throw_iff, and_iff_right hn]

/-- A stream is refused with all that is noted until its end, if that is anything. -/
theorem noted_of_parse_eq_error {s : TokenStream} {ds : List Diagnostic} (h : s.parse = .error ds) :
    ds ≠ [] ∧ (outcome (liftM (programItems s.tokens.length)) (.start s)).2.noted = ds.reverse := by
  rw [outcome_lift]
  unfold TokenStream.parse program at h
  generalize (programItems s.tokens.length).run (.start s) = read at h ⊢
  obtain ⟨tree, d⟩ := read
  cases hd : d.noted with
  | nil =>
    simp only [hd, List.isEmpty_nil, if_true] at h
    cases h
  | cons e es =>
    simp only [hd, List.isEmpty_cons, Bool.false_eq_true, if_false, Except.error.injEq] at h
    subst h
    exact ⟨by simp, by rw [List.reverse_reverse]⟩

end Monkey.Reader
