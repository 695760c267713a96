import Monkey.Syntax.Cursor

/-!
# Reading steps that note nothing

A step is judged by what it gives and where it stops. The readings that matter for accepted texts
are those that give a result and note no diagnostic; a sequence of steps is such a reading exactly
when every part of it is one, because no step takes a diagnostic back. That, and that no step moves
backwards, is what it means for a step to go forward.
-/

namespace Monkey

namespace Cursor

/-- The tokens from the current one on, without their places. -/
def values (c : Cursor) : List Token := c.pending.map (·.value)

/-- The tokens behind the current one, without their places. -/
def after (c : Cursor) : List Token := c.pending.tail.map (·.value)

/-- The end of the stream is marked as such, and it is the only token that is. -/
structure Proper (c : Cursor) : Prop where
  /-- The token at the end is the mark of the end. -/
  finish : c.finish.value = .finish
  /-- No token before the end is. -/
  pending : ∀ t ∈ c.values, t ≠ .finish

/-- What every step does to a cursor: it takes tokens from the front and adds diagnostics. -/
structure LeadsTo (c d : Cursor) : Prop where
  /-- The tokens that are left are the last ones of those that were. -/
  pending : d.pending <:+ c.pending
  /-- The end of the stream stays where it is. -/
  finish : d.finish = c.finish
  /-- No diagnostic is taken back. -/
  noted : c.noted <:+ d.noted

theorem LeadsTo.refl (c : Cursor) : c.LeadsTo c :=
  ⟨List.suffix_refl _, rfl, List.suffix_refl _⟩

theorem LeadsTo.trans {c d e : Cursor} (h : c.LeadsTo d) (h' : d.LeadsTo e) : c.LeadsTo e :=
  ⟨h'.pending.trans h.pending, h'.finish.trans h.finish, h.noted.trans h'.noted⟩

theorem leadsTo_next (c : Cursor) : c.LeadsTo c.next :=
  ⟨List.tail_suffix _, rfl, List.suffix_refl _⟩

theorem leadsTo_note (c : Cursor) (d : Diagnostic) : c.LeadsTo (c.note d) :=
  ⟨List.suffix_refl _, rfl, List.suffix_cons d _⟩

/-- Only the tokens that are left and the end decide whether a cursor is proper. -/
theorem Proper.of_leadsTo {c d : Cursor} (h : c.Proper) (hd : c.LeadsTo d) : d.Proper where
  finish := by rw [hd.finish, h.finish]
  pending t ht := h.pending t (List.IsSuffix.subset (hd.pending.map _) ht)

/-- Nothing was noted on the way between two cursors if nothing was noted from the first of them
to a later one. -/
theorem LeadsTo.noted_eq {c d e : Cursor} (h : c.LeadsTo d) (h' : d.LeadsTo e)
    (he : e.noted = c.noted) : d.noted = c.noted := by
  have hlow := h.noted.length_le
  have hhigh := h'.noted.length_le
  rw [he] at hhigh
  exact (h.noted.eq_of_length (by omega)).symm

theorem values_next (c : Cursor) : c.next.values = c.after := rfl

theorem length_pending_next (c : Cursor) : c.next.pending.length = c.pending.length - 1 :=
  List.length_tail

theorem Proper.next {c : Cursor} (h : c.Proper) : c.next.Proper := h.of_leadsTo c.leadsTo_next

/-- The current token is the first one that is left. -/
theorem Proper.current_eq {c : Cursor} (h : c.Proper) :
    c.current.value = c.values.headD .finish := by
  unfold current values
  cases c.pending with
  | nil => exact h.finish
  | cons t ts => rfl

/-- The upcoming token is the first one behind the current one. -/
theorem Proper.upcoming_eq {c : Cursor} (h : c.Proper) :
    c.upcoming.value = c.after.headD .finish := h.next.current_eq

/-- A current token other than the end stands in front of those behind it. -/
theorem Proper.values_eq {c : Cursor} (h : c.Proper) (hne : c.current.value ≠ .finish) :
    c.values = c.current.value :: c.after := by
  unfold current values after at *
  cases hp : c.pending with
  | nil =>
    rw [hp] at hne
    exact absurd h.finish hne
  | cons t ts => rfl

/-- An upcoming token other than the end stands in front of those behind it. -/
theorem Proper.after_eq {c : Cursor} (h : c.Proper) (hne : c.upcoming.value ≠ .finish) :
    c.after = c.upcoming.value :: c.next.after := h.next.values_eq hne

/-- At the end of the stream no tokens are left. -/
theorem Proper.values_eq_nil {c : Cursor} (h : c.Proper) (he : c.current.value = .finish) :
    c.values = [] := by
  rw [h.current_eq] at he
  cases hv : c.values with
  | nil => rfl
  | cons t ts =>
    rw [hv] at he
    exact absurd he (h.pending t (by rw [hv]; exact List.mem_cons_self))

/-- A cursor stands on the end exactly when no tokens are left. -/
theorem Proper.current_eq_finish_iff {c : Cursor} (h : c.Proper) :
    c.current.value = .finish ↔ c.pending = [] := by
  constructor
  · intro hc
    exact List.map_eq_nil_iff.1 (h.values_eq_nil hc)
  · intro hc
    rw [current, hc]
    exact h.finish

/-- A token that is there comes before the end. -/
theorem Proper.pending_ne_nil {c : Cursor} (h : c.Proper) {t : Token} (hcurrent : c.current.value = t)
    (ht : t ≠ .finish) : c.pending ≠ [] :=
  fun hnil => ht (hcurrent ▸ h.current_eq_finish_iff.2 hnil)

/-- An upcoming token of a kind other than that of the end comes before the end. -/
theorem Proper.next_pending_ne_nil {c : Cursor} (h : c.Proper) {kind : Kind} (hkind : kind ≠ .finish)
    (hupcoming : c.upcoming.value.kind = kind) : c.next.pending ≠ [] := fun hnil =>
  hkind (by rw [← hupcoming, show c.upcoming = c.next.current from rfl,
    h.next.current_eq_finish_iff.2 hnil]; rfl)

/-- Without any tokens left, a cursor stands on the end and sees nothing else. -/
theorem Proper.eq_of_nil {c : Cursor} (h : c.Proper) (hc : c.pending = []) :
    ∃ span taken noted, c = ⟨[], ⟨.finish, span⟩, taken, noted⟩ := by
  obtain ⟨_, ⟨_, span⟩, taken, noted⟩ := c
  obtain rfl : _ = Token.finish := h.finish
  obtain rfl : _ = [] := hc
  exact ⟨span, taken, noted, rfl⟩

theorem Proper.eq_of_length_le_zero {c : Cursor} (h : c.Proper) (hc : c.pending.length ≤ 0) :
    ∃ span taken noted, c = ⟨[], ⟨.finish, span⟩, taken, noted⟩ :=
  h.eq_of_nil (List.eq_nil_of_length_eq_zero (Nat.le_zero.1 hc))

/-- A token of the kind of a symbol is that symbol. -/
theorem eq_of_kind_symbol {t : Token} {s : Symbol} (h : t.kind = .symbol s) : t = .symbol s := by
  cases t <;> cases h
  rfl

/-- A token of the kind of a keyword is that keyword. -/
theorem eq_of_kind_keyword {t : Token} {k : Keyword} (h : t.kind = .keyword k) :
    t = .keyword k := by
  cases t <;> cases h
  rfl

/-- An upcoming symbol stands in front of the tokens behind it. -/
theorem Proper.after_eq_symbol {c : Cursor} (hc : c.Proper) {s : Symbol}
    (h : c.upcoming.value.kind = .symbol s) : c.after = .symbol s :: c.next.after := by
  have ht := eq_of_kind_symbol h
  rw [hc.after_eq (by rw [ht]; simp), ht]

/-- An upcoming keyword stands in front of the tokens behind it. -/
theorem Proper.after_eq_keyword {c : Cursor} (hc : c.Proper) {k : Keyword}
    (h : c.upcoming.value.kind = .keyword k) : c.after = .keyword k :: c.next.after := by
  have ht := eq_of_kind_keyword h
  rw [hc.after_eq (by rw [ht]; simp), ht]

/-- The first token that is left is the current one. -/
theorem Proper.current_of_values {c : Cursor} (hc : c.Proper) {t : Token} {ts : List Token}
    (h : c.values = t :: ts) : c.current.value = t := by rw [hc.current_eq, h, List.headD_cons]

/-- The first token behind the current one is the upcoming one. -/
theorem Proper.upcoming_of_after {c : Cursor} (hc : c.Proper) {t : Token} {ts : List Token}
    (h : c.after = t :: ts) : c.upcoming.value = t := hc.next.current_of_values h

theorem Proper.kind_of_after {c : Cursor} (hc : c.Proper) {t : Token} {ts : List Token} {k : Kind}
    (h : c.after = t :: ts) (hk : t.kind = k) : c.upcoming.value.kind = k := by
  rw [hc.upcoming_of_after h, hk]

/-- Behind the current token stand all that are left but the first. -/
theorem after_of_values {c : Cursor} {t : Token} {ts : List Token} (h : c.values = t :: ts) :
    c.after = ts := by
  have hmap : c.after = c.values.tail := List.map_tail
  rw [hmap, h, List.tail_cons]

theorem after_next {c : Cursor} {t : Token} {ts : List Token} (h : c.after = t :: ts) :
    c.next.after = ts := after_of_values (c := c.next) h

end Cursor

namespace Reader

variable {α β : Type}

/-- What a step gives from a cursor, and where it stops. -/
def outcome (r : Reader α) (c : Cursor) : Except Diagnostic α × Cursor := r.run.run c

/-- The outcome of one step after another. -/
theorem outcome_bind (r : Reader α) (f : α → Reader β) (c : Cursor) :
    outcome (r >>= f) c = match outcome r c with
      | (.ok a, d) => outcome (f a) d
      | (.error e, d) => (.error e, d) := by
  unfold outcome
  simp only [ExceptT.run_bind, StateT.run_bind]
  rcases r.run.run c with ⟨a | a, d⟩ <;> rfl

/-- Two steps give a result if both of them do. -/
theorem exists_of_outcome_bind {r : Reader α} {f : α → Reader β} {c d : Cursor} {b : β}
    (h : outcome (r >>= f) c = (.ok b, d)) :
    ∃ a e, outcome r c = (.ok a, e) ∧ outcome (f a) e = (.ok b, d) := by
  rw [outcome_bind] at h
  split at h
  · next a e he => exact ⟨a, e, he, h⟩
  · cases h

theorem outcome_current_bind (f : Spanned Token → Reader α) (c : Cursor) :
    outcome (current >>= f) c = outcome (f c.current) c := rfl

theorem outcome_sees_bind (kind : Kind) (f : Bool → Reader α) (c : Cursor) :
    outcome (sees kind >>= f) c = outcome (f (decide (c.upcoming.value.kind = kind))) c := rfl

/-- Whether a diagnostic is noted or not, a noted step gives something. -/
theorem outcome_noting (r : Reader α) (c : Cursor) :
    (noting r).run c = match outcome r c with
      | (.ok a, d) => (some a, d)
      | (.error e, d) => (none, d.note e) := by
  unfold outcome noting
  simp only [StateT.run_bind]
  rcases r.run.run c with ⟨a | a, d⟩ <;> rfl

theorem outcome_lift (m : StateM Cursor α) (c : Cursor) :
    outcome (liftM m) c = (.ok (m.run c).1, (m.run c).2) := rfl

/-- A step that only goes forward, whatever it gives. -/
class Forward (r : Reader α) : Prop where
  /-- Where the step stops is reached from where it starts. -/
  leads : ∀ c : Cursor, c.LeadsTo (outcome r c).2

theorem Forward.leadsTo {r : Reader α} [hr : Forward r] {c d : Cursor} {o : Except Diagnostic α}
    (h : outcome r c = (o, d)) : c.LeadsTo d := by
  have hl := hr.leads c
  rwa [h] at hl

/-- The step gives a result and notes nothing. -/
structure Reads (r : Reader α) (c : Cursor) (a : α) (d : Cursor) : Prop where
  /-- What is given, and where the step stops. -/
  outcome_eq : outcome r c = (.ok a, d)
  /-- Nothing is noted. -/
  noted_eq : d.noted = c.noted

theorem Reads.leadsTo {r : Reader α} [Forward r] {c d : Cursor} {a : α} (h : Reads r c a d) :
    c.LeadsTo d := Forward.leadsTo h.outcome_eq

theorem Reads.proper {r : Reader α} [Forward r] {c d : Cursor} {a : α} (h : Reads r c a d)
    (hc : c.Proper) : d.Proper := hc.of_leadsTo h.leadsTo

/-- Two readings one after the other are one reading. -/
theorem Reads.bind {r : Reader α} {f : α → Reader β} {c d e : Cursor} {a : α} {b : β}
    (h : Reads r c a d) (h' : Reads (f a) d b e) : Reads (r >>= f) c b e := by
  refine ⟨?_, h'.noted_eq.trans h.noted_eq⟩
  rw [outcome_bind, h.outcome_eq]
  exact h'.outcome_eq

/-- A reading of two steps that go forward consists of a reading of each. -/
theorem reads_bind_iff {r : Reader α} {f : α → Reader β} [hr : Forward r] [hf : ∀ a, Forward (f a)]
    {c e : Cursor} {b : β} :
    Reads (r >>= f) c b e ↔ ∃ a d, Reads r c a d ∧ Reads (f a) d b e := by
  constructor
  · intro ⟨ho, hn⟩
    have hl := hr.leads c
    rw [outcome_bind] at ho
    split at ho
    · next a d hd =>
      rw [hd] at hl
      have hl' := (hf a).leads d
      rw [ho] at hl'
      have hdn := hl.noted_eq hl' hn
      exact ⟨a, d, ⟨hd, hdn⟩, ⟨ho, hn.trans hdn.symm⟩⟩
    · cases ho
  · rintro ⟨a, d, h, h'⟩
    exact h.bind h'

instance (a : α) : Forward (pure a : Reader α) := ⟨Cursor.LeadsTo.refl⟩

instance (d : Diagnostic) : Forward (throw d : Reader α) := ⟨Cursor.LeadsTo.refl⟩

instance : Forward current := ⟨Cursor.LeadsTo.refl⟩

instance : Forward upcoming := ⟨Cursor.LeadsTo.refl⟩

instance (kind : Kind) : Forward (sees kind) := ⟨Cursor.LeadsTo.refl⟩

instance : Forward remaining := ⟨Cursor.LeadsTo.refl⟩

instance : Forward advance := ⟨Cursor.leadsTo_next⟩

/-- One step after another goes forward if each of them does. -/
theorem forward_bind {r : Reader α} {f : α → Reader β} (hr : Forward r) (hf : ∀ a, Forward (f a)) :
    Forward (r >>= f) where
  leads c := by
    have hl := hr.leads c
    rw [outcome_bind]
    split
    · next a d hd =>
      rw [hd] at hl
      exact hl.trans ((hf a).leads d)
    · next d e hd => rwa [hd] at hl

instance {r : Reader α} {f : α → Reader β} [hr : Forward r] [hf : ∀ a, Forward (f a)] :
    Forward (r >>= f) := forward_bind hr hf

instance {p : Prop} [Decidable p] {r s : Reader α} [hr : Forward r] [hs : Forward s] :
    Forward (if p then r else s) := by
  split
  · exact hr
  · exact hs

instance (kind : Kind) : Forward (expect kind) := by unfold expect; infer_instance

instance (kind : Kind) : Forward (skip kind) := by unfold skip; infer_instance

instance : Forward currentName where
  leads c := by
    unfold currentName
    rw [outcome_bind]
    change c.LeadsTo (outcome (match c.current.value with
      | .name text => pure text
      | _ => throw (.expected .name c.current) : Reader String) c).2
    split <;> exact .refl c

/-- A step whose diagnostic is noted goes forward like the step itself. -/
instance {r : Reader α} [hr : Forward r] : Forward (liftM (noting r) : Reader (Option α)) where
  leads c := by
    have hl := hr.leads c
    rw [outcome_lift, outcome_noting]
    split
    · next a d hd => rwa [hd] at hl
    · next e d hd =>
      rw [hd] at hl
      exact hl.trans (d.leadsTo_note e)

instance forward_furtherItems {item : Reader α} [Forward item] (n : Nat) :
    Forward (furtherItems item n) := by
  induction n with
  | zero => exact inferInstanceAs (Forward (pure []))
  | succ n ih =>
    unfold furtherItems
    infer_instance

instance {item : Reader α} [Forward item] (close : Symbol) : Forward (items close item) := by
  unfold items
  infer_instance

/-- Two steps with one outcome, from cursors at which the same is noted, have the same readings. -/
theorem reads_congr {r s : Reader α} {c d e : Cursor} {a : α} (ho : outcome r c = outcome s d)
    (hn : d.noted = c.noted) : Reads r c a e ↔ Reads s d a e := by
  constructor
  · rintro ⟨h, h'⟩
    exact ⟨ho ▸ h, h'.trans hn.symm⟩
  · rintro ⟨h, h'⟩
    exact ⟨ho ▸ h, h'.trans hn⟩

theorem reads_pure_iff {a b : α} {c d : Cursor} :
    Reads (pure a : Reader α) c b d ↔ b = a ∧ d = c := by
  constructor
  · rintro ⟨h, -⟩
    cases h
    exact ⟨rfl, rfl⟩
  · rintro ⟨rfl, rfl⟩
    exact ⟨rfl, rfl⟩

theorem not_reads_throw {e : Diagnostic} {a : α} {c d : Cursor} :
    ¬ Reads (throw e : Reader α) c a d := by
  intro h
  cases h.outcome_eq

/-- A choice is read as the step that is chosen. -/
theorem reads_ite_iff {p : Prop} [Decidable p] {r s : Reader α} {a : α} {c d : Cursor} :
    Reads (if p then r else s) c a d ↔ p ∧ Reads r c a d ∨ ¬ p ∧ Reads s c a d := by
  by_cases hp : p <;> simp [hp]

theorem outcome_expect (kind : Kind) (c : Cursor) :
    outcome (expect kind) c =
      if c.upcoming.value.kind = kind then (.ok (), c.next)
      else (.error (.expected kind c.upcoming), c) := by
  change outcome (if c.upcoming.value.kind = kind then advance
    else throw (.expected kind c.upcoming)) c = _
  split <;> rfl

theorem outcome_skip (kind : Kind) (c : Cursor) :
    outcome (skip kind) c = (.ok (), if c.upcoming.value.kind = kind then c.next else c) := by
  change outcome (if decide (c.upcoming.value.kind = kind) = true then advance else pure ()) c = _
  by_cases h : c.upcoming.value.kind = kind
  · simp only [h, decide_true, ite_true]
    rfl
  · simp only [h, decide_false, Bool.false_eq_true, ite_false]
    rfl

/-- A step whose diagnostic would be noted has none. -/
theorem reads_noting_iff {r : Reader α} [hr : Forward r] {c d : Cursor} {o : Option α} :
    Reads (liftM (noting r) : Reader (Option α)) c o d ↔ ∃ a, o = some a ∧ Reads r c a d := by
  constructor
  · intro ⟨ho, hn⟩
    have hl := hr.leads c
    rw [outcome_lift, outcome_noting] at ho
    split at ho
    · next a e he =>
      cases ho
      exact ⟨a, rfl, he, hn⟩
    · next f e he =>
      cases ho
      rw [he] at hl
      have hlen := hl.noted.length_le
      have hlonger := congrArg List.length hn
      simp only [Cursor.note, List.length_cons] at hlonger hlen
      omega
  · rintro ⟨a, rfl, h⟩
    refine ⟨?_, h.noted_eq⟩
    rw [outcome_lift, outcome_noting, h.outcome_eq]

theorem reads_currentName_iff {c d : Cursor} {x : String} :
    Reads currentName c x d ↔ c.current.value = .name x ∧ d = c := by
  have ho : Reads currentName c x d ↔ Reads (match c.current.value with
    | .name text => pure text
    | _ => throw (.expected .name c.current) : Reader String) c x d := reads_congr rfl rfl
  rw [ho]
  split
  · next text ht =>
    rw [reads_pure_iff, ht, Token.name.injEq, eq_comm]
  · next hn => exact iff_of_false not_reads_throw fun h => hn x h.1

section Bind

variable {f : Spanned Token → Reader β} {g : Unit → Reader β} {c d : Cursor} {b : β}

theorem reads_current_bind : Reads (current >>= f) c b d ↔ Reads (f c.current) c b d :=
  reads_congr rfl rfl

theorem reads_upcoming_bind : Reads (upcoming >>= f) c b d ↔ Reads (f c.upcoming) c b d :=
  reads_congr rfl rfl

theorem reads_sees_bind {f : Bool → Reader β} {kind : Kind} :
    Reads (sees kind >>= f) c b d ↔ Reads (f (decide (c.upcoming.value.kind = kind))) c b d :=
  reads_congr rfl rfl

theorem reads_remaining_bind {f : Nat → Reader β} :
    Reads (remaining >>= f) c b d ↔ Reads (f c.pending.length) c b d := reads_congr rfl rfl

theorem reads_advance_bind : Reads (advance >>= g) c b d ↔ Reads (g ()) c.next b d :=
  reads_congr rfl rfl

/-- An expected token has to be there, and it is passed. -/
theorem reads_expect_bind {kind : Kind} :
    Reads (expect kind >>= g) c b d ↔ c.upcoming.value.kind = kind ∧ Reads (g ()) c.next b d := by
  by_cases h : c.upcoming.value.kind = kind
  · rw [and_iff_right h]
    refine reads_congr ?_ rfl
    rw [outcome_bind, outcome_expect, if_pos h]
  · refine iff_of_false (fun hr => ?_) (fun hr => h hr.1)
    have ho := hr.outcome_eq
    rw [outcome_bind, outcome_expect, if_neg h] at ho
    cases ho

/-- A token that may be skipped is passed if it is there. -/
theorem reads_skip_bind {kind : Kind} :
    Reads (skip kind >>= g) c b d ↔
      Reads (g ()) (if c.upcoming.value.kind = kind then c.next else c) b d := by
  refine reads_congr ?_ (by split <;> rfl)
  rw [outcome_bind, outcome_skip]

end Bind

end Reader

end Monkey
