import Monkey.Proofs.Evaluation.Making

/-!
# Moments of a course

In a course every array, hash and function was made at one moment, and its identity tells when: nothing
else that occurs in the course has that identity. So a value with an identity can be spoken of as the one
that was made then, wherever it has got to since.
-/

namespace Monkey

/-- At a moment of the past, the machine was about to make the value. -/
def MadeAt (past : List Machine) (k : Nat) (v : Value) : Prop := ∃ m, past[k]? = some m ∧ m.Makes v

variable {past : List Machine} {m : Machine} {k : Nat} {u v : Value}

/-- What was made is made later, or it was made before. -/
theorem madeAt_concat : MadeAt (past ++ [m]) k v ↔ MadeAt past k v ∨ k = past.length ∧ m.Makes v := by
  constructor
  · rintro ⟨x, hx, hmakes⟩
    rcases getElem?_concat_eq_some_iff.1 hx with hx | ⟨rfl, rfl⟩
    · exact .inl ⟨x, hx, hmakes⟩
    · exact .inr ⟨rfl, hmakes⟩
  · rintro (⟨x, hx, hmakes⟩ | ⟨rfl, hmakes⟩)
    · exact ⟨x, getElem?_concat_eq_some_iff.2 (.inl hx), hmakes⟩
    · exact ⟨m, getElem?_concat_eq_some_iff.2 (.inr ⟨rfl, rfl⟩), hmakes⟩

/-- At one moment, one value is made. -/
theorem MadeAt.unique (h : MadeAt past k u) (h' : MadeAt past k v) : u = v := by
  obtain ⟨x, hx, hu⟩ := h
  obtain ⟨y, hy, hv⟩ := h'
  cases hx.symm.trans hy
  exact hu.unique hv

theorem MadeAt.identity?_ne_none (h : MadeAt past k v) : v.identity? ≠ none := by
  obtain ⟨x, -, hmakes⟩ := h
  rw [hmakes.identity?]
  exact Option.some_ne_none _

/-- The identities of values tell when they were made. -/
structure Accounts (past : List Machine) (m : Machine) : Prop where
  /-- Identities that have been given away are not given away again. -/
  used : ∀ k v, MadeAt past k v → ∀ i ∈ v.identity?, i < m.world.nextIdentity
  /-- Values with one identity were made at one moment. -/
  moment : ∀ k l u v, MadeAt past k u → MadeAt past l v → u.identity? = v.identity? → k = l
  /-- Whatever has an identity was made. -/
  origin : ∀ v, OccursIn (past ++ [m]) v → v.identity? ≠ none → ∃ k, MadeAt past k v

namespace Accounts

variable {m' : Machine}

/-- A state from which nothing is made can be followed by one that contains nothing new. -/
theorem idle (h : Accounts past m) (hidle : m.step = none)
    (hworld : m.world.nextIdentity = m'.world.nextIdentity)
    (hnew : ∀ v, m'.Contains v → m.Contains v ∨ v.identity? = none) :
    Accounts (past ++ [m]) m' := by
  have hmade {k : Nat} {v : Value} (hv : MadeAt (past ++ [m]) k v) : MadeAt past k v :=
    (madeAt_concat.1 hv).resolve_right fun hm => hm.2.step_ne_none hidle
  refine ⟨fun k v hv => ?_, fun k l u v hu hv => h.moment k l u v (hmade hu) (hmade hv),
    fun v hv hid => ?_⟩
  · rw [← hworld]
    exact h.used k v (hmade hv)
  · have hold : OccursIn (past ++ [m]) v := by
      obtain ⟨x, hx, hcontains⟩ := hv
      rcases List.mem_append.1 hx with hx | hx
      · exact ⟨x, hx, hcontains⟩
      · rw [List.mem_singleton.1 hx] at hcontains
        exact ⟨m, List.mem_concat_self, (hnew v hcontains).resolve_right hid⟩
    obtain ⟨k, hk⟩ := h.origin v hold hid
    exact ⟨k, madeAt_concat.2 (.inl hk)⟩

/-- A step gives a new identity to what it makes. -/
theorem step (h : Accounts past m) (hstep : m.step = some m') : Accounts (past ++ [m]) m' where
  used k v hv i hi := by
    rcases madeAt_concat.1 hv with hv | ⟨-, hmakes⟩
    · exact Nat.lt_of_lt_of_le (h.used k v hv i hi) (Machine.nextIdentity_step hstep)
    · cases hi.symm.trans hmakes.identity?
      rw [hmakes.nextIdentity_step hstep]
      exact Nat.lt_succ_self _
  moment k l u v hu hv heq := by
    rcases madeAt_concat.1 hu with hu | ⟨rfl, hmakesu⟩ <;>
      rcases madeAt_concat.1 hv with hv | ⟨rfl, hmakesv⟩
    · exact h.moment k l u v hu hv heq
    · exact absurd (h.used k u hu _ (heq.trans hmakesv.identity?)) (Nat.lt_irrefl _)
    · exact absurd (h.used l v hv _ (heq.symm.trans hmakesu.identity?)) (Nat.lt_irrefl _)
    · rfl
  origin v hv hid := by
    have hold (hv : OccursIn (past ++ [m]) v) : ∃ k, MadeAt (past ++ [m]) k v := by
      obtain ⟨k, hk⟩ := h.origin v hv hid
      exact ⟨k, madeAt_concat.2 (.inl hk)⟩
    obtain ⟨x, hx, hcontains⟩ := hv
    rcases List.mem_append.1 hx with hx | hx
    · exact hold ⟨x, hx, hcontains⟩
    · rw [List.mem_singleton.1 hx] at hcontains
      rcases Machine.contains_of_step hstep hcontains with hm | hnone | hmakes
      · exact hold ⟨m, List.mem_concat_self, hm⟩
      · exact absurd hnone hid
      · exact ⟨past.length, madeAt_concat.2 (.inr ⟨rfl, hmakes⟩)⟩

end Accounts

/-- In a course, identities tell when values were made. -/
theorem Course.accounts {sink : Sink} {programs : List Program} (h : Course sink programs past m) :
    Accounts past m := by
  induction h with
  | start =>
    refine ⟨by simp [MadeAt], by simp [MadeAt], fun v hv hid => ?_⟩
    obtain ⟨x, hx, hcontains⟩ := hv
    rw [List.nil_append, List.mem_singleton] at hx
    subst hx
    cases hcontains with
    | task control mem part => cases control
    | value control part =>
      cases control
      cases part
      exact absurd rfl hid
    | frame level mem part => cases level
    | bound scope binding part =>
      exact absurd (World.binds_initial (fun _ => False) sink _ scope _ binding) id
  | @enrol programs past m h idle tree ih =>
    refine ih.idle idle rfl fun v hv => .inl ?_
    cases hv with
    | task control mem part => exact .task control mem part
    | value control part => exact .value control part
    | frame level mem part => exact .frame level mem part
    | bound scope binding part => exact .bound scope binding part
  | @run programs past m h idle program mem scope ih =>
    refine ih.idle idle rfl fun v hv => ?_
    cases hv with
    | task control mem part =>
      cases control
      rw [List.mem_singleton.1 mem] at part
      cases part
      exact .inr rfl
    | value control part => cases control
    | frame level mem part => simp [Machine.start] at level
    | bound scope binding part => exact .inl (.bound scope binding part)
  | step _ hstep ih => exact ih.step hstep

/-- Whatever has an identity was made at one moment of the course, and nothing else has that identity. -/
theorem Course.eq_of_identity? {sink : Sink} {programs : List Program} (h : Course sink programs past m)
    (hu : OccursIn (past ++ [m]) u) (hv : OccursIn (past ++ [m]) v) {i : Identity}
    (hui : u.identity? = some i) (hvi : v.identity? = some i) : u = v := by
  obtain ⟨k, hk⟩ := h.accounts.origin u hu (by rw [hui]; exact Option.some_ne_none _)
  obtain ⟨l, hl⟩ := h.accounts.origin v hv (by rw [hvi]; exact Option.some_ne_none _)
  cases h.accounts.moment k l u v hk hl (hui.trans hvi.symm)
  exact hk.unique hl

end Monkey
