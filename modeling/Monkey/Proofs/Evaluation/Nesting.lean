import Monkey.Proofs.Evaluation.Machine

/-!
# Calls that are active at once

The boundaries among the levels of a machine, but for the one at the bottom, are the calls that are
active. A task that has its value when a number of calls may be active at once keeps to that number
on the way to the value; a task that has no value then goes beyond the number. So to give up at a
bound is to need one more call than the bound, and nothing else keeps an evaluation from its end.
-/

namespace Monkey

namespace Machine

/-- The number of boundaries among some levels. -/
def boundaries : List Level → Nat
  | [] => 0
  | .frame _ :: levels => boundaries levels
  | .boundary :: levels => boundaries levels + 1

@[simp] theorem boundaries_frame (f : Frame) (levels : List Level) :
    boundaries (.frame f :: levels) = boundaries levels := rfl

@[simp] theorem boundaries_boundary (levels : List Level) :
    boundaries (.boundary :: levels) = boundaries levels + 1 := rfl

/-- The number of calls that are active: the program itself is at the bottom and is none. -/
def active (m : Machine) : Nat := boundaries m.levels - 1

variable {m m₁ m₂ : Machine} {t : Task} {v : Value} {w w' : World} {depth : Nat}

/-- What comes after a state is the state itself or comes after the next one. -/
theorem Steps.eq_or_after (h : Steps m m₂) (hstep : m.step = some m₁) : m₂ = m ∨ Steps m₁ m₂ := by
  rcases h.cases_head with rfl | ⟨m', hm', hrest⟩
  · exact .inl rfl
  · cases Option.some.inj (hstep.symm.trans hm')
    exact .inr hrest

/-- On the way to the value of a task no more calls are active than the task takes. -/
theorem boundaries_le_or_after (h : Runs depth t w v w') {levels : List Level}
    (hm : Steps ⟨.task t, levels, w⟩ m) :
    boundaries m.levels ≤ boundaries levels + depth ∨ Steps ⟨.value v, levels, w'⟩ m := by
  induction h generalizing levels with
  | done move =>
    rcases hm.eq_or_after (step_done move) with rfl | hm
    · exact .inl (Nat.le_add_right _ _)
    · exact .inr hm
  | become move _ ih =>
    rcases hm.eq_or_after (step_become move) with rfl | hm
    · exact .inl (Nat.le_add_right _ _)
    · exact ih hm
  | pass move _ signal ih =>
    rcases hm.eq_or_after (step_await move) with rfl | hm
    · exact .inl (Nat.le_add_right _ _)
    · rcases ih hm with hle | hm
      · exact .inl hle
      · rcases hm.eq_or_after (step_signal signal) with rfl | hm
        · exact .inl (Nat.le_add_right _ _)
        · exact .inr hm
  | next move _ plain _ ih ih' =>
    rcases hm.eq_or_after (step_await move) with rfl | hm
    · exact .inl (Nat.le_add_right _ _)
    · rcases ih hm with hle | hm
      · exact .inl hle
      · rcases hm.eq_or_after (step_plain plain) with rfl | hm
        · exact .inl (Nat.le_add_right _ _)
        · exact ih' hm
  | @enter depth _ _ _ _ _ _ move _ ih =>
    rcases hm.eq_or_after (step_enter move) with rfl | hm
    · exact .inl (Nat.le_add_right _ _)
    · rcases ih hm with hle | hm
      · rw [boundaries_boundary] at hle
        exact .inl (by omega)
      · rcases hm.eq_or_after rfl with rfl | hm
        · exact .inl (by rw [boundaries_boundary]; omega)
        · exact .inr hm

/-- A task that has no value with a number of calls active at once comes to where one more is. -/
theorem exists_exceeding (h : (t.run (Eval.apply depth)).run w = none) (levels : List Level) :
    ∃ m, Steps ⟨.task t, levels, w⟩ m ∧ boundaries m.levels = boundaries levels + depth + 1 := by
  -- The body of a call has one call less to spend, and all else that the task leads to is smaller.
  induction depth using Nat.strongRecOn generalizing t w levels with
  | ind depth shallower =>
  induction hsize : t.size using Nat.strongRecOn generalizing t w levels with
  | ind size smaller =>
  subst hsize
  have hsmall := t.smaller_begin w
  rw [Task.run_eq] at h
  cases hmove : t.begin w with
  | done v w₁ =>
    rw [hmove] at h
    cases h
  | become t' w₁ =>
    rw [hmove] at h hsmall
    obtain ⟨m, hm, hcount⟩ := smaller _ hsmall h levels rfl
    exact ⟨m, .head (step_become hmove) hm, hcount⟩
  | await t' f =>
    rw [hmove] at h hsmall
    cases hfirst : (t'.run (Eval.apply depth)).run w with
    | none =>
      obtain ⟨m, hm, hcount⟩ := smaller _ hsmall.1 hfirst (.frame f :: levels) rfl
      exact ⟨m, .head (step_await hmove) hm, hcount⟩
    | some first =>
      obtain ⟨u, w₁⟩ := first
      rw [Move.run, hfirst] at h
      cases hu : u.isSignal with
      | true =>
        simp only [Option.bind_eq_bind, Option.bind_some, Eval.unlessSignal, hu, if_true] at h
        cases h
      | false =>
        simp only [Option.bind_eq_bind, Option.bind_some, Eval.unlessSignal, hu, Bool.false_eq_true,
          if_false] at h
        obtain ⟨m, hm, hcount⟩ := smaller _ (hsmall.2 u) h levels rfl
        have hto : Steps ⟨.task t, levels, w⟩ ⟨.task (f.next u), levels, w₁⟩ :=
          .head (step_await hmove)
            ((steps_of_runs (runs_iff.2 hfirst) _).trans (.single (step_plain hu)))
        exact ⟨m, hto.trans hm, hcount⟩
  | enter t' w₁ =>
    rw [hmove] at h
    cases depth with
    | zero => exact ⟨_, .single (step_enter hmove), rfl⟩
    | succ depth =>
      obtain ⟨m, hm, hcount⟩ := shallower depth (Nat.lt_succ_self _) (Option.map_eq_none_iff.1 h)
        (.boundary :: levels)
      refine ⟨m, .head (step_enter hmove) hm, ?_⟩
      rw [hcount, boundaries_boundary]
      omega

variable {scope : ScopeId} {program : Program}

/-- When a program has its value with a number of calls active at once, no state has more. -/
theorem active_le_of_program (h : (Eval.program depth scope program).run w = some (v, w'))
    (hm : Steps (start scope program w) m) : m.active ≤ depth := by
  obtain ⟨u, hrun, rfl⟩ := program_eq_some_iff.1 h
  have hlast {m : Machine} (hm : Steps ⟨.value u.delivered, [], w'⟩ m) :
      m = ⟨.value u.delivered, [], w'⟩ := by
    rcases hm.cases_head with rfl | ⟨m', hm', -⟩
    · rfl
    · cases hm'
  rcases boundaries_le_or_after hrun hm with hle | hm
  · exact Nat.sub_le_of_le_add (by rwa [Nat.add_comm] at hle)
  · rcases hm.eq_or_after rfl with rfl | hm
    · exact Nat.zero_le _
    · rw [hlast hm]
      exact Nat.zero_le _

/-- To give up on a program is to come to where more calls are active than allowed. -/
theorem program_eq_none_iff :
    (Eval.program depth scope program).run w = none ↔
      ∃ m, Steps (start scope program w) m ∧ depth < m.active := by
  constructor
  · intro h
    have hblock : ((Task.block scope .null program).run (Eval.apply depth)).run w = none := by
      cases hrun : ((Task.block scope .null program).run (Eval.apply depth)).run w with
      | none => rfl
      | some result =>
        have hvalue := program_eq_some_iff.2 ⟨result.1, runs_iff.2 hrun, rfl⟩
        rw [h] at hvalue
        cases hvalue
    obtain ⟨m, hm, hcount⟩ := exists_exceeding hblock [.boundary]
    refine ⟨m, hm, ?_⟩
    rw [active, hcount, boundaries_boundary]
    omega
  · rintro ⟨m, hm, hactive⟩
    cases h : (Eval.program depth scope program).run w with
    | none => rfl
    | some result => exact absurd (active_le_of_program h hm) (Nat.not_le_of_lt hactive)

/-- A bound that no state exceeds is enough for a value. -/
theorem exists_program_of_active_le
    (h : ∀ m, Steps (start scope program w) m → m.active ≤ depth) :
    ∃ v w', (Eval.program depth scope program).run w = some (v, w') := by
  cases hrun : (Eval.program depth scope program).run w with
  | some result => exact ⟨_, _, rfl⟩
  | none =>
    obtain ⟨m, hm, hactive⟩ := program_eq_none_iff.1 hrun
    exact absurd (h m hm) (Nat.not_le_of_lt hactive)

end Machine

end Monkey
