import Mathlib.Logic.Relation
import Monkey.Proofs.Evaluation.Runs

/-!
# Evaluation step by step

A machine does tasks one step at a time. It keeps the frames that wait for values in a stack, with a
boundary at the bottom and one for every call of a function that is active. A value goes to the frame
on top, or past it if it is a signal; at a boundary it is delivered. Whatever the evaluator gives, the
machine comes to, so its states on the way are the intermediate steps of the evaluation.
-/

namespace Monkey

/-- What a machine is at. -/
inductive Control where
  /-- Something is to be done. -/
  | task (t : Task)
  /-- A value is there. -/
  | value (v : Value)

/-- What a value meets. -/
inductive Level where
  /-- A frame that waits for it. -/
  | frame (f : Frame)
  /-- The end of a call or of the program. -/
  | boundary

/-- A state of the machine. -/
structure Machine where
  /-- What the machine is at. -/
  control : Control
  /-- What the value will meet, the nearest first. -/
  levels : List Level
  /-- The world so far. -/
  world : World

namespace Machine

/-- The machine before a program. -/
def start (scope : ScopeId) (program : Program) (w : World) : Machine :=
  ⟨.task (.block scope .null program), [.boundary], w⟩

/-- A step, unless nothing waits for the value. -/
def step : Machine → Option Machine
  | ⟨.task t, levels, w⟩ =>
    match t.begin w with
    | .done v w' => some ⟨.value v, levels, w'⟩
    | .become t' w' => some ⟨.task t', levels, w'⟩
    | .await t' f => some ⟨.task t', .frame f :: levels, w⟩
    | .enter t' w' => some ⟨.task t', .boundary :: levels, w'⟩
  | ⟨.value v, .frame f :: levels, w⟩ =>
    if v.isSignal then some ⟨.value v, levels, w⟩ else some ⟨.task (f.next v), levels, w⟩
  | ⟨.value v, .boundary :: levels, w⟩ => some ⟨.value v.delivered, levels, w⟩
  | ⟨.value _, [], _⟩ => none

/-- Any number of steps. -/
def Steps : Machine → Machine → Prop := Relation.ReflTransGen fun m m' => m.step = some m'

/-- What is true of a state and preserved by a step is true of every state that is come to. -/
theorem Steps.invariant {P : Machine → Prop} (hstep : ∀ m m', P m → m.step = some m' → P m')
    {m m' : Machine} (h : Steps m m') (hm : P m) : P m' := by
  induction h with
  | refl => exact hm
  | tail _ hlast ih => exact hstep _ _ ih hlast

variable {t t' : Task} {f : Frame} {v : Value} {w w' : World} {levels : List Level}

theorem step_done (h : t.begin w = .done v w') :
    step ⟨.task t, levels, w⟩ = some ⟨.value v, levels, w'⟩ := by simp only [step, h]

theorem step_become (h : t.begin w = .become t' w') :
    step ⟨.task t, levels, w⟩ = some ⟨.task t', levels, w'⟩ := by simp only [step, h]

theorem step_await (h : t.begin w = .await t' f) :
    step ⟨.task t, levels, w⟩ = some ⟨.task t', .frame f :: levels, w⟩ := by simp only [step, h]

theorem step_enter (h : t.begin w = .enter t' w') :
    step ⟨.task t, levels, w⟩ = some ⟨.task t', .boundary :: levels, w'⟩ := by simp only [step, h]

theorem step_signal (h : v.isSignal = true) :
    step ⟨.value v, .frame f :: levels, w⟩ = some ⟨.value v, levels, w⟩ := by
  simp only [step, h, if_true]

theorem step_plain (h : v.isSignal = false) :
    step ⟨.value v, .frame f :: levels, w⟩ = some ⟨.task (f.next v), levels, w⟩ := by
  simp only [step, h, Bool.false_eq_true, if_false]

/-- What a step does: one rule for each move of a task, and for what each level does with a value. -/
inductive Turn : Machine → Machine → Prop where
  /-- The task is done. -/
  | done {t : Task} {levels : List Level} {w w' : World} {v : Value} (move : t.begin w = .done v w') :
      Turn ⟨.task t, levels, w⟩ ⟨.value v, levels, w'⟩
  /-- Another task has the same value. -/
  | become {t t' : Task} {levels : List Level} {w w' : World} (move : t.begin w = .become t' w') :
      Turn ⟨.task t, levels, w⟩ ⟨.task t', levels, w'⟩
  /-- Another task comes first, and a frame waits for its value. -/
  | await {t t' : Task} {f : Frame} {levels : List Level} {w : World}
      (move : t.begin w = .await t' f) : Turn ⟨.task t, levels, w⟩ ⟨.task t', .frame f :: levels, w⟩
  /-- The body of a function is entered. -/
  | enter {t t' : Task} {levels : List Level} {w w' : World} (move : t.begin w = .enter t' w') :
      Turn ⟨.task t, levels, w⟩ ⟨.task t', .boundary :: levels, w'⟩
  /-- A signal passes through a frame. -/
  | pass {v : Value} {f : Frame} {levels : List Level} {w : World} (signal : v.isSignal = true) :
      Turn ⟨.value v, .frame f :: levels, w⟩ ⟨.value v, levels, w⟩
  /-- Any other value is what the frame waits for. -/
  | next {v : Value} {f : Frame} {levels : List Level} {w : World} (plain : v.isSignal = false) :
      Turn ⟨.value v, .frame f :: levels, w⟩ ⟨.task (f.next v), levels, w⟩
  /-- A call delivers its value. -/
  | leave {v : Value} {levels : List Level} {w : World} :
      Turn ⟨.value v, .boundary :: levels, w⟩ ⟨.value v.delivered, levels, w⟩

/-- Every step is a turn of one of these kinds. -/
theorem turn_of_step {m m' : Machine} (h : m.step = some m') : Turn m m' := by
  obtain ⟨control, levels, w⟩ := m
  cases control with
  | task t =>
    cases move : t.begin w with
    | done v w' =>
      rw [step_done move] at h
      exact Option.some.inj h ▸ .done move
    | become t' w' =>
      rw [step_become move] at h
      exact Option.some.inj h ▸ .become move
    | await t' f =>
      rw [step_await move] at h
      exact Option.some.inj h ▸ .await move
    | enter t' w' =>
      rw [step_enter move] at h
      exact Option.some.inj h ▸ .enter move
  | value v =>
    cases levels with
    | nil => cases h
    | cons level levels =>
      cases level with
      | frame f =>
        cases signal : v.isSignal with
        | true =>
          rw [step_signal signal] at h
          exact Option.some.inj h ▸ .pass signal
        | false =>
          rw [step_plain signal] at h
          exact Option.some.inj h ▸ .next signal
      | boundary => exact Option.some.inj h ▸ .leave

/-- Only the moves of tasks lead to other worlds. -/
theorem world_of_step {m m' : Machine} (h : m.step = some m') :
    m'.world = m.world ∨ ∃ t, m.control = .task t ∧ m'.world = (t.begin m.world).world m.world := by
  have hmoved {t : Task} {w : World} {move : Move} (hmove : t.begin w = move) :
      move.world w = (t.begin w).world w := hmove ▸ rfl
  cases turn_of_step h with
  | done move => exact .inr ⟨_, rfl, hmoved move⟩
  | become move => exact .inr ⟨_, rfl, hmoved move⟩
  | enter move => exact .inr ⟨_, rfl, hmoved move⟩
  | _ => exact .inl rfl

/-- Whatever value a task has, the machine comes to it, with the same levels below. -/
theorem steps_of_runs {depth : Nat} (h : Runs depth t w v w') (levels : List Level) :
    Steps ⟨.task t, levels, w⟩ ⟨.value v, levels, w'⟩ := by
  induction h generalizing levels with
  | done move => exact .single (step_done move)
  | become move _ ih => exact .head (step_become move) (ih levels)
  | pass move _ signal ih =>
    exact .head (step_await move) ((ih _).trans (.single (step_signal signal)))
  | next move _ plain _ ih ih' =>
    exact .head (step_await move) ((ih _).trans (.head (step_plain plain) (ih' levels)))
  | enter move _ ih => exact .head (step_enter move) ((ih _).trans (.single rfl))

/-- The machine comes to what the evaluator gives for a program. -/
theorem steps_of_program {depth : Nat} {scope : ScopeId} {program : Program}
    (h : (Eval.program depth scope program).run w = some (v, w')) :
    Steps (start scope program w) ⟨.value v, [], w'⟩ := by
  obtain ⟨u, hu, rfl⟩ := program_eq_some_iff.1 h
  exact (steps_of_runs hu [.boundary]).trans (.single rfl)

/-- Steps go one way only: of two states that are come to, one comes after the other. -/
theorem Steps.linear {m m₁ m₂ : Machine} (h : Steps m m₁) (h' : Steps m m₂) :
    Steps m₁ m₂ ∨ Steps m₂ m₁ :=
  Relation.ReflTransGen.total_of_right_unique
    (fun _ _ _ hb hc => Option.some.inj (hb.symm.trans hc)) h h'

/-- A state without a step is the last one that is come to. -/
theorem Steps.last {m m₁ m₂ : Machine} (h : Steps m m₁) (h' : Steps m m₂) (hlast : m₂.step = none) :
    Steps m₁ m₂ := by
  rcases h.linear h' with h | h
  · exact h
  · cases h.cases_head with
    | inl heq => exact heq ▸ .refl
    | inr hstep =>
      obtain ⟨m₃, hm₃, -⟩ := hstep
      cases hlast.symm.trans hm₃

end Machine

end Monkey
