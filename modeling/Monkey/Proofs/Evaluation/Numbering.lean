import Monkey.Proofs.Evaluation.Runs

/-!
# The count of programs does not matter

Programs are counted for the sites of their function literals only. Evaluation neither reads that count
nor changes it, so it comes to the same in two worlds that differ in nothing else.
-/

namespace Monkey

/-- The world with another count of programs. -/
def World.numbered (n : Nat) (w : World) : World := { w with nextProgram := n }

/-- The move with another count of programs in the world that it leads to. -/
def Move.numbered (n : Nat) : Move → Move
  | done v w => .done v (w.numbered n)
  | become t w => .become t (w.numbered n)
  | await t f => .await t f
  | enter t w => .enter t (w.numbered n)

variable {n : Nat} {w w' : World}

@[simp] theorem World.numbered_nextProgram (w : World) : w.numbered w.nextProgram = w := rfl

@[simp] theorem World.numbered_numbered (m n : Nat) (w : World) :
    (w.numbered m).numbered n = w.numbered n := rfl

theorem Builtin.writeLines_numbered (n : Nat) (arguments : List Value) (w : World) :
    writeLines arguments (w.numbered n) =
      ((writeLines arguments w).1, (writeLines arguments w).2.numbered n) := by
  induction arguments generalizing w with
  | nil => rfl
  | cons v vs ih =>
    have hrefusal : (w.numbered n).sink.refusal? (line v) = w.sink.refusal? (line v) := rfl
    rw [writeLines, writeLines, hrefusal]
    cases w.sink.refusal? (line v) with
    | some refusal => rfl
    | none => exact ih (w.write (line v))

theorem Builtin.call_numbered (n : Nat) (b : Builtin) (arguments : List Value) (w : World) :
    b.call arguments (w.numbered n) =
      ((b.call arguments w).1, (b.call arguments w).2.numbered n) := by
  cases b with
  | rest =>
    simp only [call]
    split <;> rfl
  | push =>
    simp only [call]
    split <;> rfl
  | puts => exact writeLines_numbered n arguments w
  | _ => rfl

theorem Operation.begin_numbered (n : Nat) (o : Operation) (w : World) :
    o.begin (w.numbered n) = (o.begin w).numbered n := by
  cases o with
  | branch scope test chosen other =>
    simp only [begin]
    split
    · rfl
    · cases other <;> rfl
  | call callee arguments =>
    cases callee with
    | function identity f =>
      simp only [begin]
      split <;> rfl
    | builtin b => simp only [begin, Builtin.call_numbered, Move.numbered]
    | _ => rfl
  | file scope table key value pairs =>
    simp only [begin]
    split <;> rfl
  | _ => rfl

/-- However programs are counted, a task goes on in the same way. -/
theorem Task.begin_numbered (n : Nat) (t : Task) (w : World) :
    t.begin (w.numbered n) = (t.begin w).numbered n := by
  cases t with
  | expression scope e => cases e <;> rfl
  | arguments scope callee done es => cases es <;> rfl
  | elements scope done es => cases es <;> rfl
  | entries scope table pairs => cases pairs <;> rfl
  | statement scope st => cases st <;> rfl
  | block scope last ss => cases ss <;> rfl
  | operate o => exact o.begin_numbered n w
  | _ => rfl

/-- Where a task is done, or goes on in any way, the count of programs is what it was. -/
theorem Task.nextProgram_begin (t : Task) (w : World) :
    ((t.begin w).world w).nextProgram = w.nextProgram := by
  have hbegin : t.begin w = (t.begin w).numbered w.nextProgram := t.begin_numbered w.nextProgram w
  rw [hbegin]
  cases t.begin w <;> rfl

/-- A task has the same value however programs are counted, and they are counted so in the end. -/
theorem Runs.numbered {depth : Nat} {t : Task} {v : Value} (h : Runs depth t w v w') (n : Nat) :
    Runs depth t (w.numbered n) v (w'.numbered n) := by
  have hmove {t : Task} {w : World} {m : Move} (move : t.begin w = m) :
      t.begin (w.numbered n) = m.numbered n := move ▸ t.begin_numbered n w
  induction h with
  | done move => exact .done (hmove move)
  | become move _ ih => exact .become (hmove move) ih
  | pass move _ signal ih => exact .pass (hmove move) ih signal
  | next move _ plain _ ih ih' => exact .next (hmove move) ih plain ih'
  | enter move _ ih => exact .enter (hmove move) ih

/-- What the evaluator does about a task does not depend on how programs are counted. -/
theorem Task.run_numbered (n depth : Nat) (t : Task) (w : World) :
    (t.run (Eval.apply depth)).run (w.numbered n) =
      ((t.run (Eval.apply depth)).run w).map fun r => (r.1, r.2.numbered n) := by
  cases hrun : (t.run (Eval.apply depth)).run w with
  | some r => exact runs_iff.1 ((runs_iff.2 hrun).numbered n)
  | none =>
    cases hother : (t.run (Eval.apply depth)).run (w.numbered n) with
    | none => rfl
    | some r =>
      have hback := runs_iff.1 ((runs_iff.2 hother).numbered w.nextProgram)
      rw [World.numbered_numbered, World.numbered_nextProgram, hrun] at hback
      cases hback

end Monkey
