import Monkey.Proofs.Reading.Step
import Monkey.Syntax.Parse

/-!
# Reading goes forward

Every step that reads a part of a program only takes tokens from the front and adds diagnostics, as
long as the reader of inner expressions does.
-/

namespace Monkey.Reader

variable {inner : Inner} [∀ p, Forward (inner p)]

instance (digits : String) : Forward (integer digits) := by unfold integer; infer_instance

instance (operator : Token) : Forward (unary inner operator) := by unfold unary; infer_instance

instance : Forward (grouped inner) := by unfold grouped; infer_instance

instance : Forward (define inner) := by unfold define; infer_instance

instance : Forward (leave inner) := by unfold leave; infer_instance

instance : Forward (bare inner) := by unfold bare; infer_instance

instance : Forward (statement inner) := by
  refine forward_bind inferInstance fun t => ?_
  split <;> infer_instance

instance forward_blockItems (n : Nat) : Forward (blockItems inner n) := by
  induction n with
  | zero =>
    unfold blockItems
    infer_instance
  | succ n ih =>
    unfold blockItems
    infer_instance

instance : Forward (block inner) := by unfold block; infer_instance

instance : Forward (otherwise inner) := by unfold otherwise; infer_instance

instance : Forward (conditional inner) := by
  unfold conditional
  refine forward_bind inferInstance fun _ => forward_bind inferInstance fun _ => ?_
  infer_instance

instance : Forward (function inner) := by unfold function; infer_instance

instance : Forward (keyed inner) := by unfold keyed; infer_instance

instance : Forward (operand inner) := by
  refine forward_bind inferInstance fun t => ?_
  split <;> infer_instance

instance (left : Expr Unit) : Forward (continued inner left) := by
  refine forward_bind inferInstance fun t => ?_
  split <;> infer_instance

instance forward_extended (p : Precedence) (n : Nat) (left : Expr Unit) :
    Forward (extended inner p n left) := by
  induction n generalizing left with
  | zero =>
    unfold extended
    infer_instance
  | succ n ih =>
    unfold extended
    infer_instance

omit [∀ p, Forward (inner p)] in
instance forward_expression (depth : Nat) (p : Precedence) : Forward (expression depth p) := by
  induction depth generalizing p with
  | zero =>
    unfold expression
    infer_instance
  | succ depth ih =>
    unfold expression
    infer_instance

omit [∀ p, Forward (inner p)] in
/-- A round of reading a program, as a step: at the end of the stream there is nothing to read. -/
theorem outcome_programItems_succ (n : Nat) (c : Cursor) :
    outcome (liftM (programItems (n + 1))) c =
      outcome (if c.current.value = .finish then pure [] else do
        let first ← liftM (noting (statement (expression c.pending.length)))
        advance
        let others ← liftM (programItems n)
        pure (first.toList ++ others)) c := by
  rw [outcome_lift, programItems, StateT.run_bind, StateT.run_get, pure_bind]
  split <;> rfl

omit [∀ p, Forward (inner p)] in
instance forward_programItems (n : Nat) : Forward (liftM (programItems n) : Reader Tree) := by
  induction n with
  | zero => exact inferInstanceAs (Forward (pure []))
  | succ n ih =>
    refine ⟨fun c => ?_⟩
    rw [outcome_programItems_succ]
    exact Forward.leads c

end Monkey.Reader
