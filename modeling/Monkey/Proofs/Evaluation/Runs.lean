import Monkey.Proofs.Evaluation.Task

/-!
# The evaluator runs tasks

The value that the evaluator gives for an expression, a statement or a call is the value that it has
as a task. So what is to be said of every evaluation can be said by the five ways in which a task
comes to its value, and the forms of the syntax matter only to how a task begins.
-/

namespace Monkey

/-- What follows from the values of some expressions, or the first signal among them. -/
def Eval.allOf (apply : Apply) (scope : ScopeId) (es : List (Expr Site))
    (use : List Value → Run Value) : Run Value := do
  match ← expressions apply scope es with
  | .ok values => use values
  | .error signal => return signal

/-- What an operation does, given what a call does. -/
def Operation.run (apply : Apply) : Operation → Run Value
  | unary operator right => return .ofResult (Value.unary operator right)
  | binary left operator right => return .ofResult (Value.binary left operator right)
  | index collection position => return .ofResult (Value.index collection position)
  | branch scope test chosen other =>
    if test.truthy then Eval.block apply scope .null chosen else Eval.otherwise apply scope other
  | call callee arguments => apply callee arguments
  | bind scope name value => do
    modify (·.define scope name value)
    return .null
  | file scope table key value pairs =>
    match key.key? with
    | none => return .error (.unhashable key.type)
    | some hashKey => do
      Eval.unlessSignal (← Eval.expression apply scope value) fun v =>
        Eval.entries apply scope (Table.insert hashKey (key, v) table) pairs
  | leave value => return .returned value

/-- What the evaluator does about a task, given what a call does. -/
def Task.run (apply : Apply) : Task → Run Value
  | expression scope e => Eval.expression apply scope e
  | right scope left operator e => do
    Eval.unlessSignal (← Eval.expression apply scope e) fun r =>
      return .ofResult (Value.binary left operator r)
  | position scope collection e => do
    Eval.unlessSignal (← Eval.expression apply scope e) fun p =>
      return .ofResult (Value.index collection p)
  | arguments scope callee done es =>
    Eval.allOf apply scope es fun values => apply callee (done ++ values)
  | elements scope done es =>
    Eval.allOf apply scope es fun values => modifyGet (·.newArray (done ++ values))
  | entries scope table pairs => Eval.entries apply scope table pairs
  | statement scope s => Eval.statement apply scope s
  | block scope last ss => Eval.block apply scope last ss
  | operate o => o.run apply

/-- What the evaluator does about how a task goes on. -/
def Move.run (depth : Nat) (w : World) : Move → Option (Value × World)
  | done value w' => some (value, w')
  | become t w' => (t.run (Eval.apply depth)).run w'
  | await t f =>
    (t.run (Eval.apply depth)).run w >>= fun (v, w') =>
      (Eval.unlessSignal v fun u => (f.next u).run (Eval.apply depth)).run w'
  | enter t w' =>
    match depth with
    | 0 => none
    | depth + 1 =>
      ((t.run (Eval.apply depth)).run w').map fun (v, w'') => (v.delivered, w'')

/-- Looking up a name changes nothing. -/
theorem Eval.run_name (scope : ScopeId) (text : String) (w : World) :
    (name scope text).run w = some (w.named scope text, w) := by
  rw [name, StateT.run_bind, StateT.run_get, pure_bind, World.named]
  cases w.lookup scope text with
  | some value => rfl
  | none => cases Builtin.ofName? text <;> rfl

/-- Of some expressions, the first is evaluated first, and a signal ends them all. -/
theorem Eval.run_allOf_cons (apply : Apply) (scope : ScopeId) (e : Expr Site) (es : List (Expr Site))
    (use : List Value → Run Value) (w : World) :
    (allOf apply scope (e :: es) use).run w =
      (expression apply scope e).run w >>= fun (v, w') =>
        (unlessSignal v fun u => allOf apply scope es fun values => use (u :: values)).run w' := by
  simp only [allOf, expressions, bind_assoc, StateT.run_bind]
  refine bind_congr ?_
  rintro ⟨v, w'⟩
  by_cases hv : v.isSignal = true
  · simp only [unlessSignal, hv, if_true]
    rfl
  · simp only [unlessSignal, hv, Bool.false_eq_true, if_false, StateT.run_bind, bind_assoc]
    refine bind_congr ?_
    rintro ⟨values, w''⟩
    cases values <;> rfl

/-- The evaluator does about a task what it does about how the task goes on. -/
theorem Task.run_eq (depth : Nat) (t : Task) (w : World) :
    (t.run (Eval.apply depth)).run w = (t.begin w).run depth w := by
  cases t with
  | expression scope e =>
    cases e with
    | name text =>
      rw [run, Eval.expression]
      exact Eval.run_name scope text w
    | integer n => rw [run, Eval.expression]; rfl
    | boolean b => rw [run, Eval.expression]; rfl
    | string text => rw [run, Eval.expression]; rfl
    | unary operator operand => rw [run, Eval.expression]; rfl
    | binary left operator right => rw [run, Eval.expression]; rfl
    | conditional test chosen other => rw [run, Eval.expression]; rfl
    | function site parameters body => rw [run, Eval.expression]; rfl
    | call callee arguments => rw [run, Eval.expression]; rfl
    | array elements => rw [run, Eval.expression]; rfl
    | index collection position => rw [run, Eval.expression]; rfl
    | hash pairs => rw [run, Eval.expression]; rfl
  | right scope left operator e => rfl
  | position scope collection e => rfl
  | arguments scope callee done es =>
    cases es with
    | nil =>
      rw [run, Eval.allOf, Eval.expressions]
      change (Eval.apply depth callee (done ++ [])).run w = (Eval.apply depth callee done).run w
      rw [List.append_nil]
    | cons e es =>
      simp only [run, Eval.run_allOf_cons, begin, Move.run, Frame.next, List.append_assoc,
        List.singleton_append]
  | elements scope done es =>
    cases es with
    | nil =>
      rw [run, Eval.allOf, Eval.expressions]
      change some (w.newArray (done ++ [])) = some (w.newArray done)
      rw [List.append_nil]
    | cons e es =>
      simp only [run, Eval.run_allOf_cons, begin, Move.run, Frame.next, List.append_assoc,
        List.singleton_append]
  | entries scope table pairs =>
    cases pairs with
    | nil => rw [run, Eval.entries]; rfl
    | cons pair pairs => rw [run, Eval.entries]; rfl
  | statement scope s =>
    cases s with
    | define name value => rw [run, Eval.statement]; rfl
    | leave value => rw [run, Eval.statement]; rfl
    | expression value => rw [run, Eval.statement]; rfl
  | block scope last ss =>
    cases ss with
    | nil => rw [run, Eval.block]; rfl
    | cons s ss => rw [run, Eval.block]; rfl
  | operate o =>
    cases o with
    | unary operator right => rfl
    | binary left operator right => rfl
    | index collection position => rfl
    | branch scope test chosen other =>
      by_cases ht : test.truthy = true
      · simp only [run, Operation.run, begin, Operation.begin, ht, if_true]
        rfl
      · simp only [run, Operation.run, begin, Operation.begin, ht, Bool.false_eq_true, if_false]
        cases other <;> rw [Eval.otherwise] <;> rfl
    | call callee arguments =>
      rw [run, Operation.run, begin]
      cases callee with
      | function identity f =>
        by_cases hlength : arguments.length = f.parameters.length
        · cases depth with
          | zero => simp only [Eval.apply, Operation.begin, hlength, if_true]; rfl
          | succ depth =>
            simp only [Eval.apply, Operation.begin, hlength, if_true, Move.run, run]
            change ((Eval.block (Eval.apply depth) w.nextScope .null f.body).run
              (w.openScope (some f.scope) (f.parameters.zip arguments)) >>=
                fun (v, w'') => some (v.delivered, w'')) = _
            cases (Eval.block (Eval.apply depth) w.nextScope .null f.body).run
              (w.openScope (some f.scope) (f.parameters.zip arguments)) <;> rfl
        · cases depth <;> simp only [Eval.apply, Operation.begin, hlength, if_false] <;> rfl
      | builtin b => cases depth <;> rfl
      | _ => cases depth <;> rfl
    | bind scope name value => rfl
    | file scope table key value pairs =>
      rw [run, Operation.run, begin, Operation.begin]
      cases key.key? <;> rfl
    | leave value => rfl

/-- How much there is left to evaluate after the operand of an operation. -/
noncomputable def Operation.size : Operation → Nat
  | branch _ _ chosen other => 2 * (sizeOf chosen + sizeOf other) + 1
  | file _ _ _ value pairs => 2 * (sizeOf value + sizeOf pairs) + 1
  | _ => 0

/-- How much there is left to evaluate. -/
noncomputable def Task.size : Task → Nat
  | expression _ e => 2 * sizeOf e
  | right _ _ _ e => 2 * sizeOf e + 1
  | position _ _ e => 2 * sizeOf e + 1
  | arguments _ _ _ es => 2 * sizeOf es
  | elements _ _ es => 2 * sizeOf es
  | entries _ _ pairs => 2 * sizeOf pairs
  | statement _ s => 2 * sizeOf s
  | block _ _ ss => 2 * sizeOf ss
  | operate o => o.size

/-- Whatever a task turns into or waits for without a call is smaller than the given size. -/
def Move.Smaller (size : Nat) : Move → Prop
  | done _ _ => True
  | become t _ => t.size < size
  | await t f => t.size < size ∧ ∀ v, (f.next v).size < size
  | enter _ _ => True

theorem Move.smaller_expression (w : World) (scope : ScopeId) (e : Expr Site) :
    (expression w scope e).Smaller (2 * sizeOf e) := by
  cases e <;> simp only [expression, Smaller, Task.size, Operation.size, Frame.next,
    Expr.unary.sizeOf_spec, Expr.binary.sizeOf_spec, Expr.conditional.sizeOf_spec,
    Expr.call.sizeOf_spec, Expr.array.sizeOf_spec, Expr.index.sizeOf_spec, Expr.hash.sizeOf_spec]
  all_goals first
    | omega
    | exact ⟨by omega, fun _ => by omega⟩

theorem Operation.smaller_begin (o : Operation) (w : World) : (o.begin w).Smaller o.size := by
  cases o with
  | branch scope test chosen other =>
    rcases begin_branch scope test chosen other w with hbegin | ⟨block, hblock, hbegin⟩
    · rw [hbegin]
      trivial
    · rw [hbegin]
      rcases hblock with rfl | rfl
      all_goals
        simp only [Move.Smaller, Task.size, size, Option.some.sizeOf_spec]
        omega
  | file scope table key value pairs =>
    rw [begin]
    cases key.key? with
    | none => trivial
    | some hashKey =>
      simp only [Move.Smaller, Task.size, size, Frame.next]
      exact ⟨by omega, fun _ => by omega⟩
  | call callee arguments =>
    cases callee with
    | function identity f =>
      by_cases hlength : arguments.length = f.parameters.length
      · simp only [begin, hlength, if_true, Move.Smaller]
      · simp only [begin, hlength, if_false, Move.Smaller]
    | _ => trivial
  | _ => trivial

theorem Task.smaller_begin (t : Task) (w : World) : (t.begin w).Smaller t.size := by
  cases t with
  | expression scope e => exact Move.smaller_expression w scope e
  | right scope left operator e => exact ⟨Nat.lt_succ_self _, fun _ => Nat.succ_pos _⟩
  | position scope collection e => exact ⟨Nat.lt_succ_self _, fun _ => Nat.succ_pos _⟩
  | arguments scope callee done es =>
    cases es <;> simp only [begin, Move.Smaller, size, Operation.size, Frame.next,
      List.nil.sizeOf_spec, List.cons.sizeOf_spec]
    · omega
    · exact ⟨by omega, fun _ => by omega⟩
  | elements scope done es =>
    cases es <;> simp only [begin, Move.Smaller, size, Frame.next, List.cons.sizeOf_spec]
    exact ⟨by omega, fun _ => by omega⟩
  | entries scope table pairs =>
    rcases pairs with _ | ⟨⟨key, value⟩, pairs⟩
    · trivial
    · simp only [begin, Move.Smaller, size, Operation.size, Frame.next, List.cons.sizeOf_spec,
        Prod.mk.sizeOf_spec]
      exact ⟨by omega, fun _ => by omega⟩
  | statement scope s =>
    cases s <;> simp only [begin, Move.Smaller, size, Operation.size, Frame.next,
      Stmt.define.sizeOf_spec, Stmt.leave.sizeOf_spec, Stmt.expression.sizeOf_spec]
    all_goals first
      | omega
      | exact ⟨by omega, fun _ => by omega⟩
  | block scope last ss =>
    cases ss <;> simp only [begin, Move.Smaller, size, Frame.next, List.cons.sizeOf_spec]
    exact ⟨by omega, fun _ => by omega⟩
  | operate o => exact o.smaller_begin w

/-- A task that waits has a value when the value that it waits for is a signal, or when what comes
next has it. -/
theorem run_await_eq_some {depth : Nat} {t : Task} {f : Frame} {w w' : World} {v : Value} :
    (Move.await t f).run depth w = some (v, w') ↔
      ∃ u w₁, (t.run (Eval.apply depth)).run w = some (u, w₁) ∧
        (u.isSignal = true ∧ v = u ∧ w' = w₁ ∨
          u.isSignal = false ∧ ((f.next u).run (Eval.apply depth)).run w₁ = some (v, w')) := by
  rw [Move.run, Option.bind_eq_bind, Option.bind_eq_some_iff]
  constructor
  · rintro ⟨⟨u, w₁⟩, hfirst, hnext⟩
    refine ⟨u, w₁, hfirst, ?_⟩
    by_cases hu : u.isSignal = true
    · simp only [Eval.unlessSignal, hu, if_true] at hnext
      cases hnext
      exact .inl ⟨hu, rfl, rfl⟩
    · simp only [Eval.unlessSignal, hu, Bool.false_eq_true, if_false] at hnext
      exact .inr ⟨by simpa using hu, hnext⟩
  · rintro ⟨u, w₁, hfirst, ⟨hu, rfl, rfl⟩ | ⟨hu, hnext⟩⟩
    · refine ⟨(v, w'), hfirst, ?_⟩
      simp only [Eval.unlessSignal, hu, if_true]
      rfl
    · refine ⟨(u, w₁), hfirst, ?_⟩
      simpa only [Eval.unlessSignal, hu, Bool.false_eq_true, if_false] using hnext

/-- The evaluator gives exactly the values that tasks have. -/
theorem runs_iff {depth : Nat} {t : Task} {w w' : World} {v : Value} :
    Runs depth t w v w' ↔ (t.run (Eval.apply depth)).run w = some (v, w') := by
  constructor
  · intro h
    induction h with
    | done move => rw [Task.run_eq, move]; rfl
    | become move _ ih => rw [Task.run_eq, move]; exact ih
    | pass move _ signal ih =>
      rw [Task.run_eq, move]
      exact run_await_eq_some.2 ⟨_, _, ih, .inl ⟨signal, rfl, rfl⟩⟩
    | next move _ plain _ ih ih' =>
      rw [Task.run_eq, move]
      exact run_await_eq_some.2 ⟨_, _, ih, .inr ⟨plain, ih'⟩⟩
    | enter move _ ih =>
      rw [Task.run_eq, move, Move.run, ih]
      rfl
  · intro h
    -- A call is at a lower depth, and everything else that the task leads to is smaller.
    induction depth using Nat.strongRecOn generalizing t w v w' with
    | ind depth shallower =>
    induction hsize : t.size using Nat.strongRecOn generalizing t w v w' with
    | ind size smaller =>
    subst hsize
    have hsmall := t.smaller_begin w
    rw [Task.run_eq] at h
    cases hmove : t.begin w with
    | done u w₁ =>
      rw [hmove] at h
      cases h
      exact .done hmove
    | become t' w₁ =>
      rw [hmove] at h hsmall
      exact .become hmove (smaller _ hsmall h rfl)
    | await t' f =>
      rw [hmove] at h hsmall
      obtain ⟨u, w₁, hfirst, ⟨hu, rfl, rfl⟩ | ⟨hu, hnext⟩⟩ := run_await_eq_some.1 h
      · exact .pass hmove (smaller _ hsmall.1 hfirst rfl) hu
      · exact .next hmove (smaller _ hsmall.1 hfirst rfl) hu (smaller _ (hsmall.2 u) hnext rfl)
    | enter t' w₁ =>
      rw [hmove] at h
      cases depth with
      | zero => cases h
      | succ depth =>
        obtain ⟨⟨u, w₂⟩, hbody, hdelivered⟩ := Option.map_eq_some_iff.1 h
        cases hdelivered
        exact .enter hmove (shallower depth (Nat.lt_succ_self _) hbody)

/-- A task has one value and ends in one world. -/
theorem Runs.unique {depth : Nat} {t : Task} {w w₁ w₂ : World} {u v : Value}
    (h : Runs depth t w u w₁) (h' : Runs depth t w v w₂) : u = v ∧ w₁ = w₂ :=
  Prod.mk.inj (Option.some.inj ((runs_iff.1 h).symm.trans (runs_iff.1 h')))

/-- A task that waits has a signal that it waits for, or what comes next with the value. -/
theorem Runs.of_await {depth : Nat} {t t' : Task} {f : Frame} {w w' : World} {v : Value}
    (h : Runs depth t w v w') (move : t.begin w = .await t' f) :
    ∃ u w₁, Runs depth t' w u w₁ ∧
      (u.isSignal = true ∧ v = u ∧ w' = w₁ ∨ u.isSignal = false ∧ Runs depth (f.next u) w₁ v w') := by
  rw [runs_iff, Task.run_eq, move, run_await_eq_some] at h
  simpa only [runs_iff] using h

/-- A program has the value of its statements, delivered. -/
theorem program_eq_some_iff {depth : Nat} {scope : ScopeId} {program : Program} {w w' : World}
    {v : Value} :
    (Eval.program depth scope program).run w = some (v, w') ↔
      ∃ u, Runs depth (.block scope .null program) w u w' ∧ v = u.delivered := by
  have hrun : (Eval.program depth scope program).run w =
      ((Task.block scope .null program).run (Eval.apply depth)).run w >>= fun (u, w₁) =>
        some (u.delivered, w₁) := rfl
  rw [hrun, Option.bind_eq_bind, Option.bind_eq_some_iff]
  constructor
  · rintro ⟨⟨u, w₁⟩, hblock, hdelivered⟩
    cases hdelivered
    exact ⟨u, runs_iff.2 hblock, rfl⟩
  · rintro ⟨u, hblock, rfl⟩
    exact ⟨(u, w'), runs_iff.1 hblock, rfl⟩

/-- A program that comes to an end does the same if more calls may be active at once. -/
theorem program_mono {m n : Nat} {scope : ScopeId} {program : Program} {w w' : World} {v : Value}
    (h : (Eval.program m scope program).run w = some (v, w')) (hle : m ≤ n) :
    (Eval.program n scope program).run w = some (v, w') := by
  obtain ⟨u, hrun, hv⟩ := program_eq_some_iff.1 h
  exact program_eq_some_iff.2 ⟨u, hrun.mono hle, hv⟩

/-- The value of a task, if as many calls may be active at once as it takes. -/
def Gives (t : Task) (w : World) (v : Value) (w' : World) : Prop := ∃ depth, Runs depth t w v w'

namespace Gives

variable {t t' : Task} {f : Frame} {w w₁ w' : World} {u v : Value}

theorem done (move : t.begin w = .done v w') : Gives t w v w' := ⟨0, .done move⟩

theorem become (move : t.begin w = .become t' w₁) (h : Gives t' w₁ v w') : Gives t w v w' := by
  obtain ⟨depth, hrun⟩ := h
  exact ⟨depth, .become move hrun⟩

theorem pass (move : t.begin w = .await t' f) (h : Gives t' w v w') (signal : v.isSignal = true) :
    Gives t w v w' := by
  obtain ⟨depth, hrun⟩ := h
  exact ⟨depth, .pass move hrun signal⟩

theorem next (move : t.begin w = .await t' f) (h : Gives t' w u w₁) (plain : u.isSignal = false)
    (h' : Gives (f.next u) w₁ v w') : Gives t w v w' := by
  obtain ⟨m, hfirst⟩ := h
  obtain ⟨n, hrun⟩ := h'
  exact ⟨max m n, .next move (hfirst.mono (Nat.le_max_left m n)) plain
    (hrun.mono (Nat.le_max_right m n))⟩

theorem enter (move : t.begin w = .enter t' w₁) (h : Gives t' w₁ v w') :
    Gives t w v.delivered w' := by
  obtain ⟨depth, hrun⟩ := h
  exact ⟨depth + 1, .enter move hrun⟩

end Gives

/-- Some bound on the calls that are active at once lets a program come to an end exactly when its
statements have a value. -/
theorem exists_program_iff {scope : ScopeId} {program : Program} {w w' : World} {v : Value} :
    (∃ depth, (Eval.program depth scope program).run w = some (v, w')) ↔
      ∃ u, Gives (.block scope .null program) w u w' ∧ v = u.delivered := by
  simp only [program_eq_some_iff]
  constructor
  · rintro ⟨depth, u, hrun, hv⟩
    exact ⟨u, ⟨depth, hrun⟩, hv⟩
  · rintro ⟨u, ⟨depth, hrun⟩, hv⟩
    exact ⟨depth, u, hrun, hv⟩

end Monkey
