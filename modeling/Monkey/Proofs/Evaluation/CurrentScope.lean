import Monkey.Eval.Basic

/-!
# The current scope as a state

The evaluator is told in which scope it works. Here it keeps the number of the current scope itself: a
call of a function moves to the scope of the call, and back to the scope before it when the body has
its value, whatever value that is. Both come to the same, so the current scope after an evaluation is
the one before it.
-/

namespace Monkey

/-- An evaluation that knows and can change the current scope, besides the world. -/
abbrev Located := StateT (ScopeId × World) Option

namespace Located

variable {α β : Type}

/-- Does something in the current scope and stays there. -/
def locally (run : ScopeId → Run α) : Located α := fun (scope, w) =>
  (run scope w).map fun (a, after) => (a, scope, after)

/-- The current scope. -/
def current : Located ScopeId := return (← get).1

/-- Makes a scope the current one. -/
def moveTo (scope : ScopeId) : Located Unit := modify fun (_, w) => (scope, w)

/-- A signal as it is, and otherwise what follows from the value. -/
def unlessSignal (value : Value) (next : Value → Located Value) : Located Value :=
  if value.isSignal then return value else next value

mutual

/-- The value of an expression in the current scope. -/
def expression (apply : Value → List Value → Located Value) : Expr Site → Located Value
  | .name text => locally fun scope => Eval.name scope text
  | .integer n => return .integer n
  | .boolean b => return .boolean b
  | .string text => return .string text
  | .unary operator operand => do
    unlessSignal (← expression apply operand) fun right =>
      return .ofResult (Value.unary operator right)
  | .binary left operator right => do
    unlessSignal (← expression apply left) fun l => do
      unlessSignal (← expression apply right) fun r =>
        return .ofResult (Value.binary l operator r)
  | .conditional test chosen other => do
    unlessSignal (← expression apply test) fun t =>
      if t.truthy then block apply .null chosen else otherwise apply other
  | .function site parameters body =>
    locally fun scope => modifyGet (·.newFunction ⟨parameters, body, site, scope⟩)
  | .call callee arguments => do
    unlessSignal (← expression apply callee) fun f => do
      match ← expressions apply arguments with
      | .ok values => apply f values
      | .error signal => return signal
  | .array elements => do
    match ← expressions apply elements with
    | .ok values => locally fun _ => modifyGet (·.newArray values)
    | .error signal => return signal
  | .index collection position => do
    unlessSignal (← expression apply collection) fun c => do
      unlessSignal (← expression apply position) fun p =>
        return .ofResult (Value.index c p)
  | .hash pairs => entries apply [] pairs

/-- The values of some expressions from left to right, or the first signal among them. -/
def expressions (apply : Value → List Value → Located Value) :
    List (Expr Site) → Located (Except Value (List Value))
  | [] => return .ok []
  | e :: es => do
    let value ← expression apply e
    if value.isSignal then
      return .error value
    else
      return (← expressions apply es).map (value :: ·)

/-- The hash of some entries and of further keys and values. -/
def entries (apply : Value → List Value → Located Value) (table : Table (Value × Value)) :
    List (Expr Site × Expr Site) → Located Value
  | [] => locally fun _ => modifyGet (·.newHash table)
  | (key, value) :: pairs => do
    unlessSignal (← expression apply key) fun k =>
      match k.key? with
      | none => return .error (.unhashable k.type)
      | some hashKey => do
        unlessSignal (← expression apply value) fun v =>
          entries apply (Table.insert hashKey (k, v) table) pairs

/-- The value of the second block of a conditional, and `null` if there is none. -/
def otherwise (apply : Value → List Value → Located Value) :
    Option (List (Stmt Site)) → Located Value
  | none => return .null
  | some statements => block apply .null statements

/-- The value of some statements after one with the given value. -/
def block (apply : Value → List Value → Located Value) (last : Value) :
    List (Stmt Site) → Located Value
  | [] => return last
  | s :: ss => do
    unlessSignal (← statement apply s) fun value => block apply value ss

/-- The value of a statement; a binding is made in the current scope. -/
def statement (apply : Value → List Value → Located Value) : Stmt Site → Located Value
  | .define x value => do
    unlessSignal (← expression apply value) fun v => do
      locally fun scope => modify (·.define scope x v)
      return .null
  | .leave value => do
    unlessSignal (← expression apply value) fun v => return .returned v
  | .expression value => expression apply value

end

/-- Runs the body of a function in a new scope, which is the current one until the body has its
value. -/
def enter (apply : Value → List Value → Located Value) (f : Closure) (arguments : List Value) :
    Located Value := do
  let before ← current
  let scope ← locally fun _ => modifyGet fun w =>
    (w.nextScope, w.openScope (some f.scope) (f.parameters.zip arguments))
  moveTo scope
  let value ← block apply .null f.body
  moveTo before
  return value.delivered

/-- Calls a value with some arguments, with at most the given number of functions of the program
active at once. -/
def apply : Nat → Value → List Value → Located Value
  | depth, .function _ f, arguments =>
    if arguments.length = f.parameters.length then
      match depth with
      | 0 => failure
      | depth + 1 => enter (apply depth) f arguments
    else
      return .error (.arity f.parameters.length arguments.length)
  | _, .builtin b, arguments => locally fun _ => modifyGet fun w =>
      let (result, after) := b.call arguments w
      (.ofResult result, after)
  | _, other, _ => return .error (.notAFunction other.type)

/-- Does what another evaluation does in the current scope, and ends in the scope in which it
began. -/
def Stays (located : Located α) (run : ScopeId → Run α) : Prop :=
  ∀ scope w, located.run (scope, w) =
    ((run scope).run w).map fun (a, after) => (a, scope, after)

theorem stays_locally (run : ScopeId → Run α) : Stays (locally run) run := fun _ _ => rfl

theorem stays_pure (a : α) : Stays (pure a) fun _ => pure a := fun _ _ => rfl

theorem stays_failure : Stays (failure : Located α) fun _ => failure := fun _ _ => rfl

theorem Stays.eq_some_iff {located : Located α} {run : ScopeId → Run α} (h : Stays located run)
    {scope here : ScopeId} {w after : World} {a : α} :
    located.run (scope, w) = some (a, here, after) ↔
      (run scope).run w = some (a, after) ∧ here = scope := by
  rw [h scope w]
  constructor
  · intro hmap
    obtain ⟨⟨b, w'⟩, hrun, hresult⟩ := Option.map_eq_some_iff.1 hmap
    cases hresult
    exact ⟨hrun, rfl⟩
  · rintro ⟨hrun, rfl⟩
    rw [hrun]
    rfl

/-- Two evaluations one after the other end where they began if each does. -/
theorem Stays.bind {located : Located α} {run : ScopeId → Run α} {next : α → Located β}
    {after : ScopeId → α → Run β} (h : Stays located run)
    (hnext : ∀ a, Stays (next a) fun scope => after scope a) :
    Stays (located >>= next) fun scope => run scope >>= after scope := by
  intro scope w
  rw [StateT.run_bind, StateT.run_bind, h scope w]
  cases (run scope).run w with
  | none => rfl
  | some result => exact hnext result.1 scope result.2

theorem stays_unlessSignal (v : Value) {next : Value → Located Value}
    {after : ScopeId → Value → Run Value} (h : Stays (next v) fun scope => after scope v) :
    Stays (unlessSignal v next) fun scope => Eval.unlessSignal v (after scope) := by
  by_cases hv : v.isSignal = true
  · simp only [unlessSignal, Eval.unlessSignal, hv, if_true]
    exact stays_pure v
  · simp only [unlessSignal, Eval.unlessSignal, hv, Bool.false_eq_true, if_false]
    exact h

/-- Two ways to call, of which the first comes back to the scope before it. -/
def Agrees (call : Value → List Value → Located Value) (call' : Apply) : Prop :=
  ∀ f arguments, Stays (call f arguments) fun _ => call' f arguments

variable {call : Value → List Value → Located Value} {call' : Apply}

mutual

theorem stays_expression (hcall : Agrees call call') (e : Expr Site) :
    Stays (expression call e) fun scope => Eval.expression call' scope e := by
  cases e with
  | name text =>
    simp only [expression, Eval.expression]
    exact stays_locally _
  | integer n =>
    simp only [expression, Eval.expression]
    exact stays_pure _
  | boolean b =>
    simp only [expression, Eval.expression]
    exact stays_pure _
  | string text =>
    simp only [expression, Eval.expression]
    exact stays_pure _
  | unary operator operand =>
    simp only [expression, Eval.expression]
    exact (stays_expression hcall operand).bind fun right => stays_unlessSignal right (stays_pure _)
  | binary left operator right =>
    simp only [expression, Eval.expression]
    refine (stays_expression hcall left).bind fun l => stays_unlessSignal l ?_
    exact (stays_expression hcall right).bind fun r => stays_unlessSignal r (stays_pure _)
  | conditional test chosen other =>
    simp only [expression, Eval.expression]
    refine (stays_expression hcall test).bind fun t => stays_unlessSignal t ?_
    by_cases ht : t.truthy = true
    · simp only [ht, if_true]
      exact stays_block hcall .null chosen
    · simp only [ht, Bool.false_eq_true, if_false]
      exact stays_otherwise hcall other
  | function site parameters body =>
    simp only [expression, Eval.expression]
    exact stays_locally _
  | call callee arguments =>
    simp only [expression, Eval.expression]
    refine (stays_expression hcall callee).bind fun f => stays_unlessSignal f ?_
    refine (stays_expressions hcall arguments).bind fun result => ?_
    cases result with
    | ok values => exact hcall f values
    | error signal => exact stays_pure signal
  | array elements =>
    simp only [expression, Eval.expression]
    refine (stays_expressions hcall elements).bind fun result => ?_
    cases result with
    | ok values => exact stays_locally _
    | error signal => exact stays_pure signal
  | index collection position =>
    simp only [expression, Eval.expression]
    refine (stays_expression hcall collection).bind fun c => stays_unlessSignal c ?_
    exact (stays_expression hcall position).bind fun p => stays_unlessSignal p (stays_pure _)
  | hash pairs =>
    simp only [expression, Eval.expression]
    exact stays_entries hcall [] pairs

theorem stays_expressions (hcall : Agrees call call') (es : List (Expr Site)) :
    Stays (expressions call es) fun scope => Eval.expressions call' scope es := by
  cases es with
  | nil =>
    simp only [expressions, Eval.expressions]
    exact stays_pure _
  | cons e es =>
    simp only [expressions, Eval.expressions]
    refine (stays_expression hcall e).bind fun v => ?_
    by_cases hv : v.isSignal = true
    · simp only [hv, if_true]
      exact stays_pure _
    · simp only [hv, Bool.false_eq_true, if_false]
      exact (stays_expressions hcall es).bind fun result => stays_pure _

theorem stays_entries (hcall : Agrees call call') (table : Table (Value × Value)) (pairs : List (Expr Site × Expr Site)) :
    Stays (entries call table pairs) fun scope => Eval.entries call' scope table pairs := by
  cases pairs with
  | nil =>
    simp only [entries, Eval.entries]
    exact stays_locally _
  | cons pair pairs =>
    obtain ⟨key, value⟩ := pair
    simp only [entries, Eval.entries]
    refine (stays_expression hcall key).bind fun k => stays_unlessSignal k ?_
    cases k.key? with
    | none => exact stays_pure _
    | some hashKey =>
      refine (stays_expression hcall value).bind fun v => stays_unlessSignal v ?_
      exact stays_entries hcall _ pairs

theorem stays_otherwise (hcall : Agrees call call') (other : Option (List (Stmt Site))) :
    Stays (otherwise call other) fun scope => Eval.otherwise call' scope other := by
  cases other with
  | none =>
    simp only [otherwise, Eval.otherwise]
    exact stays_pure _
  | some statements =>
    simp only [otherwise, Eval.otherwise]
    exact stays_block hcall .null statements

theorem stays_block (hcall : Agrees call call') (last : Value) (ss : List (Stmt Site)) :
    Stays (block call last ss) fun scope => Eval.block call' scope last ss := by
  cases ss with
  | nil =>
    simp only [block, Eval.block]
    exact stays_pure _
  | cons s ss =>
    simp only [block, Eval.block]
    exact (stays_statement hcall s).bind fun v => stays_unlessSignal v (stays_block hcall v ss)

theorem stays_statement (hcall : Agrees call call') (s : Stmt Site) :
    Stays (statement call s) fun scope => Eval.statement call' scope s := by
  cases s with
  | define x value =>
    simp only [statement, Eval.statement]
    refine (stays_expression hcall value).bind fun v => stays_unlessSignal v ?_
    exact (stays_locally _).bind fun _ => stays_pure _
  | leave value =>
    simp only [statement, Eval.statement]
    exact (stays_expression hcall value).bind fun v => stays_unlessSignal v (stays_pure _)
  | expression value =>
    simp only [statement, Eval.statement]
    exact stays_expression hcall value

end

/-- A call comes back to the scope before it, whatever the body gives. -/
theorem stays_enter (hcall : Agrees call call') (f : Closure) (arguments : List Value) :
    Stays (enter call f arguments) fun _ => Eval.enter call' f arguments := by
  intro scope w
  have hbody := stays_block hcall .null f.body w.nextScope
    (w.openScope (some f.scope) (f.parameters.zip arguments))
  change ((block call .null f.body).run (w.nextScope,
    w.openScope (some f.scope) (f.parameters.zip arguments)) >>= fun r =>
      some (r.1.delivered, scope, r.2.2)) =
    ((Eval.block call' w.nextScope .null f.body).run
      (w.openScope (some f.scope) (f.parameters.zip arguments)) >>= fun r =>
        some (r.1.delivered, r.2)).map fun r => (r.1, scope, r.2)
  rw [hbody]
  cases (Eval.block call' w.nextScope .null f.body).run
    (w.openScope (some f.scope) (f.parameters.zip arguments)) <;> rfl

/-- A call does the same whether the current scope is a state or not, and the one in which it began is
the current one in the end. -/
theorem agrees_apply (depth : Nat) : Agrees (apply depth) (Eval.apply depth) := by
  induction depth using Nat.strongRecOn with
  | ind depth shallower =>
    intro f arguments
    cases f with
    | function identity f =>
      by_cases hlength : arguments.length = f.parameters.length
      · cases depth with
        | zero =>
          simp only [apply, Eval.apply, hlength, if_true]
          exact stays_failure
        | succ depth =>
          simp only [apply, Eval.apply, hlength, if_true]
          exact stays_enter (shallower depth (Nat.lt_succ_self depth)) f arguments
      · cases depth <;> simp only [apply, Eval.apply, hlength, if_false] <;> exact stays_pure _
    | builtin b => cases depth <;> exact stays_locally _
    | _ => cases depth <;> exact stays_pure _

end Located

end Monkey
