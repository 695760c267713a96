import Monkey.Eval.Basic
import Monkey.Proofs.Evaluation.Search

/-!
# Tasks

Evaluation taken apart. Whatever the evaluator does next is a task: an expression, what is left of a
list of expressions or statements, or an operation on values that are there already. A task either
has its value at once, or it turns into another one, or it waits for the value of a smaller one; a
signal is then handed on, and any other value decides what comes next. Only a call of a function
opens a scope, and what it waits for is delivered.
-/

namespace Monkey

/-- Something that is done with values that are there. -/
inductive Operation where
  /-- An operator before its operand. -/
  | unary (operator : Token) (right : Value)
  /-- An operator between its operands. -/
  | binary (left : Value) (operator : Token) (right : Value)
  /-- An element of a collection. -/
  | index (collection position : Value)
  /-- The choice of a block by the value of a condition. -/
  | branch (scope : ScopeId) (test : Value) (chosen : List (Stmt Site))
      (other : Option (List (Stmt Site)))
  /-- A call. -/
  | call (callee : Value) (arguments : List Value)
  /-- A definition. -/
  | bind (scope : ScopeId) (name : String) (value : Value)
  /-- Finding the key of an entry, before the value of the entry and the further pairs. -/
  | file (scope : ScopeId) (table : Table (Value × Value)) (key : Value) (value : Expr Site)
      (pairs : List (Expr Site × Expr Site))
  /-- A `return`. -/
  | leave (value : Value)

/-- Something that evaluation has to do, in a scope if it needs one. -/
inductive Task where
  /-- An expression. -/
  | expression (scope : ScopeId) (e : Expr Site)
  /-- The right operand of an operator, after the left one. -/
  | right (scope : ScopeId) (left : Value) (operator : Token) (e : Expr Site)
  /-- The position of an index, after the collection. -/
  | position (scope : ScopeId) (collection : Value) (e : Expr Site)
  /-- The further arguments of a call, after some, and then the call. -/
  | arguments (scope : ScopeId) (callee : Value) (done : List Value) (es : List (Expr Site))
  /-- The further elements of an array literal, after some. -/
  | elements (scope : ScopeId) (done : List Value) (es : List (Expr Site))
  /-- The further pairs of a hash literal, after some. -/
  | entries (scope : ScopeId) (table : Table (Value × Value))
      (pairs : List (Expr Site × Expr Site))
  /-- A statement. -/
  | statement (scope : ScopeId) (s : Stmt Site)
  /-- Further statements, after one with the given value. -/
  | block (scope : ScopeId) (last : Value) (ss : List (Stmt Site))
  /-- An operation. -/
  | operate (o : Operation)

/-- What waits for a value. -/
inductive Frame where
  /-- An operator that waits for its operand. -/
  | unary (operator : Token)
  /-- An operator that waits for its left operand. -/
  | left (scope : ScopeId) (operator : Token) (e : Expr Site)
  /-- An operator that waits for its right operand. -/
  | right (left : Value) (operator : Token)
  /-- A conditional that waits for its condition. -/
  | test (scope : ScopeId) (chosen : List (Stmt Site)) (other : Option (List (Stmt Site)))
  /-- A call that waits for what is called. -/
  | callee (scope : ScopeId) (es : List (Expr Site))
  /-- A call that waits for an argument, after some. -/
  | argument (scope : ScopeId) (callee : Value) (done : List Value) (es : List (Expr Site))
  /-- An array literal that waits for an element, after some. -/
  | element (scope : ScopeId) (done : List Value) (es : List (Expr Site))
  /-- An index that waits for the collection. -/
  | collection (scope : ScopeId) (e : Expr Site)
  /-- An index that waits for the position. -/
  | position (collection : Value)
  /-- A hash literal that waits for a key, after some entries. -/
  | key (scope : ScopeId) (table : Table (Value × Value)) (value : Expr Site)
      (pairs : List (Expr Site × Expr Site))
  /-- A hash literal that waits for the value under a key, after some entries. -/
  | entry (scope : ScopeId) (table : Table (Value × Value)) (hashKey : HashKey) (key : Value)
      (pairs : List (Expr Site × Expr Site))
  /-- Statements that wait for the one before them. -/
  | statement (scope : ScopeId) (ss : List (Stmt Site))
  /-- A definition that waits for its value. -/
  | define (scope : ScopeId) (name : String)
  /-- A `return` that waits for its value. -/
  | leave

/-- What comes next when the value is there that a frame waits for, and it is no signal. -/
def Frame.next (v : Value) : Frame → Task
  | unary operator => .operate (.unary operator v)
  | left scope operator e => .right scope v operator e
  | right l operator => .operate (.binary l operator v)
  | test scope chosen other => .operate (.branch scope v chosen other)
  | callee scope es => .arguments scope v [] es
  | argument scope f done es => .arguments scope f (done ++ [v]) es
  | element scope done es => .elements scope (done ++ [v]) es
  | collection scope e => .position scope v e
  | position c => .operate (.index c v)
  | key scope table value pairs => .operate (.file scope table v value pairs)
  | entry scope table hashKey k pairs =>
    .entries scope (Table.insert hashKey (k, v) table) pairs
  | statement scope ss => .block scope v ss
  | define scope name => .operate (.bind scope name v)
  | leave => .operate (.leave v)

/-- How a task goes on. -/
inductive Move where
  /-- It has its value. -/
  | done (value : Value) (w : World)
  /-- It turns into another task. -/
  | become (t : Task) (w : World)
  /-- It waits for the value of another task. -/
  | await (t : Task) (f : Frame)
  /-- It calls a function: the other task is its body, the value of which is delivered. -/
  | enter (t : Task) (w : World)

/-- The world that a move leads to from another one. -/
def Move.world (w : World) : Move → World
  | done _ w' => w'
  | become _ w' => w'
  | await _ _ => w
  | enter _ w' => w'

/-- The value of a name in a scope. -/
def World.named (w : World) (scope : ScopeId) (text : String) : Value :=
  match w.lookup scope text with
  | some value => value
  | none =>
    match Builtin.ofName? text with
    | some b => .builtin b
    | none => .error (.unbound text)

/-- How an operation goes on. -/
def Operation.begin (w : World) : Operation → Move
  | unary operator right => .done (.ofResult (Value.unary operator right)) w
  | binary left operator right => .done (.ofResult (Value.binary left operator right)) w
  | index collection position => .done (.ofResult (Value.index collection position)) w
  | branch scope test chosen other =>
    if test.truthy then .become (.block scope .null chosen) w
    else
      match other with
      | none => .done .null w
      | some statements => .become (.block scope .null statements) w
  | call (.function _ f) arguments =>
    if arguments.length = f.parameters.length then
      .enter (.block w.nextScope .null f.body)
        (w.openScope (some f.scope) (f.parameters.zip arguments))
    else
      .done (.error (.arity f.parameters.length arguments.length)) w
  | call (.builtin b) arguments =>
    .done (.ofResult (b.call arguments w).1) (b.call arguments w).2
  | call other _ => .done (.error (.notAFunction other.type)) w
  | bind scope name value => .done .null (w.define scope name value)
  | file scope table key value pairs =>
    match key.key? with
    | none => .done (.error (.unhashable key.type)) w
    | some hashKey => .await (.expression scope value) (.entry scope table hashKey key pairs)
  | leave value => .done (.returned value) w

/-- A conditional goes on with one of its blocks, or it is `null`. -/
theorem Operation.begin_branch (scope : ScopeId) (test : Value) (chosen : List (Stmt Site))
    (other : Option (List (Stmt Site))) (w : World) :
    (branch scope test chosen other).begin w = .done .null w ∨
      ∃ block, (block = chosen ∨ other = some block) ∧
        (branch scope test chosen other).begin w = .become (.block scope .null block) w := by
  simp only [begin]
  split
  · exact .inr ⟨chosen, .inl rfl, rfl⟩
  · cases other with
    | none => exact .inl rfl
    | some block => exact .inr ⟨block, .inr rfl, rfl⟩

/-- How an expression goes on. -/
def Move.expression (w : World) (scope : ScopeId) : Expr Site → Move
  | .name text => done (w.named scope text) w
  | .integer n => done (.integer n) w
  | .boolean b => done (.boolean b) w
  | .string text => done (.string text) w
  | .unary operator operand => await (.expression scope operand) (.unary operator)
  | .binary left operator right => await (.expression scope left) (.left scope operator right)
  | .conditional test chosen other => await (.expression scope test) (.test scope chosen other)
  | .function site parameters body =>
    done (w.newFunction ⟨parameters, body, site, scope⟩).1
      (w.newFunction ⟨parameters, body, site, scope⟩).2
  | .call callee arguments => await (.expression scope callee) (.callee scope arguments)
  | .array elements => become (.elements scope [] elements) w
  | .index collection position =>
    await (.expression scope collection) (.collection scope position)
  | .hash pairs => become (.entries scope [] pairs) w

/-- How a task goes on. -/
def Task.begin (w : World) : Task → Move
  | expression scope e => .expression w scope e
  | right scope left operator e => .await (.expression scope e) (.right left operator)
  | position scope collection e => .await (.expression scope e) (.position collection)
  | arguments _ callee done [] => .become (.operate (.call callee done)) w
  | arguments scope callee done (e :: es) =>
    .await (.expression scope e) (.argument scope callee done es)
  | elements _ done [] => .done (w.newArray done).1 (w.newArray done).2
  | elements scope done (e :: es) => .await (.expression scope e) (.element scope done es)
  | entries _ table [] => .done (w.newHash table).1 (w.newHash table).2
  | entries scope table ((key, value) :: pairs) =>
    .await (.expression scope key) (.key scope table value pairs)
  | statement scope (.define name value) => .await (.expression scope value) (.define scope name)
  | statement scope (.leave value) => .await (.expression scope value) .leave
  | statement scope (.expression value) => .become (.expression scope value) w
  | block _ last [] => .done last w
  | block scope _ (s :: ss) => .await (.statement scope s) (.statement scope ss)
  | operate o => o.begin w

/-- The value of a task with at most the given number of calls active at once, and the world in
which it has it. -/
inductive Runs : Nat → Task → World → Value → World → Prop where
  /-- The value is there. -/
  | done {depth : Nat} {t : Task} {w w' : World} {v : Value} (move : t.begin w = .done v w') :
      Runs depth t w v w'
  /-- The value of the task that it turns into. -/
  | become {depth : Nat} {t t' : Task} {w w₁ w' : World} {v : Value}
      (move : t.begin w = .become t' w₁) (run : Runs depth t' w₁ v w') : Runs depth t w v w'
  /-- A signal is handed on. -/
  | pass {depth : Nat} {t t' : Task} {f : Frame} {w w' : World} {v : Value}
      (move : t.begin w = .await t' f) (first : Runs depth t' w v w')
      (signal : v.isSignal = true) : Runs depth t w v w'
  /-- Any other value goes to the frame that waits for it. -/
  | next {depth : Nat} {t t' : Task} {f : Frame} {w w₁ w' : World} {u v : Value}
      (move : t.begin w = .await t' f) (first : Runs depth t' w u w₁)
      (plain : u.isSignal = false) (run : Runs depth (f.next u) w₁ v w') : Runs depth t w v w'
  /-- The value of the body of a function is delivered. -/
  | enter {depth : Nat} {t t' : Task} {w w₁ w' : World} {v : Value}
      (move : t.begin w = .enter t' w₁) (run : Runs depth t' w₁ v w') :
      Runs (depth + 1) t w v.delivered w'

/-- The value of a name that is bound is there at once. -/
theorem runs_bound {depth : Nat} {scope : ScopeId} {name : String} {w : World} {v : Value}
    (h : w.Finds name scope (some v)) : Runs depth (.expression scope (.name name)) w v w := by
  have hnamed : w.named scope name = v := by rw [World.named, World.lookup_eq_some_iff.2 h]
  exact .done (congrArg (Move.done · w) hnamed)

/-- So is a builtin function, if its name is not bound. -/
theorem runs_builtin {depth : Nat} {scope : ScopeId} {name : String} {b : Builtin} {w : World}
    (h : w.Finds name scope none) (hb : Builtin.ofName? name = some b) :
    Runs depth (.expression scope (.name name)) w (.builtin b) w := by
  have hnamed : w.named scope name = .builtin b := by rw [World.named, World.lookup_eq_none h, hb]
  exact .done (congrArg (Move.done · w) hnamed)

/-- With more calls active at once, the values are the same. -/
theorem Runs.mono {m n : Nat} {t : Task} {w w' : World} {v : Value} (h : Runs m t w v w')
    (hle : m ≤ n) : Runs n t w v w' := by
  induction h generalizing n with
  | done move => exact .done move
  | become move _ ih => exact .become move (ih hle)
  | pass move _ signal ih => exact .pass move (ih hle) signal
  | next move _ plain _ ih ih' => exact .next move (ih hle) plain (ih' hle)
  | enter move _ ih =>
    obtain ⟨k, rfl⟩ := Nat.exists_eq_add_of_le hle
    rw [Nat.add_right_comm]
    exact .enter move (ih (Nat.le_add_right _ k))

end Monkey
