import Monkey.Eval.Basic

/-!
# Evaluation with exceptions

What programs mean when signals are no values. A fault and a `return` are thrown: they end the
evaluation of everything around them without being looked at. A function that is called catches a
`return`, and so does the program; nothing catches a fault. Everything is evaluated in the order in
which it is written.
-/

namespace Monkey

/-- What is thrown. -/
inductive Thrown where
  /-- A fault. -/
  | fault (f : Fault)
  /-- A `return` with its value. -/
  | leaving (value : Value)

/-- What comes of an evaluation that ends: a value, unless something is thrown. -/
abbrev Outcome := Except Thrown Value

namespace Outcome

/-- A result, a fault being thrown. -/
def ofResult : Except Fault Value → Outcome
  | .ok value => .ok value
  | .error f => .error (.fault f)

/-- What comes of a call when this comes of the body: a `return` is caught. -/
def caught : Outcome → Outcome
  | .ok value => .ok value
  | .error (.leaving value) => .ok value
  | .error (.fault f) => .error (.fault f)

/-- What a program gives when this comes of its statements: a `return` is caught, and a fault is the
result. -/
def result : Outcome → Value
  | .ok value => value
  | .error (.leaving value) => value
  | .error (.fault f) => .error f

end Outcome

/-- What can be evaluated. -/
inductive Job where
  /-- An expression in a scope. -/
  | expression (scope : ScopeId) (e : Expr Site)
  /-- The further arguments of a call, after some, and the call. -/
  | arguments (scope : ScopeId) (callee : Value) (done : List Value) (es : List (Expr Site))
  /-- The further elements of an array literal, after some. -/
  | elements (scope : ScopeId) (done : List Value) (es : List (Expr Site))
  /-- The further pairs of a hash literal, after some. -/
  | entries (scope : ScopeId) (table : Table (Value × Value))
      (pairs : List (Expr Site × Expr Site))
  /-- A call of a value with some arguments. -/
  | call (callee : Value) (arguments : List Value)
  /-- A statement in a scope. -/
  | statement (scope : ScopeId) (s : Stmt Site)
  /-- Further statements, after one with the given value. -/
  | block (scope : ScopeId) (last : Value) (ss : List (Stmt Site))

/-- What comes of a job in a world, and the world after it. -/
inductive Evaluates : Job → World → Outcome → World → Prop where
  -- Names and literals.
  | bound {scope : ScopeId} {text : String} {w : World} {v : Value}
      (found : w.lookup scope text = some v) :
      Evaluates (.expression scope (.name text)) w (.ok v) w
  | builtin {scope : ScopeId} {text : String} {w : World} {b : Builtin}
      (unbound : w.lookup scope text = none) (found : Builtin.ofName? text = some b) :
      Evaluates (.expression scope (.name text)) w (.ok (.builtin b)) w
  | unbound {scope : ScopeId} {text : String} {w : World}
      (unbound : w.lookup scope text = none) (unknown : Builtin.ofName? text = none) :
      Evaluates (.expression scope (.name text)) w (.error (.fault (.unbound text))) w
  | integer (scope : ScopeId) (n : Int64) (w : World) :
      Evaluates (.expression scope (.integer n)) w (.ok (.integer n)) w
  | boolean (scope : ScopeId) (b : Bool) (w : World) :
      Evaluates (.expression scope (.boolean b)) w (.ok (.boolean b)) w
  | string (scope : ScopeId) (text : String) (w : World) :
      Evaluates (.expression scope (.string text)) w (.ok (.string text)) w
  -- Operators, the left operand first.
  | unary {scope : ScopeId} {operator : Token} {e : Expr Site} {w w' : World} {v : Value}
      (operand : Evaluates (.expression scope e) w (.ok v) w') :
      Evaluates (.expression scope (.unary operator e)) w (.ofResult (Value.unary operator v)) w'
  | unaryThrows {scope : ScopeId} {operator : Token} {e : Expr Site} {w w' : World} {x : Thrown}
      (operand : Evaluates (.expression scope e) w (.error x) w') :
      Evaluates (.expression scope (.unary operator e)) w (.error x) w'
  | binary {scope : ScopeId} {operator : Token} {l r : Expr Site} {w w₁ w' : World} {a b : Value}
      (left : Evaluates (.expression scope l) w (.ok a) w₁)
      (right : Evaluates (.expression scope r) w₁ (.ok b) w') :
      Evaluates (.expression scope (.binary l operator r)) w
        (.ofResult (Value.binary a operator b)) w'
  | leftThrows {scope : ScopeId} {operator : Token} {l r : Expr Site} {w w' : World} {x : Thrown}
      (left : Evaluates (.expression scope l) w (.error x) w') :
      Evaluates (.expression scope (.binary l operator r)) w (.error x) w'
  | rightThrows {scope : ScopeId} {operator : Token} {l r : Expr Site} {w w₁ w' : World}
      {a : Value} {x : Thrown} (left : Evaluates (.expression scope l) w (.ok a) w₁)
      (right : Evaluates (.expression scope r) w₁ (.error x) w') :
      Evaluates (.expression scope (.binary l operator r)) w (.error x) w'
  -- Conditionals: one branch at most is evaluated, in the scope around it.
  | chosen {scope : ScopeId} {e : Expr Site} {chosen : List (Stmt Site)}
      {other : Option (List (Stmt Site))} {w w₁ w' : World} {v : Value} {o : Outcome}
      (test : Evaluates (.expression scope e) w (.ok v) w₁) (holds : v.truthy = true)
      (block : Evaluates (.block scope .null chosen) w₁ o w') :
      Evaluates (.expression scope (.conditional e chosen other)) w o w'
  | otherwise {scope : ScopeId} {e : Expr Site} {chosen other : List (Stmt Site)}
      {w w₁ w' : World} {v : Value} {o : Outcome}
      (test : Evaluates (.expression scope e) w (.ok v) w₁) (fails : v.truthy = false)
      (block : Evaluates (.block scope .null other) w₁ o w') :
      Evaluates (.expression scope (.conditional e chosen (some other))) w o w'
  | neither {scope : ScopeId} {e : Expr Site} {chosen : List (Stmt Site)} {w w' : World} {v : Value}
      (test : Evaluates (.expression scope e) w (.ok v) w') (fails : v.truthy = false) :
      Evaluates (.expression scope (.conditional e chosen none)) w (.ok .null) w'
  | testThrows {scope : ScopeId} {e : Expr Site} {chosen : List (Stmt Site)}
      {other : Option (List (Stmt Site))} {w w' : World} {x : Thrown}
      (test : Evaluates (.expression scope e) w (.error x) w') :
      Evaluates (.expression scope (.conditional e chosen other)) w (.error x) w'
  -- Functions and calls: what is called first, then the arguments, and then they are counted.
  | function (scope : ScopeId) (site : Site) (parameters : List String) (body : List (Stmt Site))
      (w : World) :
      Evaluates (.expression scope (.function site parameters body)) w
        (.ok (w.newFunction ⟨parameters, body, site, scope⟩).1)
        (w.newFunction ⟨parameters, body, site, scope⟩).2
  | call {scope : ScopeId} {e : Expr Site} {es : List (Expr Site)} {w w₁ w' : World} {f : Value}
      {o : Outcome} (callee : Evaluates (.expression scope e) w (.ok f) w₁)
      (arguments : Evaluates (.arguments scope f [] es) w₁ o w') :
      Evaluates (.expression scope (.call e es)) w o w'
  | calleeThrows {scope : ScopeId} {e : Expr Site} {es : List (Expr Site)} {w w' : World}
      {x : Thrown} (callee : Evaluates (.expression scope e) w (.error x) w') :
      Evaluates (.expression scope (.call e es)) w (.error x) w'
  | argument {scope : ScopeId} {f v : Value} {done : List Value} {e : Expr Site}
      {es : List (Expr Site)} {w w₁ w' : World} {o : Outcome}
      (first : Evaluates (.expression scope e) w (.ok v) w₁)
      (others : Evaluates (.arguments scope f (done ++ [v]) es) w₁ o w') :
      Evaluates (.arguments scope f done (e :: es)) w o w'
  | argumentThrows {scope : ScopeId} {f : Value} {done : List Value} {e : Expr Site}
      {es : List (Expr Site)} {w w' : World} {x : Thrown}
      (first : Evaluates (.expression scope e) w (.error x) w') :
      Evaluates (.arguments scope f done (e :: es)) w (.error x) w'
  | noArgument {scope : ScopeId} {f : Value} {done : List Value} {w w' : World} {o : Outcome}
      (call : Evaluates (.call f done) w o w') : Evaluates (.arguments scope f done []) w o w'
  | apply {identity : Identity} {f : Closure} {arguments : List Value} {w w' : World} {o : Outcome}
      (arity : arguments.length = f.parameters.length)
      (body : Evaluates (.block w.nextScope .null f.body)
        (w.openScope (some f.scope) (f.parameters.zip arguments)) o w') :
      Evaluates (.call (.function identity f) arguments) w o.caught w'
  | arity {identity : Identity} {f : Closure} {arguments : List Value} {w : World}
      (arity : arguments.length ≠ f.parameters.length) :
      Evaluates (.call (.function identity f) arguments) w
        (.error (.fault (.arity f.parameters.length arguments.length))) w
  | applyBuiltin (b : Builtin) (arguments : List Value) (w : World) :
      Evaluates (.call (.builtin b) arguments) w (.ofResult (b.call arguments w).1)
        (b.call arguments w).2
  | notAFunction {f : Value} {arguments : List Value} {w : World}
      (function : f.type ≠ .function) (builtin : f.type ≠ .builtin) :
      Evaluates (.call f arguments) w (.error (.fault (.notAFunction f.type))) w
  -- Collections: a key is found before the value under it is evaluated.
  | array {scope : ScopeId} {es : List (Expr Site)} {w w' : World} {o : Outcome}
      (elements : Evaluates (.elements scope [] es) w o w') :
      Evaluates (.expression scope (.array es)) w o w'
  | element {scope : ScopeId} {v : Value} {done : List Value} {e : Expr Site}
      {es : List (Expr Site)} {w w₁ w' : World} {o : Outcome}
      (first : Evaluates (.expression scope e) w (.ok v) w₁)
      (others : Evaluates (.elements scope (done ++ [v]) es) w₁ o w') :
      Evaluates (.elements scope done (e :: es)) w o w'
  | elementThrows {scope : ScopeId} {done : List Value} {e : Expr Site} {es : List (Expr Site)}
      {w w' : World} {x : Thrown} (first : Evaluates (.expression scope e) w (.error x) w') :
      Evaluates (.elements scope done (e :: es)) w (.error x) w'
  | noElement (scope : ScopeId) (done : List Value) (w : World) :
      Evaluates (.elements scope done []) w (.ok (w.newArray done).1) (w.newArray done).2
  | index {scope : ScopeId} {e i : Expr Site} {w w₁ w' : World} {c p : Value}
      (collection : Evaluates (.expression scope e) w (.ok c) w₁)
      (position : Evaluates (.expression scope i) w₁ (.ok p) w') :
      Evaluates (.expression scope (.index e i)) w (.ofResult (Value.index c p)) w'
  | collectionThrows {scope : ScopeId} {e i : Expr Site} {w w' : World} {x : Thrown}
      (collection : Evaluates (.expression scope e) w (.error x) w') :
      Evaluates (.expression scope (.index e i)) w (.error x) w'
  | positionThrows {scope : ScopeId} {e i : Expr Site} {w w₁ w' : World} {c : Value} {x : Thrown}
      (collection : Evaluates (.expression scope e) w (.ok c) w₁)
      (position : Evaluates (.expression scope i) w₁ (.error x) w') :
      Evaluates (.expression scope (.index e i)) w (.error x) w'
  | hash {scope : ScopeId} {pairs : List (Expr Site × Expr Site)} {w w' : World} {o : Outcome}
      (entries : Evaluates (.entries scope [] pairs) w o w') :
      Evaluates (.expression scope (.hash pairs)) w o w'
  | entry {scope : ScopeId} {table : Table (Value × Value)} {k v : Value} {hashKey : HashKey}
      {key value : Expr Site} {pairs : List (Expr Site × Expr Site)} {w w₁ w₂ w' : World}
      {o : Outcome} (first : Evaluates (.expression scope key) w (.ok k) w₁)
      (hashable : k.key? = some hashKey) (second : Evaluates (.expression scope value) w₁ (.ok v) w₂)
      (others : Evaluates (.entries scope (Table.insert hashKey (k, v) table) pairs) w₂ o w') :
      Evaluates (.entries scope table ((key, value) :: pairs)) w o w'
  | keyThrows {scope : ScopeId} {table : Table (Value × Value)} {key value : Expr Site}
      {pairs : List (Expr Site × Expr Site)} {w w' : World} {x : Thrown}
      (first : Evaluates (.expression scope key) w (.error x) w') :
      Evaluates (.entries scope table ((key, value) :: pairs)) w (.error x) w'
  | unhashable {scope : ScopeId} {table : Table (Value × Value)} {k : Value}
      {key value : Expr Site} {pairs : List (Expr Site × Expr Site)} {w w' : World}
      (first : Evaluates (.expression scope key) w (.ok k) w') (unhashable : k.key? = none) :
      Evaluates (.entries scope table ((key, value) :: pairs)) w
        (.error (.fault (.unhashable k.type))) w'
  | valueThrows {scope : ScopeId} {table : Table (Value × Value)} {k : Value} {hashKey : HashKey}
      {key value : Expr Site} {pairs : List (Expr Site × Expr Site)} {w w₁ w' : World} {x : Thrown}
      (first : Evaluates (.expression scope key) w (.ok k) w₁) (hashable : k.key? = some hashKey)
      (second : Evaluates (.expression scope value) w₁ (.error x) w') :
      Evaluates (.entries scope table ((key, value) :: pairs)) w (.error x) w'
  | noEntry (scope : ScopeId) (table : Table (Value × Value)) (w : World) :
      Evaluates (.entries scope table []) w (.ok (w.newHash table).1) (w.newHash table).2
  -- Statements: what one of them throws ends the block.
  | define {scope : ScopeId} {name : String} {e : Expr Site} {w w' : World} {v : Value}
      (value : Evaluates (.expression scope e) w (.ok v) w') :
      Evaluates (.statement scope (.define name e)) w (.ok .null) (w'.define scope name v)
  | defineThrows {scope : ScopeId} {name : String} {e : Expr Site} {w w' : World} {x : Thrown}
      (value : Evaluates (.expression scope e) w (.error x) w') :
      Evaluates (.statement scope (.define name e)) w (.error x) w'
  | leave {scope : ScopeId} {e : Expr Site} {w w' : World} {v : Value}
      (value : Evaluates (.expression scope e) w (.ok v) w') :
      Evaluates (.statement scope (.leave e)) w (.error (.leaving v)) w'
  | leaveThrows {scope : ScopeId} {e : Expr Site} {w w' : World} {x : Thrown}
      (value : Evaluates (.expression scope e) w (.error x) w') :
      Evaluates (.statement scope (.leave e)) w (.error x) w'
  | expression {scope : ScopeId} {e : Expr Site} {w w' : World} {o : Outcome}
      (value : Evaluates (.expression scope e) w o w') :
      Evaluates (.statement scope (.expression e)) w o w'
  | step {scope : ScopeId} {last v : Value} {s : Stmt Site} {ss : List (Stmt Site)}
      {w w₁ w' : World} {o : Outcome} (first : Evaluates (.statement scope s) w (.ok v) w₁)
      (others : Evaluates (.block scope v ss) w₁ o w') :
      Evaluates (.block scope last (s :: ss)) w o w'
  | stepThrows {scope : ScopeId} {last : Value} {s : Stmt Site} {ss : List (Stmt Site)}
      {w w' : World} {x : Thrown} (first : Evaluates (.statement scope s) w (.error x) w') :
      Evaluates (.block scope last (s :: ss)) w (.error x) w'
  | noStep (scope : ScopeId) (last : Value) (w : World) :
      Evaluates (.block scope last []) w (.ok last) w

/-- A program comes to an end with a value, in a scope of one world, and another world is left. -/
def Concludes (scope : ScopeId) (program : Program) (w : World) (v : Value) (w' : World) : Prop :=
  ∃ o, Evaluates (.block scope .null program) w o w' ∧ v = o.result

end Monkey
