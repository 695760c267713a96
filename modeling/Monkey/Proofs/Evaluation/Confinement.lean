import Monkey.Proofs.Evaluation.CurrentScope
import Monkey.Proofs.Evaluation.Runs

/-!
# Evaluation writes in its own scope only

Only a definition changes a binding that exists, and it does so in the scope in which it is evaluated.
The body of a function is evaluated in a scope that did not exist before the call, so what it defines
touches nothing older. This is proved of one move of a task first, and from that of whole runs.
-/

namespace Monkey

variable {μ : Type}

mutual

/-- The names that an expression defines in the scope in which it is evaluated: those of the
definitions in it that are not in a function literal. -/
def Expr.defined : Expr μ → List String
  | .name _ => []
  | .integer _ => []
  | .boolean _ => []
  | .string _ => []
  | .unary _ operand => operand.defined
  | .binary left _ right => left.defined ++ right.defined
  | .conditional test chosen other =>
    test.defined ++ definedInBlock chosen ++ definedOtherwise other
  | .function .. => []
  | .call callee arguments => callee.defined ++ definedInAll arguments
  | .array elements => definedInAll elements
  | .index collection position => collection.defined ++ position.defined
  | .hash pairs => definedInPairs pairs

/-- The names that some expressions define. -/
def definedInAll : List (Expr μ) → List String
  | [] => []
  | e :: es => e.defined ++ definedInAll es

/-- The names that some keys and values define. -/
def definedInPairs : List (Expr μ × Expr μ) → List String
  | [] => []
  | (key, value) :: pairs => key.defined ++ value.defined ++ definedInPairs pairs

/-- The names that the second block of a conditional defines. -/
def definedOtherwise : Option (List (Stmt μ)) → List String
  | none => []
  | some statements => definedInBlock statements

/-- The names that some statements define. -/
def definedInBlock : List (Stmt μ) → List String
  | [] => []
  | s :: ss => s.defined ++ definedInBlock ss

/-- The names that a statement defines. -/
def Stmt.defined : Stmt μ → List String
  | .define name value => name :: value.defined
  | .leave value => value.defined
  | .expression value => value.defined

end

/-- Whether an operation may bind a name in a scope, calls apart. -/
def Operation.Writes (scope : ScopeId) (name : String) : Operation → Prop
  | branch here _ chosen other =>
    scope = here ∧ (name ∈ definedInBlock chosen ∨ name ∈ definedOtherwise other)
  | bind here x _ => scope = here ∧ name = x
  | file here _ _ value pairs =>
    scope = here ∧ (name ∈ value.defined ∨ name ∈ definedInPairs pairs)
  | _ => False

/-- Whether a task may bind a name in a scope, calls apart. -/
def Task.Writes (scope : ScopeId) (name : String) : Task → Prop
  | expression here e => scope = here ∧ name ∈ e.defined
  | right here _ _ e => scope = here ∧ name ∈ e.defined
  | position here _ e => scope = here ∧ name ∈ e.defined
  | arguments here _ _ es => scope = here ∧ name ∈ definedInAll es
  | elements here _ es => scope = here ∧ name ∈ definedInAll es
  | entries here _ pairs => scope = here ∧ name ∈ definedInPairs pairs
  | statement here s => scope = here ∧ name ∈ s.defined
  | block here _ ss => scope = here ∧ name ∈ definedInBlock ss
  | operate o => o.Writes scope name

/-- The bytes of some further pieces that are written. -/
def Sink.takenOf (s : Sink) : List ByteArray → ByteArray
  | [] => .empty
  | piece :: pieces => s.taken piece ++ (s.write piece).takenOf pieces

theorem Sink.written_foldl (s : Sink) (pieces : List ByteArray) :
    (pieces.foldl Sink.write s).written = s.written ++ s.takenOf pieces := by
  induction pieces generalizing s with
  | nil => exact (ByteArray.append_empty ..).symm
  | cons piece pieces ih =>
    rw [List.foldl_cons, ih, takenOf, ← ByteArray.append_assoc]
    rfl

namespace World

/-- What evaluation may do to a world when it may only bind some names in some scopes: scopes and
identities are added and output is offered to the sink, and everything else stays as it is. -/
structure Evolves (may : ScopeId → String → Prop) (w w' : World) : Prop where
  /-- No scope is lost. -/
  scopes : w.scopes.size ≤ w'.scopes.size
  /-- No identity is given away twice. -/
  identities : w.nextIdentity ≤ w'.nextIdentity
  /-- A scope in which nothing may be bound is the same. -/
  others : ∀ s < w.scopes.size, (∀ name, ¬ may s name) → w'.scopes[s]? = w.scopes[s]?
  /-- Every scope stays where it was opened. -/
  outer : ∀ s < w.scopes.size, w'.outer? s = w.outer? s
  /-- A name that may not be bound in a scope has the same value there. -/
  binding : ∀ s < w.scopes.size, ∀ name, ¬ may s name → w'.binding? name s = w.binding? name s
  /-- The sink is offered some pieces. -/
  sink : ∃ pieces : List ByteArray, w'.sink = pieces.foldl Sink.write w.sink

variable {may may' : ScopeId → String → Prop} {w w₁ w₂ : World}

/-- Nothing that has been written is lost. -/
theorem Evolves.exists_written (h : Evolves may w w₁) :
    ∃ bytes, w₁.sink.written = w.sink.written ++ bytes := by
  obtain ⟨pieces, hpieces⟩ := h.sink
  exact ⟨w.sink.takenOf pieces, by rw [hpieces, Sink.written_foldl]⟩

theorem Evolves.refl (may : ScopeId → String → Prop) (w : World) : Evolves may w w where
  scopes := Nat.le_refl _
  identities := Nat.le_refl _
  others _ _ _ := rfl
  outer _ _ := rfl
  binding _ _ _ _ := rfl
  sink := ⟨[], rfl⟩

/-- What is bound first and what is bound then is all that is bound; scopes that did not exist at the
beginning do not count. -/
theorem Evolves.trans (h : Evolves may w w₁) (h' : Evolves may' w₁ w₂)
    (hold : ∀ s < w.scopes.size, ∀ name, may' s name → may s name) : Evolves may w w₂ where
  scopes := Nat.le_trans h.scopes h'.scopes
  identities := Nat.le_trans h.identities h'.identities
  others s hs hname := by
    have hs' := Nat.lt_of_lt_of_le hs h.scopes
    rw [h'.others s hs' fun name hmay => hname name (hold s hs name hmay), h.others s hs hname]
  outer s hs := by
    rw [h'.outer s (Nat.lt_of_lt_of_le hs h.scopes), h.outer s hs]
  binding s hs name hname := by
    have hs' := Nat.lt_of_lt_of_le hs h.scopes
    rw [h'.binding s hs' name fun hmay => hname (hold s hs name hmay), h.binding s hs name hname]
  sink := by
    obtain ⟨pieces, hpieces⟩ := h.sink
    obtain ⟨further, hfurther⟩ := h'.sink
    exact ⟨pieces ++ further, by rw [hfurther, hpieces, List.foldl_append]⟩

/-- A definition changes one binding of one scope. -/
theorem evolves_define (w : World) (scope : ScopeId) (name : String) (value : Value)
    (hmay : may scope name) : Evolves may w (w.define scope name value) where
  scopes := by simp [define]
  identities := Nat.le_refl _
  others s hs hname := by
    have hne : scope ≠ s := fun h => hname name (h ▸ hmay)
    simp [define, Array.getElem?_modify, hne]
  outer s _ := w.outer?_define scope name value s
  binding s hs x hx := by
    by_cases hscope : scope < w.scopes.size
    · rw [w.binding?_define hscope, if_neg]
      rintro ⟨rfl, rfl⟩
      exact hx hmay
    · have hne : scope ≠ s := fun h => hscope (h ▸ hs)
      simp [binding?, Scopes.binding?, define, Array.getElem?_modify, hne]
  sink := ⟨[], rfl⟩

/-- Opening a scope changes none that exists. -/
theorem evolves_openScope (may : ScopeId → String → Prop) (w : World) (around : Option ScopeId)
    (pairs : List (String × Value)) : Evolves may w (w.openScope around pairs) where
  scopes := by simp [openScope]
  identities := Nat.le_refl _
  others s hs _ := w.getElem?_openScope around pairs hs
  outer s hs := w.outer?_openScope_old around pairs hs
  binding s hs name _ := w.binding?_openScope_old around pairs name hs
  sink := ⟨[], rfl⟩

/-- What does not touch the scopes binds nothing. -/
theorem Evolves.of_scopes_eq (hscopes : w₁.scopes = w.scopes)
    (hidentities : w.nextIdentity ≤ w₁.nextIdentity)
    (hsink : ∃ pieces : List ByteArray, w₁.sink = pieces.foldl Sink.write w.sink) :
    Evolves may w w₁ where
  scopes := Nat.le_of_eq (congrArg Array.size hscopes).symm
  identities := hidentities
  others s _ _ := by rw [hscopes]
  outer s _ := by rw [outer?, outer?, hscopes]
  binding s _ name _ := by rw [binding?, binding?, hscopes]
  sink := hsink

/-- Giving an identity away binds nothing. -/
theorem evolves_takeIdentity (may : ScopeId → String → Prop) (w : World) :
    Evolves may w w.takeIdentity.2 := .of_scopes_eq rfl (Nat.le_succ _) ⟨[], rfl⟩

end World

/-- Writing lines only offers pieces to the sink. -/
theorem Builtin.writeLines_evolves (may : ScopeId → String → Prop) (arguments : List Value)
    (w : World) : w.Evolves may (writeLines arguments w).2 := by
  induction arguments generalizing w with
  | nil => exact .refl may w
  | cons v vs ih =>
    have hwrite : w.Evolves may (w.write (line v)) :=
      .of_scopes_eq rfl (Nat.le_refl _) ⟨[line v], rfl⟩
    rw [writeLines]
    split
    · exact hwrite
    · exact hwrite.trans (ih _) fun _ _ _ h => h

/-- A builtin function binds nothing. -/
theorem Builtin.call_evolves (may : ScopeId → String → Prop) (b : Builtin) (arguments : List Value)
    (w : World) : w.Evolves may (b.call arguments w).2 := by
  cases b with
  | len => exact .refl may w
  | first => exact .refl may w
  | last => exact .refl may w
  | rest =>
    rw [call]
    split
    · exact .refl may w
    · exact .refl may w
    · exact w.evolves_takeIdentity may
  | push =>
    rw [call]
    split
    · exact .refl may w
    · exact w.evolves_takeIdentity may
  | puts => exact writeLines_evolves may arguments w

/-- However a task goes on, it binds only what it may bind; a function is entered in a scope of its
own. -/
def Move.Within (may : ScopeId → String → Prop) (w : World) : Move → Prop
  | done _ w' => w.Evolves may w'
  | become t w' => w' = w ∧ ∀ scope name, t.Writes scope name → may scope name
  | await t f =>
    (∀ scope name, t.Writes scope name → may scope name) ∧
      ∀ v scope name, (f.next v).Writes scope name → may scope name
  | enter t w' =>
    w.Evolves may w' ∧ ∀ scope name, t.Writes scope name → w.scopes.size ≤ scope

/-- What a move leads to has given away no fewer identities. -/
theorem Move.Within.identities {may : ScopeId → String → Prop} {w : World} {move : Move}
    (h : move.Within may w) : w.nextIdentity ≤ (move.world w).nextIdentity := by
  cases move with
  | done v w' => exact World.Evolves.identities h
  | become t w' => exact Nat.le_of_eq (congrArg World.nextIdentity h.1.symm)
  | await t f => exact Nat.le_refl _
  | enter t w' => exact h.1.identities

theorem Move.within_expression (w : World) (here : ScopeId) (e : Expr Site) :
    (expression w here e).Within (fun scope name => scope = here ∧ name ∈ e.defined) w := by
  cases e with
  | name text => exact .refl _ w
  | integer n => exact .refl _ w
  | boolean b => exact .refl _ w
  | string text => exact .refl _ w
  | function site parameters body => exact w.evolves_takeIdentity _
  | array elements => exact ⟨rfl, fun _ _ h => h⟩
  | hash pairs => exact ⟨rfl, fun _ _ h => h⟩
  | _ =>
    simp only [expression, Within, Task.Writes, Operation.Writes, Frame.next, Expr.defined,
      List.mem_append]
    grind

theorem Operation.within_begin (o : Operation) (w : World) :
    (o.begin w).Within (fun scope name => o.Writes scope name) w := by
  cases o with
  | unary operator right => exact .refl _ w
  | binary left operator right => exact .refl _ w
  | index collection position => exact .refl _ w
  | branch here test chosen other =>
    rcases begin_branch here test chosen other w with hbegin | ⟨block, hblock, hbegin⟩
    · rw [hbegin]
      exact .refl _ w
    · rw [hbegin]
      refine ⟨rfl, fun scope name h => ⟨h.1, ?_⟩⟩
      rcases hblock with rfl | rfl
      · exact .inl h.2
      · exact .inr h.2
  | call callee arguments =>
    cases callee with
    | function identity f =>
      by_cases hlength : arguments.length = f.parameters.length
      · simp only [begin, hlength, if_true]
        refine ⟨w.evolves_openScope _ _ _, ?_⟩
        rintro scope name ⟨rfl, -⟩
        exact Nat.le_refl _
      · simp only [begin, hlength, if_false]
        exact .refl _ w
    | builtin b => exact b.call_evolves _ arguments w
    | _ => exact .refl _ w
  | bind here x value => exact w.evolves_define here x value ⟨rfl, rfl⟩
  | file here table key value pairs =>
    rw [begin]
    cases key.key? with
    | none => exact .refl _ w
    | some hashKey =>
      simp only [Move.Within, Task.Writes, Writes, Frame.next]
      grind
  | leave value => exact .refl _ w

theorem Task.within_begin (t : Task) (w : World) :
    (t.begin w).Within (fun scope name => t.Writes scope name) w := by
  cases t with
  | expression here e => exact Move.within_expression w here e
  | arguments here callee done es =>
    cases es <;>
      simp only [begin, Move.Within, Writes, Operation.Writes, Frame.next, definedInAll,
        List.mem_append]
    · grind
    · grind
  | elements here done es =>
    cases es with
    | nil => exact w.evolves_takeIdentity _
    | cons e es =>
      simp only [begin, Move.Within, Writes, Frame.next, definedInAll, List.mem_append]
      grind
  | entries here table pairs =>
    cases pairs with
    | nil => exact w.evolves_takeIdentity _
    | cons pair pairs =>
      simp only [begin, Move.Within, Writes, Operation.Writes, Frame.next, definedInPairs,
        List.mem_append]
      grind
  | statement here s =>
    cases s with
    | define x value =>
      simp only [begin, Move.Within, Writes, Operation.Writes, Frame.next, Stmt.defined,
        List.mem_cons]
      grind
    | leave value =>
      simp only [begin, Move.Within, Writes, Operation.Writes, Frame.next, Stmt.defined]
      grind
    | expression value => exact ⟨rfl, fun _ _ h => h⟩
  | block here last ss =>
    cases ss with
    | nil => exact .refl _ w
    | cons s ss =>
      simp only [begin, Move.Within, Writes, Frame.next, definedInBlock, List.mem_append]
      grind
  | operate o => exact o.within_begin w
  | _ =>
    simp only [begin, Move.Within, Writes, Operation.Writes, Frame.next]
    grind

/-- A task that comes to its value has bound only what it may bind: whatever is bound during a call is
bound in scopes that did not exist before it. -/
theorem Runs.evolves {depth : Nat} {t : Task} {w w' : World} {v : Value} (h : Runs depth t w v w') :
    w.Evolves (fun scope name => t.Writes scope name) w' := by
  induction h with
  | @done depth t w w' v move =>
    have hwithin := t.within_begin w
    rw [move] at hwithin
    exact hwithin
  | @become depth t t' w w₁ w' v move _ ih =>
    have hwithin := t.within_begin w
    rw [move] at hwithin
    obtain ⟨rfl, hwrites⟩ := hwithin
    exact (World.Evolves.refl _ _).trans ih fun s _ name => hwrites s name
  | @pass depth t t' f w w' v move _ _ ih =>
    have hwithin := t.within_begin w
    rw [move] at hwithin
    exact (World.Evolves.refl _ _).trans ih fun s _ name => hwithin.1 s name
  | @next depth t t' f w w₁ w' u v move _ _ _ ih ih' =>
    have hwithin := t.within_begin w
    rw [move] at hwithin
    have hfirst := (World.Evolves.refl _ _).trans ih fun s _ name => hwithin.1 s name
    exact hfirst.trans ih' fun s _ name => hwithin.2 u s name
  | @enter depth t t' w w₁ w' v move _ ih =>
    have hwithin := t.within_begin w
    rw [move] at hwithin
    exact hwithin.1.trans ih fun s hs name hname =>
      absurd (hwithin.2 s name hname) (Nat.not_le.2 hs)

/-- Since an earlier world, only the given names may have been bound in the given scope, and nothing in
any other scope that existed. -/
structure World.BindsOnly (w : World) (scope : ScopeId) (names : List String) (w' : World) : Prop where
  /-- Every other scope has its bindings, and the scope around it, as before. -/
  others : ∀ s < w.scopes.size, s ≠ scope → w'.scopes[s]? = w.scopes[s]?
  /-- The scope has the same scope around it as before. -/
  outer : scope < w.scopes.size → w'.outer? scope = w.outer? scope
  /-- Every other name has its value in the scope, if there was one, as before. -/
  bindings : scope < w.scopes.size →
    ∀ name, name ∉ names → w'.binding? name scope = w.binding? name scope

theorem World.Evolves.bindsOnly {w w' : World} {scope : ScopeId} {names : List String}
    (h : w.Evolves (fun s name => s = scope ∧ name ∈ names) w') : w.BindsOnly scope names w' where
  others s hs hne := h.others s hs fun _ hmay => hne hmay.1
  outer hs := h.outer scope hs
  bindings hs name hname := h.binding scope hs name fun hmay => hname hmay.2

/-- What a call comes to changes no scope that existed before it. -/
theorem World.evolves_of_apply {depth : Nat} {f v : Value} {arguments : List Value} {w w' : World}
    (h : (Eval.apply depth f arguments).run w = some (v, w')) :
    w.Evolves (fun _ _ => False) w' := by
  have hrun : Runs depth (.operate (.call f arguments)) w v w' := runs_iff.2 h
  exact (World.Evolves.refl _ _).trans hrun.evolves fun _ _ _ hwrites => hwrites

/-- A function that is called with the right number of arguments has the value of its body,
delivered, and the body is evaluated in the next scope. -/
theorem exists_of_apply {depth : Nat} {identity : Identity} {f : Closure} {v : Value}
    {arguments : List Value} {w w' : World} (hlength : arguments.length = f.parameters.length)
    (h : (Eval.apply depth (.function identity f) arguments).run w = some (v, w')) :
    ∃ d u, depth = d + 1 ∧ v = u.delivered ∧
      (Eval.block (Eval.apply d) w.nextScope .null f.body).run
        (w.openScope (some f.scope) (f.parameters.zip arguments)) = some (u, w') := by
  have hbegin : (Task.operate (.call (.function identity f) arguments)).begin w =
      .enter (.block w.nextScope .null f.body)
        (w.openScope (some f.scope) (f.parameters.zip arguments)) := if_pos hlength
  have hrun : Runs depth (.operate (.call (.function identity f) arguments)) w v w' :=
    runs_iff.2 h
  cases hrun with
  | @enter d _ t' _ w₁ _ u move run =>
    cases hbegin.symm.trans move
    exact ⟨d, u, rfl, rfl, runs_iff.1 run⟩
  | done move => cases hbegin.symm.trans move
  | become move _ => cases hbegin.symm.trans move
  | pass move _ _ => cases hbegin.symm.trans move
  | next move _ _ _ => cases hbegin.symm.trans move

/-- Wherever an evaluation ends that keeps the current scope as a state, it ends in the scope in which
it began, and it comes to what evaluation in that scope comes to. An expression and a statement bind
only what they define, and only in the scope in which they are evaluated. A call of a function changes
no scope that existed before it: its body is evaluated in a scope that did not, and around which there
is the scope of the function. -/
theorem evaluation_confined (depth : Nat) (scope : ScopeId) (w : World) :
    (∀ e v here w',
      (Located.expression (Located.apply depth) e).run (scope, w) = some (v, here, w') ↔
        (Eval.expression (Eval.apply depth) scope e).run w = some (v, w') ∧ here = scope) ∧
    (∀ s v here w',
      (Located.statement (Located.apply depth) s).run (scope, w) = some (v, here, w') ↔
        (Eval.statement (Eval.apply depth) scope s).run w = some (v, w') ∧ here = scope) ∧
    (∀ e v w', (Eval.expression (Eval.apply depth) scope e).run w = some (v, w') →
      w.BindsOnly scope e.defined w') ∧
    (∀ s v w', (Eval.statement (Eval.apply depth) scope s).run w = some (v, w') →
      w.BindsOnly scope s.defined w') ∧
    ∀ identity f arguments v w',
      (Eval.apply depth (.function identity f) arguments).run w = some (v, w') →
        (∀ s < w.scopes.size, w'.scopes[s]? = w.scopes[s]?) ∧
        (arguments.length = f.parameters.length →
          ∃ own inner d u, (∀ s < w.scopes.size, own ≠ s) ∧
            inner = w.openScope (some f.scope) (f.parameters.zip arguments) ∧
            inner.outer? own = some f.scope ∧ w'.outer? own = some f.scope ∧
            depth = d + 1 ∧ v = u.delivered ∧
            (Located.block (Located.apply d) .null f.body).run (own, inner) =
              some (u, own, w')) := by
  have hagrees := Located.agrees_apply
  refine ⟨fun e v here w' => ?_, fun s v here w' => ?_, fun e v w' h => ?_, fun s v w' h => ?_,
    fun identity f arguments v w' h => ⟨fun s hs => ?_, fun hlength => ?_⟩⟩
  · exact (Located.stays_expression (hagrees depth) e).eq_some_iff
  · exact (Located.stays_statement (hagrees depth) s).eq_some_iff
  · have hrun : Runs depth (.expression scope e) w v w' := runs_iff.2 h
    exact hrun.evolves.bindsOnly
  · have hrun : Runs depth (.statement scope s) w v w' := runs_iff.2 h
    exact hrun.evolves.bindsOnly
  · exact (World.evolves_of_apply h).others s hs fun _ hmay => hmay
  · obtain ⟨d, u, hdepth, hv, hbody⟩ := exists_of_apply hlength h
    have hrun : Runs d (.block w.nextScope .null f.body) _ u w' := runs_iff.2 hbody
    have hnew : w.nextScope < (w.openScope (some f.scope) (f.parameters.zip arguments)).scopes.size :=
      by simp [World.nextScope, World.openScope]
    have hopened : (w.openScope (some f.scope) (f.parameters.zip arguments)).outer? w.nextScope =
        some f.scope := w.outer?_openScope_new _ _
    refine ⟨w.nextScope, _, d, u, fun s hs => (Nat.ne_of_lt hs).symm, rfl, hopened,
      (hrun.evolves.outer _ hnew).trans hopened, hdepth, hv, ?_⟩
    exact (Located.stays_block (hagrees d) .null f.body).eq_some_iff.2 ⟨hbody, rfl⟩

/-- A function that defines a name of its own is called in a definition: outside, only the name of the
definition is bound, and the function alone binds nothing that exists. -/
theorem call_in_definition_confined :
    let body : Program := [.define "z" (.name "x"), .leave (.name "z")]
    let call : Expr Site := .call (.function ⟨0, [0, 0]⟩ ["x"] body) [.integer 2]
    let w : World := (World.initial .unlimited).define globalScope "x" (.integer 1)
    let f : Closure := ⟨["x"], body, ⟨0, [0, 0]⟩, globalScope⟩
    (∃ w', (Eval.expression (Eval.apply 1) globalScope call).run w = some (.integer 2, w') ∧
      w.BindsOnly globalScope [] w') ∧
    (∃ w', (Eval.statement (Eval.apply 1) globalScope (.define "y" call)).run w = some (.null, w') ∧
      w.BindsOnly globalScope ["y"] w') ∧
    ∃ w', (Eval.apply 1 (.function 0 f) [.integer 2]).run w = some (.integer 2, w') ∧
      [Value.integer 2].length = f.parameters.length ∧
      (∀ s < w.scopes.size, w'.scopes[s]? = w.scopes[s]?) ∧
      ∃ own, (∀ s < w.scopes.size, own ≠ s) ∧ w'.outer? own = some globalScope := by
  intro body call w f
  obtain ⟨-, -, hexpression, hstatement, happly⟩ := evaluation_confined 1 globalScope w
  -- The world in which the function is called, up to the identities that are taken.
  let u (n : Identity) : World := { w with nextIdentity := n }
  have hbody (n : Identity) : ∃ w', Runs 0 (.block 1 .null body)
      ((u n).openScope (some globalScope) [("x", .integer 2)]) (.returned (.integer 2)) w' :=
    ⟨_, .next rfl (.next rfl (runs_bound (.here rfl)) rfl (.done rfl)) rfl
      (.pass rfl (.next rfl (runs_bound (.here rfl)) rfl (.done rfl)) rfl)⟩
  obtain ⟨w₁, hfirst⟩ := hbody 1
  have hcall : Runs 1 (.expression globalScope call) w (.integer 2) w₁ :=
    .next rfl (.done rfl) rfl (.next rfl (.done rfl) rfl (.become rfl (.enter rfl hfirst)))
  have hdefine : Runs 1 (.statement globalScope (.define "y" call)) w .null
      (w₁.define globalScope "y" (.integer 2)) := .next rfl hcall rfl (.done rfl)
  obtain ⟨w₃, hlast⟩ := hbody 0
  have hrun : Runs 1 (.operate (.call (.function 0 f) [.integer 2])) w (.integer 2) w₃ :=
    .enter rfl hlast
  rw [runs_iff] at hcall hdefine hrun
  refine ⟨⟨w₁, hcall, hexpression call _ _ hcall⟩, ⟨_, hdefine, hstatement _ _ _ hdefine⟩,
    w₃, hrun, rfl, ?_⟩
  obtain ⟨hold, hbody⟩ := happly 0 f [.integer 2] _ _ hrun
  obtain ⟨own, -, -, -, hfresh, -, -, hstays, -⟩ := hbody rfl
  exact ⟨hold, own, hfresh, hstays⟩

end Monkey
