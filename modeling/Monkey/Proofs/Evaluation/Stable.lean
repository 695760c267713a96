import Monkey.Proofs.Evaluation.Hereditary
import Monkey.Proofs.Evaluation.Machine
import Monkey.Proofs.Rendering.WellFormed

/-!
# Stable conditions

What tasks and frames have in them are values, a scope and pieces of program. Conditions on these are
stable, together with one on worlds, when whatever a task does that is no call of a function leads from
values, scopes and worlds that meet them to such. What a call leads to is left to those who state the
conditions, and so is what has to be known wherever there is a call expression.
-/

namespace Monkey

variable {μ : Type}

/-- The expressions of pairs. -/
def inPairs (pairs : List (Expr μ × Expr μ)) : List (Expr μ) := pairs.flatMap fun p => [p.1, p.2]

/-- The expressions of the statements in the two blocks of a conditional. -/
def inBlocks (chosen : List (Stmt μ)) (other : Option (List (Stmt μ))) : List (Expr μ) :=
  chosen.map Stmt.value ++ (other.getD []).map Stmt.value

/-- The expressions that an expression is made of. -/
def Expr.children : Expr μ → List (Expr μ)
  | .unary _ operand => [operand]
  | .binary left _ right => [left, right]
  | .conditional test chosen other => test :: inBlocks chosen other
  | .function _ _ body => body.map Stmt.value
  | .call callee arguments => callee :: arguments
  | .array elements => elements
  | .index collection position => [collection, position]
  | .hash pairs => inPairs pairs
  | _ => []

/-- An expression stands somewhere in another one, or it is that one. -/
def Expr.Within (d e : Expr μ) : Prop := Relation.ReflTransGen (fun c e => c ∈ e.children) d e

theorem Expr.Within.refl (e : Expr μ) : e.Within e := Relation.ReflTransGen.refl

/-- What stands in a part of an expression stands in the expression. -/
theorem Expr.Within.of_child {c d e : Expr μ} (h : d.Within c) (mem : c ∈ e.children) : d.Within e :=
  h.tail mem

/-- What stands in an expression is the expression itself, or it stands in one of its parts. -/
theorem Expr.within_iff {d e : Expr μ} : d.Within e ↔ d = e ∨ ∃ c ∈ e.children, d.Within c := by
  rw [Within, Relation.ReflTransGen.cases_tail_iff, eq_comm]
  exact or_congr_right (exists_congr fun _ => and_comm)

/-- The values that an operation works on; a table counts as the hash that it makes. -/
def Operation.values : Operation → List Value
  | unary _ right => [right]
  | binary left _ right => [left, right]
  | index collection position => [collection, position]
  | branch _ test _ _ => [test]
  | call callee arguments => callee :: arguments
  | bind _ _ value => [value]
  | file _ table key _ _ => [.hash 0 table, key]
  | leave value => [value]

/-- The values that a task begins with. -/
def Task.values : Task → List Value
  | right _ left _ _ => [left]
  | position _ collection _ => [collection]
  | arguments _ callee done _ => callee :: done
  | elements _ done _ => done
  | entries _ table _ => [.hash 0 table]
  | block _ last _ => [last]
  | operate o => o.values
  | _ => []

/-- The values that a frame keeps. -/
def Frame.values : Frame → List Value
  | right l _ => [l]
  | argument _ f done _ => f :: done
  | element _ done _ => done
  | position c => [c]
  | key _ table _ _ => [.hash 0 table]
  | entry _ table _ k _ => [.hash 0 table, k]
  | _ => []

/-- The scope in which an operation goes on, if it does. -/
def Operation.scope? : Operation → Option ScopeId
  | branch scope _ _ _ => some scope
  | bind scope _ _ => some scope
  | file scope _ _ _ _ => some scope
  | _ => none

/-- The scope that a task is done in, if it needs one. -/
def Task.scope? : Task → Option ScopeId
  | expression scope _ => some scope
  | right scope _ _ _ => some scope
  | position scope _ _ => some scope
  | arguments scope _ _ _ => some scope
  | elements scope _ _ => some scope
  | entries scope _ _ => some scope
  | statement scope _ => some scope
  | block scope _ _ => some scope
  | operate o => o.scope?

/-- The scope in which a frame goes on, if it needs one. -/
def Frame.scope? : Frame → Option ScopeId
  | left scope _ _ => some scope
  | test scope _ _ => some scope
  | callee scope _ => some scope
  | argument scope _ _ _ => some scope
  | element scope _ _ => some scope
  | collection scope _ => some scope
  | key scope _ _ _ => some scope
  | entry scope _ _ _ _ => some scope
  | statement scope _ => some scope
  | define scope _ => some scope
  | _ => none

/-- The expressions that can be evaluated after an operation. -/
def Operation.code : Operation → List (Expr Site)
  | branch _ _ chosen other => inBlocks chosen other
  | file _ _ _ value pairs => value :: inPairs pairs
  | _ => []

/-- The expressions that a task has to evaluate, or can have to. -/
def Task.code : Task → List (Expr Site)
  | expression _ e => [e]
  | right _ _ _ e => [e]
  | position _ _ e => [e]
  | arguments _ _ _ es => es
  | elements _ _ es => es
  | entries _ _ pairs => inPairs pairs
  | statement _ s => [s.value]
  | block _ _ ss => ss.map Stmt.value
  | operate o => o.code

/-- The expressions that can be evaluated after what a frame waits for. -/
def Frame.code : Frame → List (Expr Site)
  | left _ _ e => [e]
  | test _ chosen other => inBlocks chosen other
  | callee _ es => es
  | argument _ _ _ es => es
  | element _ _ es => es
  | collection _ e => [e]
  | key _ _ value pairs => value :: inPairs pairs
  | entry _ _ _ _ pairs => inPairs pairs
  | statement _ ss => ss.map Stmt.value
  | _ => []

/-- An entry that waits for its value is filed under the key of its key value. -/
def Frame.Filed : Frame → Prop
  | entry _ _ hashKey k _ => k.key? = some hashKey
  | _ => True

/-- An operation is a call. -/
def Operation.Calls : Operation → Prop
  | call _ _ => True
  | _ => False

/-- A task is the rest of a call. -/
def Task.Calls : Task → Prop
  | arguments _ _ _ _ => True
  | operate o => o.Calls
  | _ => False

/-- A frame is the rest of a call. -/
def Frame.Calls : Frame → Prop
  | callee _ _ => True
  | argument _ _ _ _ => True
  | _ => False

/-- Values have the property, a scope is admitted, and expressions are of the sort. -/
structure Kept (P : Value → Prop) (Q : ScopeId → Prop) (S : Expr Site → Prop) (values : List Value)
    (scope? : Option ScopeId) (code : List (Expr Site)) : Prop where
  /-- The values have the property. -/
  values : ∀ v ∈ values, P v
  /-- The scope is admitted. -/
  scope : ∀ scope ∈ scope?, Q scope
  /-- The expressions are of the sort. -/
  code : ∀ e ∈ code, S e

/-- Conditions on values, scopes, expressions and worlds that evaluation keeps. Wherever there is a call
expression, `C` holds, and a call of a function leads to where `E` holds. -/
structure Stable (P : Value → Prop) (Q : ScopeId → Prop) (S : Expr Site → Prop) (C : Prop)
    (W : World → Prop) (E : Task → World → Prop) : Prop where
  /-- What builtin functions and operators make of values with the property has it. -/
  hereditary : Value.Hereditary P
  /-- The texts of the program have it. -/
  string : ∀ text, S (.string text) → P (.string text)
  /-- Faults have it. -/
  error : ∀ fault, P (.error fault)
  /-- What is returned has it. -/
  returned : ∀ v, P v → P (.returned v)
  /-- Hashes without entries have it. -/
  empty : ∀ identity, P (.hash identity [])
  /-- So have hashes with a further entry that has it. -/
  filed : ∀ identity table key k v, P (.hash identity table) → P k → k.key? = some key → P v →
    P (.hash identity (Table.insert key (k, v) table))
  /-- It does not matter which hash it is. -/
  renewed : ∀ identity other table, P (.hash identity table) → P (.hash other table)
  /-- Functions have it that are made in an admitted scope. -/
  function : ∀ identity site parameters body scope, S (.function site parameters body) → Q scope →
    P (.function identity ⟨parameters, body, site, scope⟩)
  /-- Something is known wherever there is a call. -/
  call : ∀ callee arguments, S (.call callee arguments) → C
  /-- Parts of an expression are of the sort that it is of. -/
  parts : ∀ e, S e → ∀ d ∈ e.children, S d
  /-- What names stand for has the property. -/
  named : ∀ w scope text, W w → Q scope → P (w.named scope text)
  /-- Names can be bound to values with it. -/
  define : ∀ w scope name v, W w → Q scope → P v → W (w.define scope name v)
  /-- Only the scopes of a world matter. -/
  congr : ∀ w w', W w → w'.scopes = w.scopes → W w'
  /-- A function with the property is called with arguments that have it. -/
  enter : ∀ w identity f arguments, W w → C → P (.function identity f) → (∀ v ∈ arguments, P v) →
    E (.block w.nextScope .null f.body) (w.openScope (some f.scope) (f.parameters.zip arguments))

section

variable (P : Value → Prop) (Q : ScopeId → Prop) (S : Expr Site → Prop) (C : Prop)
  (W : World → Prop) (E : Task → World → Prop)

/-- What a task begins with meets the conditions. -/
def Task.Meets (t : Task) : Prop := Kept P Q S t.values t.scope? t.code ∧ (t.Calls → C)

/-- What a frame keeps meets the conditions, and it is filed. -/
def Frame.Meets (f : Frame) : Prop :=
  (Kept P Q S f.values f.scope? f.code ∧ f.Filed) ∧ (f.Calls → C)

/-- However a task goes on, the conditions are met. -/
def Move.Meets : Move → Prop
  | done v w => P v ∧ W w
  | become t w => t.Meets P Q S C ∧ W w
  | await t f => t.Meets P Q S C ∧ f.Meets P Q S C
  | enter t w => E t w

end

namespace Stable

variable {P : Value → Prop} {Q : ScopeId → Prop} {S : Expr Site → Prop} {C : Prop}
  {W : World → Prop} {E : Task → World → Prop} {w : World} {t : Task} {f : Frame} {v : Value}
  (hP : Stable P Q S C W E)

include hP

/-- A result has the property if its value has. -/
theorem ofResult {r : Except Fault Value} (h : ∀ v, r = .ok v → P v) : P (.ofResult r) := by
  cases r with
  | ok v => exact h v rfl
  | error fault => exact hP.error fault

/-- A value that comes to a frame meets the conditions with what the frame keeps. -/
theorem next (h : f.Meets P Q S C) (hv : P v) : (f.next v).Meets P Q S C := by
  obtain ⟨⟨⟨hvalues, hscope, hcode⟩, hfiled⟩, hcalls⟩ := h
  cases f with
  | argument scope callee done es =>
    refine ⟨⟨?_, hscope, hcode⟩, fun _ => hcalls trivial⟩
    rw [Frame.values, List.forall_mem_cons] at hvalues
    exact List.forall_mem_cons.2 ⟨hvalues.1,
      List.forall_mem_append.2 ⟨hvalues.2, List.forall_mem_singleton.2 hv⟩⟩
  | element scope done es =>
    exact ⟨⟨List.forall_mem_append.2 ⟨hvalues, List.forall_mem_singleton.2 hv⟩, hscope, hcode⟩,
      False.elim⟩
  | entry scope table hashKey k pairs =>
    simp only [Frame.values, List.forall_mem_cons] at hvalues
    exact ⟨⟨List.forall_mem_singleton.2 (hP.filed _ _ _ _ _ hvalues.1 hvalues.2.1 hfiled hv),
      hscope, hcode⟩, False.elim⟩
  | right l operator =>
    exact ⟨⟨List.forall_mem_cons.2 ⟨hvalues l List.mem_cons_self, List.forall_mem_singleton.2 hv⟩,
      hscope, hcode⟩, False.elim⟩
  | position c =>
    exact ⟨⟨List.forall_mem_cons.2 ⟨hvalues c List.mem_cons_self, List.forall_mem_singleton.2 hv⟩,
      hscope, hcode⟩, False.elim⟩
  | key scope table value pairs =>
    exact ⟨⟨List.forall_mem_cons.2 ⟨hvalues _ List.mem_cons_self, List.forall_mem_singleton.2 hv⟩,
      hscope, hcode⟩, False.elim⟩
  | callee scope es =>
    exact ⟨⟨List.forall_mem_singleton.2 hv, hscope, hcode⟩, fun _ => hcalls trivial⟩
  | _ => exact ⟨⟨List.forall_mem_singleton.2 hv, hscope, hcode⟩, False.elim⟩

theorem expression (hw : W w) {scope : ScopeId} (hscope : Q scope) {e : Expr Site} (he : S e) :
    (Move.expression w scope e).Meets P Q S C W E := by
  have hH := hP.hereditary
  have hparts := hP.parts e he
  have hhere : ∀ s ∈ some scope, Q s := by
    rintro _ ⟨⟩
    exact hscope
  have hnowhere : ∀ s ∈ (none : Option ScopeId), Q s := by rintro _ ⟨⟩
  have hfirst {d : Expr Site} {ds : List (Expr Site)} (h : ∀ x ∈ d :: ds, S x) :
      (Task.expression scope d).Meets P Q S C :=
    ⟨⟨List.forall_mem_nil _, hhere, List.forall_mem_singleton.2 (h d List.mem_cons_self)⟩, False.elim⟩
  have hothers {d : Expr Site} {ds : List (Expr Site)} (h : ∀ x ∈ d :: ds, S x) :
      Kept P Q S [] (some scope) ds ∧ True :=
    ⟨⟨List.forall_mem_nil _, hhere, (List.forall_mem_cons.1 h).2⟩, trivial⟩
  cases e with
  | name text => exact ⟨hP.named w scope text hw hscope, hw⟩
  | integer n => exact ⟨hH.integer n, hw⟩
  | boolean b => exact ⟨hH.boolean b, hw⟩
  | string text => exact ⟨hP.string text he, hw⟩
  | unary operator operand =>
    exact ⟨hfirst hparts, ⟨⟨List.forall_mem_nil _, hnowhere, List.forall_mem_nil _⟩, trivial⟩,
      False.elim⟩
  | binary left operator right => exact ⟨hfirst hparts, hothers hparts, False.elim⟩
  | conditional test chosen other => exact ⟨hfirst hparts, hothers hparts, False.elim⟩
  | function site parameters body =>
    exact ⟨hP.function _ site parameters body scope he hscope, hP.congr w _ hw rfl⟩
  | call callee arguments => exact ⟨hfirst hparts, hothers hparts, fun _ => hP.call _ _ he⟩
  | array elements => exact ⟨⟨⟨List.forall_mem_nil _, hhere, hparts⟩, False.elim⟩, hw⟩
  | index collection position => exact ⟨hfirst hparts, hothers hparts, False.elim⟩
  | hash pairs =>
    exact ⟨⟨⟨List.forall_mem_singleton.2 (hP.empty 0), hhere, hparts⟩, False.elim⟩, hw⟩

theorem operate (hw : W w) {o : Operation} (ho : (Task.operate o).Meets P Q S C) :
    (o.begin w).Meets P Q S C W E := by
  obtain ⟨⟨hvalues, hscope, hcode⟩, hcalls⟩ := ho
  have hH := hP.hereditary
  cases o with
  | unary operator right => exact ⟨hP.ofResult fun _ => hH.unary, hw⟩
  | binary left operator right =>
    obtain ⟨hl, hr⟩ := List.forall_mem_cons.1 hvalues
    exact ⟨hP.ofResult fun _ => hH.binary hl (hr right List.mem_cons_self), hw⟩
  | index collection position =>
    exact ⟨hP.ofResult fun _ => hH.index (hvalues collection List.mem_cons_self), hw⟩
  | branch scope test chosen other =>
    have hcode' : ∀ e ∈ inBlocks chosen other, S e := hcode
    rw [inBlocks, List.forall_mem_append] at hcode'
    rcases Operation.begin_branch scope test chosen other w with hbegin | ⟨block, hblock, hbegin⟩
    · rw [hbegin]
      exact ⟨hH.null, hw⟩
    · have hinside : ∀ e ∈ block.map Stmt.value, S e := by
        rcases hblock with rfl | rfl
        · exact hcode'.1
        · exact hcode'.2
      rw [hbegin]
      exact ⟨⟨⟨List.forall_mem_singleton.2 hH.null, hscope, hinside⟩, False.elim⟩, hw⟩
  | call callee arguments =>
    obtain ⟨hcallee, harguments⟩ := List.forall_mem_cons.1 hvalues
    cases callee with
    | function identity f =>
      by_cases hlength : arguments.length = f.parameters.length
      · simp only [Operation.begin, hlength, if_true]
        exact hP.enter w identity f arguments hw (hcalls trivial) hcallee harguments
      · simp only [Operation.begin, hlength, if_false]
        exact ⟨hP.error _, hw⟩
    | builtin b =>
      exact ⟨hP.ofResult fun _ => hH.call harguments b, hP.congr w _ hw (b.scopes_call arguments w)⟩
    | _ => exact ⟨hP.error _, hw⟩
  | bind scope name value =>
    exact ⟨hH.null, hP.define w scope name value hw (hscope scope rfl) (hvalues value List.mem_cons_self)⟩
  | file scope table key value pairs =>
    rw [Operation.begin]
    cases hkey : key.key? with
    | none => exact ⟨hP.error _, hw⟩
    | some hashKey =>
      obtain ⟨he, hes⟩ := List.forall_mem_cons.1 hcode
      exact ⟨⟨⟨List.forall_mem_nil _, hscope, List.forall_mem_singleton.2 he⟩, False.elim⟩,
        ⟨⟨hvalues, hscope, hes⟩, hkey⟩, False.elim⟩
  | leave value => exact ⟨hP.returned value (hvalues value List.mem_cons_self), hw⟩

/-- A task that begins with what meets the conditions goes on with what does. -/
theorem begin (hw : W w) (ht : t.Meets P Q S C) : (t.begin w).Meets P Q S C W E := by
  have hall := ht
  obtain ⟨⟨hvalues, hscope, hcode⟩, hcalls⟩ := ht
  have hfirst {scope : ScopeId} (hhere : ∀ s ∈ some scope, Q s) {d : Expr Site}
      {ds : List (Expr Site)} (h : ∀ x ∈ d :: ds, S x) : (Task.expression scope d).Meets P Q S C :=
    ⟨⟨List.forall_mem_nil _, hhere, List.forall_mem_singleton.2 (h d List.mem_cons_self)⟩, False.elim⟩
  have hnowhere : ∀ s ∈ (none : Option ScopeId), Q s := by rintro _ ⟨⟩
  cases t with
  | expression scope e => exact hP.expression hw (hscope scope rfl) (hcode e List.mem_cons_self)
  | right scope left operator e =>
    exact ⟨hfirst hscope hcode, ⟨⟨hvalues, hnowhere, List.forall_mem_nil _⟩, trivial⟩, False.elim⟩
  | position scope collection e =>
    exact ⟨hfirst hscope hcode, ⟨⟨hvalues, hnowhere, List.forall_mem_nil _⟩, trivial⟩, False.elim⟩
  | arguments scope callee done es =>
    cases es with
    | nil => exact ⟨⟨⟨hvalues, hnowhere, List.forall_mem_nil _⟩, fun _ => hcalls trivial⟩, hw⟩
    | cons e es =>
      exact ⟨hfirst hscope hcode, ⟨⟨hvalues, hscope, (List.forall_mem_cons.1 hcode).2⟩, trivial⟩,
        fun _ => hcalls trivial⟩
  | elements scope done es =>
    cases es with
    | nil => exact ⟨(hP.hereditary.array _ _).2 hvalues, hP.congr w _ hw rfl⟩
    | cons e es =>
      exact ⟨hfirst hscope hcode, ⟨⟨hvalues, hscope, (List.forall_mem_cons.1 hcode).2⟩, trivial⟩,
        False.elim⟩
  | entries scope table pairs =>
    cases pairs with
    | nil => exact ⟨hP.renewed _ _ _ (hvalues _ List.mem_cons_self), hP.congr w _ hw rfl⟩
    | cons pair pairs =>
      exact ⟨hfirst hscope hcode, ⟨⟨hvalues, hscope, (List.forall_mem_cons.1 hcode).2⟩, trivial⟩,
        False.elim⟩
  | statement scope s =>
    cases s with
    | define name value =>
      exact ⟨hfirst hscope hcode, ⟨⟨hvalues, hscope, List.forall_mem_nil _⟩, trivial⟩, False.elim⟩
    | leave value =>
      exact ⟨hfirst hscope hcode, ⟨⟨hvalues, hnowhere, List.forall_mem_nil _⟩, trivial⟩, False.elim⟩
    | expression value => exact ⟨hfirst hscope hcode, hw⟩
  | block scope last ss =>
    cases ss with
    | nil => exact ⟨hvalues last List.mem_cons_self, hw⟩
    | cons s ss =>
      obtain ⟨hs, hss⟩ := List.forall_mem_cons.1 hcode
      exact ⟨⟨⟨List.forall_mem_nil _, hscope, List.forall_mem_singleton.2 hs⟩, False.elim⟩,
        ⟨⟨List.forall_mem_nil _, hscope, hss⟩, trivial⟩, False.elim⟩
  | operate o => exact hP.operate hw hall

end Stable

end Monkey
