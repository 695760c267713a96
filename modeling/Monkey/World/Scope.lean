import Monkey.Value.Basic

/-!
# Scopes

A scope binds names to values and knows the scope around it, if there is one. A name is looked for in a
scope, then in the one around it, and so on; it means the value that it has in the first one that binds
it. Nothing in a scope says that this comes to an end.
-/

namespace Monkey

/-- Names with their values. -/
abbrev Bindings := List (String × Value)

/-- The bindings after a name is bound, whether or not it was bound before. -/
def Bindings.bind (name : String) (value : Value) : Bindings → Bindings
  | [] => [(name, value)]
  | (other, old) :: bindings =>
    if other = name then (name, value) :: bindings else (other, old) :: bind name value bindings

/-- A name has the value that it was bound to last, and binding it changes no other name. -/
theorem Bindings.lookup_bind (name : String) (value : Value) (bindings : Bindings) (sought : String) :
    (bindings.bind name value).lookup sought =
      if sought = name then some value else bindings.lookup sought := by
  induction bindings with
  | nil =>
    by_cases h : sought = name
    · simp [bind, h]
    · simp [bind, List.lookup_cons, h, beq_eq_false_iff_ne.2 h]
  | cons binding bindings ih =>
    obtain ⟨other, old⟩ := binding
    by_cases ho : other = name
    · subst ho
      by_cases h : sought = other
      · simp [bind, h]
      · simp [bind, List.lookup_cons, h, beq_eq_false_iff_ne.2 h]
    · by_cases h : sought = other
      · subst h
        simp [bind, ho]
      · simp [bind, ho, List.lookup_cons, beq_eq_false_iff_ne.2 h, ih]

/-- The bindings after each name is bound in turn. -/
def Bindings.bindAll (bindings : Bindings) (pairs : List (String × Value)) : Bindings :=
  pairs.foldl (fun b (name, value) => b.bind name value) bindings

/-- A scope. -/
structure Scope where
  /-- What is bound in the scope itself. -/
  bindings : Bindings
  /-- The scope around it. -/
  outer : Option ScopeId

/-- The scope after a name is bound in it. -/
def Scope.define (s : Scope) (name : String) (value : Value) : Scope :=
  { s with bindings := s.bindings.bind name value }

/-- Scopes, each under its number. -/
abbrev Scopes := Array Scope

namespace Scopes

/-- The scope around a scope. -/
def outer? (scopes : Scopes) (scope : ScopeId) : Option ScopeId := (scopes[scope]?).bind Scope.outer

/-- The value that a scope itself binds a name to. -/
def binding? (scopes : Scopes) (name : String) (scope : ScopeId) : Option Value :=
  (scopes[scope]?).bind fun s => s.bindings.lookup name

/-- What is found of a name in a scope or, scope by scope, further out: a value or none. There is no result
at all when the scopes go on without end. -/
def search (scopes : Scopes) (name : String) (scope : ScopeId) : Option (Option Value) :=
  match scopes.binding? name scope with
  | some value => some (some value)
  | none =>
    match scopes.outer? scope with
    | some outer => scopes |>.search name outer
    | none => some none
partial_fixpoint

/-- The number of scopes from a scope outwards, itself included. There is none when they go on without
end. -/
def count (scopes : Scopes) (scope : ScopeId) : Option Nat :=
  match scopes.outer? scope with
  | some outer => do
    let further ← scopes |>.count outer
    return further + 1
  | none => some 1
partial_fixpoint

end Scopes

end Monkey
