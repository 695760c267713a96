import Monkey.Syntax.Site
import Monkey.World.Scope
import Monkey.World.Sink

/-!
# Worlds

What evaluation changes: the scopes, the count of identities that have been given away, and the sink
that output goes to. Programs are counted too, for the sites of their function literals; evaluation
does not touch that count.
-/

namespace Monkey

/-- All that evaluation can read and change. -/
structure World where
  /-- The scopes, each under its number. -/
  scopes : Array Scope
  /-- The next unused identity. -/
  nextIdentity : Identity
  /-- The number of the next program. -/
  nextProgram : Nat
  /-- Where output goes. -/
  sink : Sink

namespace World

/-- A world without scopes. -/
def empty (sink : Sink) : World := ⟨#[], 0, 0, sink⟩

/-- The scope around a scope. -/
def outer? (w : World) (scope : ScopeId) : Option ScopeId := Scopes.outer? w.scopes scope

/-- The value that a scope itself binds a name to. -/
def binding? (w : World) (name : String) (scope : ScopeId) : Option Value :=
  Scopes.binding? w.scopes name scope

/-- What comes of looking for a name from a scope outwards, if that comes to an end. -/
def search (w : World) (scope : ScopeId) (name : String) : Option (Option Value) :=
  Scopes.search w.scopes name scope

/-- The value of a name in the nearest scope that binds it, from a scope outwards. There is none where the
search goes on without end, but in a world that is made scope by scope every search ends. -/
def lookup (w : World) (scope : ScopeId) (name : String) : Option Value := (w.search scope name).join

/-- What comes of counting the scopes from a scope outwards, if that comes to an end. -/
def count (w : World) (scope : ScopeId) : Option Nat := Scopes.count w.scopes scope

/-- The number of scopes from a scope outwards, itself included. -/
def depth (w : World) (scope : ScopeId) : Nat := (w.count scope).getD 0

/-- The world after a name is bound in a scope. -/
def define (w : World) (scope : ScopeId) (name : String) (value : Value) : World :=
  { w with scopes := w.scopes.modify scope (·.define name value) }

/-- The number of the next scope to be opened. -/
def nextScope (w : World) : ScopeId := w.scopes.size

/-- The world with a further scope, inside the given one if there is one, that binds some names. -/
def openScope (w : World) (around : Option ScopeId) (pairs : List (String × Value)) : World :=
  { w with scopes := w.scopes.push ⟨Bindings.bindAll [] pairs, around⟩ }

/-- The world after some bytes are offered to the sink. -/
def write (w : World) (bytes : ByteArray) : World := { w with sink := w.sink.write bytes }

/-- An unused identity, and the world in which it is used. -/
def takeIdentity (w : World) : Identity × World :=
  (w.nextIdentity, { w with nextIdentity := w.nextIdentity + 1 })

/-- A new array, and the world with it. -/
def newArray (w : World) (elements : List Value) : Value × World :=
  (.array w.takeIdentity.1 elements, w.takeIdentity.2)

/-- A new hash, and the world with it. -/
def newHash (w : World) (entries : Table (Value × Value)) : Value × World :=
  (.hash w.takeIdentity.1 entries, w.takeIdentity.2)

/-- A new function, and the world with it. -/
def newFunction (w : World) (closure : Closure) : Value × World :=
  (.function w.takeIdentity.1 closure, w.takeIdentity.2)

/-- A tree as a program with a number of its own, and the world in which it has that number. -/
def enrol (w : World) (tree : Tree) : Program × World :=
  (place w.nextProgram tree, { w with nextProgram := w.nextProgram + 1 })

/-- A new function with an empty scope of its own around it, and the world with it. -/
def isolatedFunction (w : World) (parameters : List String) (body : Tree) : Value × World :=
  let (program, enrolled) := w.enrol body
  (enrolled.openScope none []).newFunction
    ⟨parameters, program, ⟨w.nextProgram, []⟩, enrolled.nextScope⟩

/-- The world before a session: one scope without bindings, numbered zero. -/
def initial (sink : Sink) : World := (empty sink).openScope none []

/-- Binding a name changes no scope around another one. -/
@[simp] theorem outer?_define (w : World) (scope : ScopeId) (name : String) (value : Value)
    (other : ScopeId) : (w.define scope name value).outer? other = w.outer? other := by
  simp only [outer?, Scopes.outer?, define, Array.getElem?_modify]
  split
  · next h => subst h; cases w.scopes[scope]? <;> rfl
  · rfl

/-- In a scope that exists, a name has the value that it was bound to last; no other name and no other
scope is affected. -/
theorem binding?_define (w : World) {scope : ScopeId} (h : scope < w.scopes.size) (name : String)
    (value : Value) (sought : String) (other : ScopeId) :
    (w.define scope name value).binding? sought other =
      if other = scope ∧ sought = name then some value else w.binding? sought other := by
  simp only [binding?, Scopes.binding?, define, Array.getElem?_modify]
  by_cases ho : other = scope
  · subst ho
    simp only [if_true, Array.getElem?_eq_getElem h, Option.map_some, Option.bind_some, Scope.define,
      Bindings.lookup_bind, true_and]
  · simp [ho, Ne.symm ho]

theorem getElem?_openScope (w : World) (around : Option ScopeId) (pairs : List (String × Value))
    {scope : ScopeId} (h : scope < w.scopes.size) :
    (w.openScope around pairs).scopes[scope]? = w.scopes[scope]? := by
  simp [openScope, Array.getElem?_push, Nat.ne_of_lt h]

/-- Around a new scope is the one that it was opened in. -/
theorem outer?_openScope_new (w : World) (around : Option ScopeId) (pairs : List (String × Value)) :
    (w.openScope around pairs).outer? w.nextScope = around := by
  simp [outer?, Scopes.outer?, openScope, nextScope]

/-- Opening a scope changes nothing around a scope that exists. -/
theorem outer?_openScope_old (w : World) (around : Option ScopeId) (pairs : List (String × Value))
    {scope : ScopeId} (h : scope < w.scopes.size) :
    (w.openScope around pairs).outer? scope = w.outer? scope := by
  rw [outer?, outer?, Scopes.outer?, Scopes.outer?, w.getElem?_openScope around pairs h]

/-- A new scope binds what it was opened with. -/
theorem binding?_openScope_new (w : World) (around : Option ScopeId)
    (pairs : List (String × Value)) (name : String) :
    (w.openScope around pairs).binding? name w.nextScope =
      (Bindings.bindAll [] pairs).lookup name := by
  simp [binding?, Scopes.binding?, openScope, nextScope]

/-- Opening a scope binds nothing in a scope that exists. -/
theorem binding?_openScope_old (w : World) (around : Option ScopeId)
    (pairs : List (String × Value)) (name : String) {scope : ScopeId}
    (h : scope < w.scopes.size) :
    (w.openScope around pairs).binding? name scope = w.binding? name scope := by
  rw [binding?, binding?, Scopes.binding?, Scopes.binding?, w.getElem?_openScope around pairs h]

end World

/-- The scope that a session's programs share. -/
def globalScope : ScopeId := 0

end Monkey
