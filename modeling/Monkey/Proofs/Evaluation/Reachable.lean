import Monkey.World.Basic

/-!
# What can be reached

A value has parts: elements, keys and entries, at any depth. A function among them knows the scope that
it captured, and from a scope one comes to those around it and to those that the functions bound in it
know. What cannot be reached from where an evaluation begins cannot matter to it.
-/

namespace Monkey

namespace Value

/-- Proof by induction on a value, where what a collection consists of is there as a whole. -/
@[elab_as_elim]
theorem inductionOn {P : Value → Prop} (integer : ∀ n, P (.integer n))
    (boolean : ∀ b, P (.boolean b)) (string : ∀ text, P (.string text)) (null : P .null)
    (array : ∀ identity elements, (∀ v ∈ elements, P v) → P (.array identity elements))
    (hash : ∀ identity entries, (∀ e ∈ entries, P e.2.1 ∧ P e.2.2) → P (.hash identity entries))
    (function : ∀ identity closure, P (.function identity closure))
    (builtin : ∀ b, P (.builtin b)) (returned : ∀ v, P v → P (.returned v))
    (error : ∀ fault, P (.error fault)) (v : Value) : P v :=
  @Value.rec P (fun vs => ∀ v ∈ vs, P v) (fun es => ∀ e ∈ es, P e.2.1 ∧ P e.2.2)
    (fun e => P e.2.1 ∧ P e.2.2) (fun p => P p.1 ∧ P p.2)
    integer boolean string null array hash function builtin returned error
    (List.forall_mem_nil _) (fun _ _ h hs => List.forall_mem_cons.2 ⟨h, hs⟩)
    (List.forall_mem_nil _) (fun _ _ h hs => List.forall_mem_cons.2 ⟨h, hs⟩)
    (fun _ _ h => h) (fun _ _ h h' => ⟨h, h'⟩) v

/-- A value is a part of another one, at any depth, or that value itself. -/
inductive Part (u : Value) : Value → Prop where
  | self : Part u u
  | element {identity : Identity} {elements : List Value} {v : Value} (mem : v ∈ elements)
      (h : Part u v) : Part u (.array identity elements)
  | key {identity : Identity} {entries : Table (Value × Value)} {e : HashKey × Value × Value}
      (mem : e ∈ entries) (h : Part u e.2.1) : Part u (.hash identity entries)
  | entry {identity : Identity} {entries : Table (Value × Value)} {e : HashKey × Value × Value}
      (mem : e ∈ entries) (h : Part u e.2.2) : Part u (.hash identity entries)
  | returned {v : Value} (h : Part u v) : Part u (.returned v)

/-- A part of a part is a part. -/
theorem Part.trans {u v x : Value} (h : Part u v) (h' : Part v x) : Part u x := by
  induction h' with
  | self => exact h
  | element mem _ ih => exact .element mem ih
  | key mem _ ih => exact .key mem ih
  | entry mem _ ih => exact .entry mem ih
  | returned _ ih => exact .returned ih

/-- A function has no parts but itself. -/
theorem Part.eq_function {u : Value} {identity : Identity} {f : Closure}
    (h : Part u (.function identity f)) : u = .function identity f := by
  cases h
  rfl

/-- A function that is a part of the value was made in the scope. -/
def Captures (v : Value) (scope : ScopeId) : Prop :=
  ∃ identity f, Part (.function identity f) v ∧ f.scope = scope

/-- The identity of a value, if it has one. -/
def identity? : Value → Option Identity
  | array identity _ => some identity
  | hash identity _ => some identity
  | function identity _ => some identity
  | _ => none

/-- A part of the value has the identity. -/
def Holds (v : Value) (identity : Identity) : Prop :=
  ∃ u, Part u v ∧ u.identity? = some identity

theorem captures_function {identity : Identity} {f : Closure} {scope : ScopeId} :
    (function identity f).Captures scope ↔ f.scope = scope := by
  constructor
  · rintro ⟨i, g, hpart, hscope⟩
    cases hpart.eq_function
    exact hscope
  · exact fun hscope => ⟨identity, f, .self, hscope⟩

theorem captures_array {identity : Identity} {elements : List Value} {scope : ScopeId} :
    (array identity elements).Captures scope ↔ ∃ v ∈ elements, v.Captures scope := by
  constructor
  · rintro ⟨i, g, hpart, hscope⟩
    cases hpart with
    | element mem hpart => exact ⟨_, mem, i, g, hpart, hscope⟩
  · rintro ⟨v, mem, i, g, hpart, hscope⟩
    exact ⟨i, g, .element mem hpart, hscope⟩

theorem not_captures_integer (n : Int64) (scope : ScopeId) : ¬ (integer n).Captures scope := by
  rintro ⟨i, g, hpart, -⟩
  cases hpart

theorem holds_function {identity other : Identity} {f : Closure} :
    (function identity f).Holds other ↔ other = identity := by
  constructor
  · rintro ⟨u, hpart, hu⟩
    cases hpart.eq_function
    exact (Option.some.inj hu).symm
  · rintro rfl
    exact ⟨_, .self, rfl⟩

theorem holds_array {identity other : Identity} {elements : List Value} :
    (array identity elements).Holds other ↔ other = identity ∨ ∃ v ∈ elements, v.Holds other := by
  constructor
  · rintro ⟨u, hpart, hu⟩
    cases hpart with
    | self => exact .inl (Option.some.inj hu).symm
    | element mem hpart => exact .inr ⟨_, mem, u, hpart, hu⟩
  · rintro (rfl | ⟨v, mem, u, hpart, hu⟩)
    · exact ⟨_, .self, rfl⟩
    · exact ⟨u, .element mem hpart, hu⟩

theorem not_holds_integer (n : Int64) (identity : Identity) : ¬ (integer n).Holds identity := by
  rintro ⟨u, hpart, hu⟩
  cases hpart
  cases hu

theorem Captures.of_part {v x : Value} {scope : ScopeId} (h : v.Captures scope) (hpart : Part v x) :
    x.Captures scope := by
  obtain ⟨identity, f, hf, hscope⟩ := h
  exact ⟨identity, f, hf.trans hpart, hscope⟩

theorem Holds.of_part {v x : Value} {identity : Identity} (h : v.Holds identity)
    (hpart : Part v x) : x.Holds identity := by
  obtain ⟨u, hu, hidentity⟩ := h
  exact ⟨u, hu.trans hpart, hidentity⟩

end Value

namespace World

/-- A scope can be reached from some scopes: through the scope around one that can be reached, and
through the functions that are bound in it, also inside of other values. -/
inductive Reaches (w : World) (roots : ScopeId → Prop) : ScopeId → Prop where
  | root {scope : ScopeId} (h : roots scope) : Reaches w roots scope
  | around {scope other : ScopeId} (h : Reaches w roots scope) (link : w.outer? scope = some other) :
      Reaches w roots other
  | captured {scope other : ScopeId} {name : String} {v : Value} (h : Reaches w roots scope)
      (bound : w.binding? name scope = some v) (captures : v.Captures other) :
      Reaches w roots other

/-- What contains the roots and all that one comes to from it contains everything that can be
reached. -/
theorem Reaches.invariant {w : World} {roots P : ScopeId → Prop} {scope : ScopeId}
    (h : w.Reaches roots scope) (root : ∀ s, roots s → P s)
    (around : ∀ s, P s → ∀ other, w.outer? s = some other → P other)
    (captured : ∀ s, P s → ∀ name v, w.binding? name s = some v → ∀ other, v.Captures other → P other) :
    P scope := by
  induction h with
  | root h => exact root _ h
  | around _ link ih => exact around _ ih _ link
  | captured _ bound captures ih => exact captured _ ih _ _ bound _ captures

/-- Nothing but the roots can be reached when there are no other scopes around them and no functions are
bound in them. -/
theorem Reaches.isRoot {w : World} {roots : ScopeId → Prop} {scope : ScopeId}
    (h : w.Reaches roots scope) (alone : ∀ s, roots s → w.outer? s = none)
    (bare : ∀ s, roots s → ∀ name v, w.binding? name s = some v → ∀ other, ¬ v.Captures other) :
    roots scope := by
  refine h.invariant (fun _ hs => hs) (fun s hs other link => ?_) fun s hs name v bound other hother =>
    absurd hother (bare s hs name v bound other)
  rw [alone s hs] at link
  cases link

end World

end Monkey
