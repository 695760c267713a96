import Monkey.Eval.Basic
import Monkey.Proofs.Evaluation.Search

/-!
# Hereditary properties

A property of values is hereditary when numbers, truth values and `null` have it, when an array has it
exactly if all its elements do, when the entries of a hash inherit it, and when joining texts keeps it.
Operators, indexing and builtin functions make values with such a property of values that have it, and
what is bound keeps it when names are bound and scopes are opened. So the invariants of evaluation
only have to say which values they are about.
-/

namespace Monkey

/-- Whatever can be got from values with the property, without evaluating any syntax, has it. -/
structure Value.Hereditary (P : Value → Prop) : Prop where
  /-- Numbers have the property. -/
  integer : ∀ n, P (.integer n)
  /-- Truth values have it. -/
  boolean : ∀ b, P (.boolean b)
  /-- So has `null`. -/
  null : P .null
  /-- So have the builtin functions. -/
  builtin : ∀ b, P (.builtin b)
  /-- Texts have it that are joined from texts with it. -/
  joined : ∀ s t, P (.string s) → P (.string t) → P (.string (s ++ t))
  /-- Arrays have it whose elements have it, and no others. -/
  array : ∀ identity elements, P (.array identity elements) ↔ ∀ v ∈ elements, P v
  /-- The values in a hash have it if the hash does. -/
  entry : ∀ identity entries, P (.hash identity entries) → ∀ e ∈ entries, P e.2.2

variable {P : Value → Prop}

namespace Value.Hereditary

variable (hP : Hereditary P)

include hP

/-- An operator before its operand makes numbers and truth values. -/
theorem unary {operator : Token} {right v : Value} (h : Value.unary operator right = .ok v) : P v := by
  unfold Value.unary at h
  split at h <;> cases h
  · exact hP.boolean _
  · exact hP.integer _

/-- An operator between integers makes numbers and truth values. -/
theorem arithmetic {operator : Token} {m n : Int64} {v : Value}
    (h : Value.arithmetic operator m n = .ok v) : P v := by
  unfold Value.arithmetic at h
  repeat' split at h
  all_goals cases h
  all_goals first
    | exact hP.integer _
    | exact hP.boolean _

/-- An operator between texts joins them. -/
theorem joining {operator : Token} {s t : String} {v : Value} (hs : P (.string s))
    (ht : P (.string t)) (h : Value.joining operator s t = .ok v) : P v := by
  unfold Value.joining at h
  split at h <;> cases h
  exact hP.joined s t hs ht

/-- A comparison makes truth values. -/
theorem comparison {operator : Token} {left right v : Value}
    (h : Value.comparison operator left right = .ok v) : P v := by
  unfold Value.comparison at h
  repeat' split at h
  all_goals cases h
  all_goals exact hP.boolean _

/-- What an operator makes of operands with the property has it. -/
theorem binary {operator : Token} {left right v : Value} (hl : P left) (hr : P right)
    (h : Value.binary left operator right = .ok v) : P v := by
  unfold Value.binary at h
  split at h
  · exact hP.arithmetic h
  · exact hP.joining hl hr h
  · exact hP.comparison h

theorem getD {o : Option Value} (h : ∀ v, o = some v → P v) : P (o.getD .null) := by
  cases o with
  | none => exact hP.null
  | some v => exact h v rfl

end Value.Hereditary

/-- What is found in a table is an entry of it. -/
theorem Table.mem_of_find? {α : Type} {key : HashKey} {entry : α} {t : Table α}
    (h : Table.find? key t = some entry) : ∃ k, (k, entry) ∈ t := by
  induction t with
  | nil => cases h
  | cons x t ih =>
    obtain ⟨k, other⟩ := x
    rw [find?] at h
    split at h
    · cases h
      exact ⟨k, List.mem_cons_self⟩
    · obtain ⟨l, hl⟩ := ih h
      exact ⟨l, List.mem_cons_of_mem _ hl⟩

/-- What is found in a collection with the property has it. -/
theorem Value.Hereditary.index (hP : Hereditary P) {collection position v : Value}
    (hc : P collection) (h : Value.index collection position = .ok v) : P v := by
  unfold Value.index at h
  split at h
  · next identity elements i =>
    cases h
    unfold elementAt
    split
    · exact hP.getD fun u hu => (hP.array _ _).1 hc u (List.mem_of_getElem? hu)
    · exact hP.null
  · next identity entries position =>
    split at h
    · cases h
      refine hP.getD fun u hu => ?_
      obtain ⟨e, he, rfl⟩ := Option.map_eq_some_iff.1 hu
      obtain ⟨k, hk⟩ := Table.mem_of_find? he
      exact hP.entry _ _ hc _ hk
    · cases h
  · cases h

namespace Builtin

/-- Only arrays have elements. -/
theorem eq_array_of_elements {b : Builtin} {v : Value} {vs : List Value}
    (h : elements b v = .ok vs) : ∃ identity, v = .array identity vs := by
  unfold elements at h
  split at h
  · cases h
    exact ⟨_, rfl⟩
  · cases h

theorem mem_of_only {arguments : List Value} {v : Value} (h : only arguments = .ok v) :
    v ∈ arguments := by
  unfold only at h
  split at h
  · cases h
    exact List.mem_cons_self
  · cases h

/-- A result of two steps comes from results of both. -/
theorem exists_of_bind_eq_ok {α β : Type} {x : Except Fault α} {f : α → Except Fault β} {b : β}
    (h : x >>= f = .ok b) : ∃ a, x = .ok a ∧ f a = .ok b := by
  cases x with
  | ok a => exact ⟨a, rfl, h⟩
  | error fault => cases h

end Builtin

namespace Value.Hereditary

open Builtin

variable (hP : Hereditary P) {arguments : List Value} (ha : ∀ v ∈ arguments, P v)

include hP

theorem elements {b : Builtin} {v : Value} {vs : List Value} (hv : P v)
    (h : b.elements v = .ok vs) : ∀ u ∈ vs, P u := by
  obtain ⟨identity, rfl⟩ := eq_array_of_elements h
  exact (hP.array identity vs).1 hv

/-- A length is a number. -/
theorem length {u v : Value} (h : Builtin.length u = .ok v) : P v := by
  unfold Builtin.length at h
  split at h <;> cases h
  all_goals exact hP.integer _

include ha

/-- The elements of an array that is the only argument inherit the property. -/
theorem only_elements {b : Builtin} {vs : List Value}
    (h : only arguments >>= b.elements = .ok vs) : ∀ u ∈ vs, P u := by
  obtain ⟨v, hv, hvs⟩ := exists_of_bind_eq_ok h
  exact hP.elements (ha v (mem_of_only hv)) hvs

/-- So do the elements of the array that `push` makes. -/
theorem pushed {vs : List Value} (h : Builtin.pushed arguments = .ok vs) : ∀ u ∈ vs, P u := by
  unfold Builtin.pushed at h
  split at h
  · next array value =>
    obtain ⟨us, hus, hvs⟩ := exists_of_bind_eq_ok h
    cases hvs
    rw [List.forall_mem_cons, List.forall_mem_singleton] at ha
    rw [List.forall_mem_append, List.forall_mem_singleton]
    exact ⟨hP.elements ha.1 hus, ha.2⟩
  · cases h

omit ha in
/-- Writing lines gives `null` or a fault. -/
theorem writeLines (arguments : List Value) {w : World} {v : Value}
    (h : (Builtin.writeLines arguments w).1 = .ok v) : P v := by
  induction arguments generalizing w with
  | nil =>
    cases h
    exact hP.null
  | cons u us ih =>
    rw [Builtin.writeLines] at h
    split at h
    · cases h
    · exact ih h

/-- A builtin function makes values with the property of values with the property, or faults. -/
theorem call (b : Builtin) {w : World} {v : Value} (h : (b.call arguments w).1 = .ok v) : P v := by
  cases b with
  | len =>
    obtain ⟨u, -, hlength⟩ := exists_of_bind_eq_ok h
    exact hP.length hlength
  | first =>
    obtain ⟨u, hu, h⟩ := exists_of_bind_eq_ok h
    obtain ⟨us, hus, h⟩ := exists_of_bind_eq_ok h
    cases h
    exact hP.getD fun x hx => hP.elements (ha u (mem_of_only hu)) hus x (List.mem_of_head? hx)
  | last =>
    obtain ⟨u, hu, h⟩ := exists_of_bind_eq_ok h
    obtain ⟨us, hus, h⟩ := exists_of_bind_eq_ok h
    cases h
    exact hP.getD fun x hx => hP.elements (ha u (mem_of_only hu)) hus x (List.mem_of_getLast? hx)
  | rest =>
    rw [Builtin.call] at h
    split at h
    · cases h
    · cases h
      exact hP.null
    · next u us hus =>
      cases h
      exact (hP.array _ _).2 fun x hx => hP.only_elements ha hus x (List.mem_cons_of_mem _ hx)
  | push =>
    rw [Builtin.call] at h
    split at h
    · cases h
    · next us hus =>
      cases h
      exact (hP.array _ _).2 (hP.pushed ha hus)
  | puts => exact hP.writeLines arguments h

end Value.Hereditary

/-- Writing lines changes nothing but the sink. -/
theorem Builtin.scopes_writeLines (arguments : List Value) {w : World} :
    (writeLines arguments w).2.scopes = w.scopes := by
  induction arguments generalizing w with
  | nil => rfl
  | cons v vs ih =>
    rw [writeLines]
    split
    · rfl
    · exact ih

/-- A builtin function binds nothing. -/
theorem Builtin.scopes_call (b : Builtin) (arguments : List Value) (w : World) :
    (b.call arguments w).2.scopes = w.scopes := by
  cases b with
  | rest =>
    rw [call]
    split <;> rfl
  | push =>
    rw [call]
    split <;> rfl
  | puts => exact scopes_writeLines arguments
  | _ => rfl

namespace Bindings

/-- Bindings keep a property when a name is bound to a value with it. -/
theorem forall_bind {name : String} {value : Value} {bindings : Bindings}
    (h : ∀ b ∈ bindings, P b.2) (hv : P value) : ∀ b ∈ bindings.bind name value, P b.2 := by
  induction bindings with
  | nil => exact List.forall_mem_singleton.2 hv
  | cons b bindings ih =>
    obtain ⟨other, old⟩ := b
    rw [List.forall_mem_cons] at h
    rw [bind]
    split
    · exact List.forall_mem_cons.2 ⟨hv, h.2⟩
    · exact List.forall_mem_cons.2 ⟨h.1, ih h.2⟩

/-- Bindings keep a property when names are bound to values with it. -/
theorem forall_bindAll {bindings : Bindings} {pairs : List (String × Value)}
    (h : ∀ b ∈ bindings, P b.2) (hp : ∀ p ∈ pairs, P p.2) : ∀ b ∈ bindings.bindAll pairs, P b.2 := by
  induction pairs generalizing bindings with
  | nil => exact h
  | cons p pairs ih =>
    rw [List.forall_mem_cons] at hp
    exact ih (forall_bind h hp.1) hp.2

/-- A bound value is one of those that the bindings hold. -/
theorem mem_of_lookup {name : String} {value : Value} {bindings : Bindings}
    (h : bindings.lookup name = some value) : ∃ x, (x, value) ∈ bindings := by
  induction bindings with
  | nil => cases h
  | cons b bindings ih =>
    obtain ⟨other, old⟩ := b
    rw [List.lookup_cons] at h
    split at h
    · cases h
      exact ⟨other, List.mem_cons_self⟩
    · obtain ⟨x, hx⟩ := ih h
      exact ⟨x, List.mem_cons_of_mem _ hx⟩

end Bindings

namespace World

/-- Everything that is bound has the property. -/
def Binds (P : Value → Prop) (w : World) : Prop := ∀ s ∈ w.scopes, ∀ b ∈ s.bindings, P b.2

variable {w w' : World}

/-- Only the scopes decide what is bound. -/
theorem Binds.congr (h : w.Binds P) (hs : w'.scopes = w.scopes) : w'.Binds P := by
  unfold Binds
  rwa [hs]

theorem binds_empty (P : Value → Prop) (sink : Sink) : (empty sink).Binds P := by
  intro s hs
  simp [empty] at hs

/-- The value of a name has the property. -/
theorem Binds.lookup (h : w.Binds P) {scope : ScopeId} {name : String} {value : Value}
    (hv : w.lookup scope name = some value) : P value := by
  obtain ⟨other, -, hother⟩ :=
    (lookup_eq_some_iff.1 hv).exists_binding trivial fun _ _ _ _ => trivial
  obtain ⟨s, hs, hlookup⟩ := Option.bind_eq_some_iff.1 hother
  obtain ⟨x, hx⟩ := Bindings.mem_of_lookup hlookup
  exact h s (Array.mem_of_getElem? hs) _ hx

/-- A name can be bound to a value with the property. -/
theorem Binds.define (h : w.Binds P) (scope : ScopeId) (name : String) {value : Value}
    (hv : P value) : (w.define scope name value).Binds P := by
  intro s hs
  obtain ⟨i, hi⟩ := Array.getElem?_of_mem hs
  simp only [World.define, Array.getElem?_modify] at hi
  split at hi
  · obtain ⟨old, hold, rfl⟩ := Option.map_eq_some_iff.1 hi
    exact Bindings.forall_bind (h old (Array.mem_of_getElem? hold)) hv
  · exact h s (Array.mem_of_getElem? hi)

/-- A scope can be opened that binds values with the property. -/
theorem Binds.openScope (h : w.Binds P) (around : Option ScopeId) {pairs : List (String × Value)}
    (hp : ∀ p ∈ pairs, P p.2) : (w.openScope around pairs).Binds P := by
  intro s hs
  rcases Array.mem_push.1 hs with hs | rfl
  · exact h s hs
  · exact Bindings.forall_bindAll (by simp) hp

theorem binds_initial (P : Value → Prop) (sink : Sink) : (initial sink).Binds P :=
  (binds_empty P sink).openScope none (by simp)

end World

end Monkey
