import Monkey.Proofs.Evaluation.Hereditary

/-!
# Clean values

Signals are values, but they belong on their way outwards and nowhere else. A value is clean when no
signal is a part of it, and a world when everything that is bound in it is clean. This is hereditary, so
operators, indexing and builtin functions make clean values of clean ones, or faults.
-/

namespace Monkey

namespace Value

/-- No signal is a part of the value, at any depth, nor is the value one. -/
inductive Clean : Value → Prop where
  | integer (n : Int64) : Clean (.integer n)
  | boolean (b : Bool) : Clean (.boolean b)
  | string (text : String) : Clean (.string text)
  | null : Clean .null
  | array (identity : Identity) {elements : List Value} (h : ∀ v ∈ elements, Clean v) :
      Clean (.array identity elements)
  | hash (identity : Identity) {entries : Table (Value × Value)}
      (keys : ∀ e ∈ entries, Clean e.2.1) (values : ∀ e ∈ entries, Clean e.2.2) :
      Clean (.hash identity entries)
  | function (identity : Identity) (closure : Closure) : Clean (.function identity closure)
  | builtin (b : Builtin) : Clean (.builtin b)

/-- A value that the evaluation of something may give: a clean one, a fault, or a `return` with a
clean value. -/
inductive Passable : Value → Prop where
  | plain {v : Value} (h : v.Clean) : Passable v
  | fault (f : Fault) : Passable (.error f)
  | returned {v : Value} (h : v.Clean) : Passable (.returned v)

/-- A value that a call or a program may give: a clean one or a fault. -/
inductive Settled : Value → Prop where
  | plain {v : Value} (h : v.Clean) : Settled v
  | fault (f : Fault) : Settled (.error f)

/-- A clean value is no signal. -/
theorem Clean.isSignal {v : Value} (h : v.Clean) : v.isSignal = false := by cases h <;> rfl

/-- Whatever is passed on and is no signal is clean. -/
theorem Passable.clean {v : Value} (h : v.Passable) (hv : v.isSignal = false) : v.Clean := by
  cases h with
  | plain h => exact h
  | fault f => cases hv
  | returned h => cases hv

/-- What is delivered is settled. -/
theorem Passable.delivered {v : Value} (h : v.Passable) : v.delivered.Settled := by
  cases h with
  | plain h => cases h <;> exact .plain (by constructor <;> assumption)
  | fault f => exact .fault f
  | returned h => exact .plain h

theorem Settled.passable {v : Value} (h : v.Settled) : v.Passable := by
  cases h with
  | plain h => exact .plain h
  | fault f => exact .fault f

/-- What is settled is no `return`. -/
theorem Settled.ne_returned {v : Value} (h : v.Settled) (u : Value) : v ≠ .returned u := by
  rintro rfl
  cases h with
  | plain h => cases h

/-- A result is settled if it is a fault or a clean value. -/
theorem settled_ofResult {r : Except Fault Value} (h : ∀ v, r = .ok v → v.Clean) :
    (ofResult r).Settled := by
  cases r with
  | ok v => exact .plain (h v rfl)
  | error f => exact .fault f

/-- Whatever is got from clean values is clean. -/
theorem hereditary_clean : Hereditary Clean where
  integer := .integer
  boolean := .boolean
  null := .null
  builtin := .builtin
  joined s t _ _ := .string (s ++ t)
  array identity elements := by
    refine ⟨fun h => ?_, .array identity⟩
    cases h with
    | array _ helements => exact helements
  entry identity entries h := by
    cases h with
    | hash _ _ values => exact values

end Value

/-- The keys and values of a table are clean. -/
def Table.Clean (table : Table (Value × Value)) : Prop :=
  ∀ e ∈ table, e.2.1.Clean ∧ e.2.2.Clean

theorem Table.Clean.hash {table : Table (Value × Value)} (h : Table.Clean table)
    (identity : Identity) : (Value.hash identity table).Clean :=
  .hash identity (fun e he => (h e he).1) fun e he => (h e he).2

/-- A table stays clean when a clean entry is filed. -/
theorem Table.Clean.insert {table : Table (Value × Value)} (h : Table.Clean table) (key : HashKey)
    {k v : Value} (hk : k.Clean) (hv : v.Clean) : Table.Clean (Table.insert key (k, v) table) := by
  intro e he
  rcases Table.mem_insert_key he with rfl | he
  · exact ⟨hk, hv⟩
  · exact h e he

namespace World

/-- Everything that is bound is clean. -/
def Clean (w : World) : Prop := ∀ s ∈ w.scopes, ∀ b ∈ s.bindings, b.2.Clean

/-- What is said of all that is bound holds of a clean world. -/
theorem Clean.binds {w : World} (h : w.Clean) : w.Binds Value.Clean := h

end World

end Monkey
