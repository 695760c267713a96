import Monkey.World.Basic

/-!
# Looking for names

A name is looked for from a scope outwards, and nothing in the scopes themselves says that this ends. When
it does, it has gone through finitely many scopes, and what it finds follows from what each of them binds.
When the scopes from a given one outwards come to an end, every search from there does, and they can be
counted.
-/

namespace Monkey.World

variable {w w' : World} {name : String} {scope outer : ScopeId} {value : Value} {result : Option Value}

theorem search_eq (w : World) (scope : ScopeId) (name : String) :
    w.search scope name =
      match w.binding? name scope with
      | some value => some (some value)
      | none =>
        match w.outer? scope with
        | some outer => w.search outer name
        | none => some none := Scopes.search.eq_1 w.scopes name scope

theorem count_eq (w : World) (scope : ScopeId) :
    w.count scope =
      match w.outer? scope with
      | some outer => (w.count outer).map (· + 1)
      | none => some 1 := by
  rw [count, Scopes.count, outer?]
  cases Scopes.outer? w.scopes scope with
  | none => rfl
  | some outer => exact (Option.map_eq_bind ..).symm

/-- What a name is found to mean, scope by scope. -/
inductive Finds (w : World) (name : String) : ScopeId → Option Value → Prop where
  /-- The scope binds it. -/
  | here {scope : ScopeId} {value : Value} (bound : w.binding? name scope = some value) :
      Finds w name scope (some value)
  /-- It is found, or not, from the scope around that one. -/
  | further {scope outer : ScopeId} {result : Option Value} (unbound : w.binding? name scope = none)
      (around : w.outer? scope = some outer) (rest : Finds w name outer result) :
      Finds w name scope result
  /-- There is no scope left. -/
  | nowhere {scope : ScopeId} (unbound : w.binding? name scope = none)
      (last : w.outer? scope = none) : Finds w name scope none

/-- What a search comes to, it has found in finitely many steps. -/
theorem search_eq_some_iff : w.search scope name = some result ↔ w.Finds name scope result := by
  constructor
  · intro h
    -- The search is the least solution of its equation, so this is by induction on its steps.
    refine Scopes.search.partial_correctness w.scopes name (fun scope result => w.Finds name scope result)
      (fun search ih scope result h => ?_) scope result h
    split at h
    · next value bound =>
      cases h
      exact .here bound
    · next unbound =>
      split at h
      · next outer around => exact .further unbound around (ih outer result h)
      · next last =>
        cases h
        exact .nowhere unbound last
  · intro h
    induction h with
    | here bound => rw [search_eq, bound]
    | further unbound around _ ih =>
      rw [search_eq, unbound, around]
      exact ih
    | nowhere unbound last => rw [search_eq, unbound, last]

theorem lookup_eq_some_iff : w.lookup scope name = some value ↔ w.Finds name scope (some value) := by
  rw [lookup, Option.join_eq_some_iff, search_eq_some_iff]

/-- Where no scope binds the name and there is always one further out, a search has no end. -/
theorem search_eq_none {P : ScopeId → Prop} (hscope : P scope)
    (unbound : ∀ s, P s → w.binding? name s = none)
    (endless : ∀ s, P s → ∃ outer, w.outer? s = some outer ∧ P outer) : w.search scope name = none := by
  have hnever {s : ScopeId} {result : Option Value} (h : w.Finds name s result) : ¬ P s := by
    induction h with
    | here bound =>
      intro hs
      cases (unbound _ hs).symm.trans bound
    | further _ around _ ih =>
      intro hs
      obtain ⟨outer, houter, hround⟩ := endless _ hs
      cases houter.symm.trans around
      exact ih hround
    | nowhere _ last =>
      intro hs
      obtain ⟨outer, houter, -⟩ := endless _ hs
      cases houter.symm.trans last
  exact Option.eq_none_iff_forall_ne_some.2 fun result h => hnever (search_eq_some_iff.1 h) hscope

theorem lookup_eq_none (h : w.Finds name scope none) : w.lookup scope name = none := by
  rw [lookup, search_eq_some_iff.2 h, Option.join_some]

/-- A name has its value from a scope that one comes to from scope to scope. -/
theorem Finds.exists_binding {P : ScopeId → Prop} (h : w.Finds name scope (some value)) (hscope : P scope)
    (around : ∀ s outer, P s → w.outer? s = some outer → P outer) :
    ∃ s, P s ∧ w.binding? name s = some value := by
  generalize hresult : some value = result at h
  induction h with
  | here bound =>
    cases hresult
    exact ⟨_, hscope, bound⟩
  | further _ hround _ ih => exact ih (around _ _ hscope hround) hresult
  | nowhere _ _ => cases hresult

/-- Two searches go the same way when the scopes on it are alike. -/
theorem Finds.transfer {R : ScopeId → ScopeId → Prop} {S : Value → Value → Prop}
    (binding : ∀ a b, R a b → Option.Rel S (w.binding? name a) (w'.binding? name b))
    (outer : ∀ a b, R a b → Option.Rel R (w.outer? a) (w'.outer? b)) {a b : ScopeId}
    (h : w.Finds name a result) (hab : R a b) :
    ∃ result', w'.Finds name b result' ∧ Option.Rel S result result' := by
  induction h generalizing b with
  | @here a value bound =>
    have hbinding := binding a b hab
    rw [bound] at hbinding
    generalize hb : w'.binding? name b = o at hbinding
    cases hbinding with
    | some hvalue => exact ⟨_, .here hb, .some hvalue⟩
  | @further a outside _ unbound around _ ih =>
    have hbinding := binding a b hab
    have houter := outer a b hab
    rw [unbound] at hbinding
    rw [around] at houter
    generalize hb : w'.binding? name b = o at hbinding
    generalize ho : w'.outer? b = o' at houter
    cases hbinding
    cases houter with
    | some hout =>
      obtain ⟨result', hfinds, hresult⟩ := ih hout
      exact ⟨result', .further hb ho hfinds, hresult⟩
  | @nowhere a unbound last =>
    have hbinding := binding a b hab
    have houter := outer a b hab
    rw [unbound] at hbinding
    rw [last] at houter
    generalize hb : w'.binding? name b = o at hbinding
    generalize ho : w'.outer? b = o' at houter
    cases hbinding
    cases houter
    exact ⟨none, .nowhere hb ho, .none⟩

/-- The first result among members of a list depends on what is found for its members only. -/
theorem findSome?_congr {α β : Type} {f g : α → Option β} {xs : List α} (h : ∀ x ∈ xs, f x = g x) :
    xs.findSome? f = xs.findSome? g := by
  induction xs with
  | nil => rfl
  | cons x xs ih =>
    rw [List.forall_mem_cons] at h
    rw [List.findSome?_cons, List.findSome?_cons, h.1, ih h.2]

/-- The scopes from a given one outwards, up to the last. -/
inductive Chain (w : World) : ScopeId → List ScopeId → Prop where
  /-- There is no scope around it. -/
  | last {scope : ScopeId} (h : w.outer? scope = none) : Chain w scope [scope]
  /-- There is one around it. -/
  | cons {scope outer : ScopeId} {chain : List ScopeId} (h : w.outer? scope = some outer)
      (rest : Chain w outer chain) : Chain w scope (scope :: chain)

namespace Chain

variable {chain : List ScopeId}

theorem unique (h : w.Chain scope chain) {other : List ScopeId} (h' : w.Chain scope other) :
    chain = other := by
  induction h generalizing other with
  | last hlast =>
    cases h' with
    | last _ => rfl
    | cons hcons _ => cases hlast.symm.trans hcons
  | cons hcons _ ih =>
    cases h' with
    | last hlast => cases hlast.symm.trans hcons
    | cons hother hrest =>
      cases hcons.symm.trans hother
      rw [ih hrest]

/-- Where the scopes come to an end, every search does. -/
theorem search (h : w.Chain scope chain) (name : String) :
    w.search scope name = some (chain.findSome? (w.binding? name)) := by
  induction h with
  | last h =>
    rw [search_eq, h, List.findSome?_cons]
    cases w.binding? name _ <;> rfl
  | cons h _ ih =>
    rw [search_eq, h, List.findSome?_cons]
    cases w.binding? name _ with
    | none => exact ih
    | some value => rfl

theorem lookup (h : w.Chain scope chain) (name : String) :
    w.lookup scope name = chain.findSome? (w.binding? name) := by
  rw [World.lookup, h.search, Option.join_some]

/-- Where the scopes come to an end, they can be counted. -/
theorem count (h : w.Chain scope chain) : w.count scope = some chain.length := by
  induction h with
  | last h =>
    rw [count_eq, h]
    rfl
  | cons h _ ih =>
    rw [count_eq, h]
    exact congrArg (Option.map (· + 1)) ih

theorem depth (h : w.Chain scope chain) : w.depth scope = chain.length := by
  rw [World.depth, h.count, Option.getD_some]

/-- The scopes are the same in another world in which the same scopes are around each of them. -/
theorem congr (h : w.Chain scope chain) (same : ∀ s ∈ chain, w'.outer? s = w.outer? s) :
    w'.Chain scope chain := by
  induction h with
  | last h => exact .last (by rw [same _ List.mem_cons_self, h])
  | cons h _ ih =>
    rw [List.forall_mem_cons] at same
    exact .cons (by rw [same.1, h]) (ih same.2)

end Chain

end Monkey.World
