import Monkey.Proofs.Evaluation.Correspondence
import Monkey.Proofs.Evaluation.Lasting

/-!
# Scopes and their history

Scopes are opened one after another, each inside one that exists already, and names are bound in them.
What a name means follows from that history alone: it is the value that the name was bound to last in
the nearest scope in which it was ever bound. Evaluation does nothing else to scopes, and what each of
its steps does can be told from the step.
-/

namespace Monkey

/-- Something that is done to the scopes. -/
inductive Event where
  /-- A scope is opened, inside another one if one is given. -/
  | opened (around : Option ScopeId)
  /-- A name is bound in a scope. -/
  | bound (scope : ScopeId) (name : String) (value : Value)

/-- What has been done to the scopes, the latest first. -/
abbrev Log := List Event

namespace Log

/-- How many scopes have been opened. They are numbered in this order. -/
def scopes : Log → Nat
  | [] => 0
  | .opened _ :: log => scopes log + 1
  | .bound _ _ _ :: log => scopes log

/-- The scope that a scope was opened in, if it was opened in one. -/
def outer? (scope : ScopeId) : Log → Option ScopeId
  | [] => none
  | .opened around :: log => if scope = scopes log then around else outer? scope log
  | .bound _ _ _ :: log => outer? scope log

/-- The value that a name was bound to last in a scope, if it was ever bound there. -/
def latest? (name : String) (scope : ScopeId) : Log → Option Value
  | [] => none
  | .opened _ :: log => latest? name scope log
  | .bound other x value :: log =>
    if scope = other ∧ name = x then some value else latest? name scope log

theorem scopes_append (later log : Log) : scopes log ≤ scopes (later ++ log) := by
  induction later with
  | nil => exact Nat.le_refl _
  | cons event later ih =>
    cases event with
    | opened around => exact Nat.le_succ_of_le ih
    | bound scope name value => exact ih

/-- What is done later does not change where a scope was opened. -/
theorem outer?_append (later : Log) {log : Log} {scope : ScopeId} (h : scope < scopes log) :
    outer? scope (later ++ log) = outer? scope log := by
  induction later with
  | nil => rfl
  | cons event later ih =>
    cases event with
    | opened around =>
      have hne : scope ≠ scopes (later ++ log) :=
        Nat.ne_of_lt (Nat.lt_of_lt_of_le h (scopes_append later log))
      rw [List.cons_append, outer?, if_neg hne, ih]
    | bound scope name value => exact ih

/-- A name has no value in a scope in which it was never bound. -/
theorem latest?_eq_none_iff {log : Log} {name : String} {scope : ScopeId} :
    latest? name scope log = none ↔ ∀ value, .bound scope name value ∉ log := by
  induction log with
  | nil => simp [latest?]
  | cons event log ih =>
    cases event with
    | opened around => simp [latest?, ih]
    | bound other x old =>
      rw [latest?]
      by_cases hsame : scope = other ∧ name = x
      · rw [if_pos hsame]
        obtain ⟨rfl, rfl⟩ := hsame
        simp only [reduceCtorEq, false_iff, not_forall, not_not]
        exact ⟨old, List.mem_cons_self⟩
      · rw [if_neg hsame, ih]
        refine forall_congr' fun value => ?_
        rw [List.mem_cons, not_or]
        refine ⟨fun h => ⟨?_, h⟩, fun h => h.2⟩
        rintro ⟨⟩
        exact hsame ⟨rfl, rfl⟩

/-- Events come after the last binding of a name in a scope. -/
def Since (name : String) (scope : ScopeId) (value : Value) (log : Log) : Prop :=
  ∃ later earlier, log = later ++ .bound scope name value :: earlier ∧
    ∀ other, .bound scope name other ∉ later

/-- Any other event comes after the last binding if those before it do. -/
theorem since_cons {event : Event} {log : Log} {name : String} {scope : ScopeId} {value : Value}
    (h : ∀ other, .bound scope name other ≠ event) :
    Since name scope value (event :: log) ↔ Since name scope value log := by
  constructor
  · rintro ⟨later, earlier, heq, hlater⟩
    cases later with
    | nil =>
      cases heq
      exact absurd rfl (h value)
    | cons other later =>
      cases heq
      exact ⟨later, earlier, rfl, fun u hu => hlater u (List.mem_cons_of_mem _ hu)⟩
  · rintro ⟨later, earlier, rfl, hlater⟩
    refine ⟨event :: later, earlier, rfl, fun other hother => ?_⟩
    rcases List.mem_cons.1 hother with heq | hother
    · exact h other heq
    · exact hlater other hother

/-- The value of a name in a scope is that of the last binding. -/
theorem latest?_eq_some_iff {log : Log} {name : String} {scope : ScopeId} {value : Value} :
    latest? name scope log = some value ↔ Since name scope value log := by
  induction log with
  | nil => simp [latest?, Since]
  | cons event log ih =>
    cases event with
    | opened around => rw [latest?, ih, since_cons (by simp)]
    | bound other x old =>
      rw [latest?]
      by_cases hsame : scope = other ∧ name = x
      · obtain ⟨rfl, rfl⟩ := hsame
        rw [if_pos ⟨rfl, rfl⟩]
        constructor
        · rintro ⟨⟩
          exact ⟨[], log, rfl, by simp⟩
        · rintro ⟨later, earlier, heq, hlater⟩
          cases later with
          | nil =>
            cases heq
            rfl
          | cons event later =>
            cases heq
            exact absurd List.mem_cons_self (hlater old)
      · rw [if_neg hsame, ih, since_cons]
        rintro u ⟨⟩
        exact hsame ⟨rfl, rfl⟩

end Log

/-- If the value is a function, it was made in a scope that exists when there are so many. -/
def Value.Rooted (n : Nat) : Value → Prop
  | function _ f => f.scope < n
  | _ => True

/-- All functions in a value were made in scopes that exist when there are so many. -/
def Value.Within (n : Nat) (v : Value) : Prop := v.Throughout (Rooted n)

theorem Value.Rooted.later {m n : Nat} {v : Value} (h : v.Rooted m) (hle : m ≤ n) : v.Rooted n := by
  cases v with
  | function identity f => exact Nat.lt_of_lt_of_le h hle
  | _ => trivial

theorem Value.Within.mono {m n : Nat} {v : Value} (h : v.Within m) (hle : m ≤ n) : v.Within n :=
  fun u hu => (h u hu).later hle

/-- The worlds that scopes are opened and names are bound in, with what has been done. -/
inductive Chronicle : World → Log → Prop where
  /-- There are no scopes. -/
  | start (sink : Sink) : Chronicle (.empty sink) []
  /-- A scope is opened, perhaps inside one that exists. -/
  | opens {w : World} {log : Log} (h : Chronicle w log) (around : Option ScopeId)
      (known : ∀ scope ∈ around, scope < w.scopes.size) :
      Chronicle (w.openScope around []) (.opened around :: log)
  /-- A name is bound in a scope that exists, to a value that knows only such scopes. -/
  | binds {w : World} {log : Log} (h : Chronicle w log) {scope : ScopeId}
      (known : scope < w.scopes.size) (name : String) {value : Value}
      (within : value.Within w.scopes.size) :
      Chronicle (w.define scope name value) (.bound scope name value :: log)
  /-- Something else changes. -/
  | idle {w w' : World} {log : Log} (h : Chronicle w log) (same : w'.scopes = w.scopes) :
      Chronicle w' log

/-- What a call does to the scopes before its body is run: one is opened, and in it each parameter is
bound to its argument in turn. -/
def Log.entered (scope around : ScopeId) (pairs : List (String × Value)) : Log :=
  (pairs.map fun p => .bound scope p.1 p.2).reverse ++ [.opened (some around)]

/-- A world is as its history says. -/
structure World.Records (w : World) (log : Log) : Prop where
  /-- The scopes have been opened one by one. -/
  size : w.scopes.size = Log.scopes log
  /-- Every scope was opened inside one that existed already. -/
  outer : ∀ scope outer, Log.outer? scope log = some outer → outer < scope
  /-- Names have been bound in scopes that exist only. -/
  known : ∀ scope name value, .bound scope name value ∈ log → scope < Log.scopes log
  /-- Around a scope is the one that it was opened in. -/
  link : ∀ scope < w.scopes.size, w.outer? scope = Log.outer? scope log
  /-- What a scope binds a name to is what it was bound to last. -/
  binding : ∀ scope < w.scopes.size, ∀ name, w.binding? name scope = Log.latest? name scope log
  /-- Functions that are bound know only scopes that exist. -/
  within : w.Keeps Value.Rooted

variable {w w' : World} {log : Log}

namespace World.Records

theorem start (sink : Sink) : (World.empty sink).Records [] where
  size := rfl
  outer := by rintro _ _ ⟨⟩
  known := by simp
  link scope h := absurd h (Nat.not_lt_zero scope)
  binding scope h := absurd h (Nat.not_lt_zero scope)
  within := World.binds_empty _ sink

theorem opens (h : w.Records log) (around : Option ScopeId)
    (known : ∀ scope ∈ around, scope < w.scopes.size) :
    (w.openScope around []).Records (.opened around :: log) := by
  have hsize : (w.openScope around []).scopes.size = w.scopes.size + 1 := by simp [openScope]
  -- A scope is either the new one, or it is as before and was opened in an old one.
  have hcases {scope : ScopeId} (hscope : scope < (w.openScope around []).scopes.size) :
      scope = w.nextScope ∧ Log.outer? scope (.opened around :: log) = around ∨
        scope < w.scopes.size ∧
          Log.outer? scope (.opened around :: log) = Log.outer? scope log := by
    rw [hsize] at hscope
    rw [Log.outer?, ← h.size]
    by_cases hnew : scope = w.scopes.size
    · exact .inl ⟨hnew, if_pos hnew⟩
    · exact .inr ⟨Nat.lt_of_le_of_ne (Nat.le_of_lt_succ hscope) hnew, if_neg hnew⟩
  refine ⟨?_, ?_, ?_, ?_, ?_, ?_⟩
  · rw [hsize, Log.scopes, h.size]
  · intro scope outer houter
    rw [Log.outer?] at houter
    split at houter
    · next hnew =>
      rw [hnew, ← h.size]
      exact known outer houter
    · exact h.outer scope outer houter
  · intro scope name value hmem
    rcases List.mem_cons.1 hmem with heq | hmem
    · cases heq
    · exact Nat.lt_succ_of_lt (h.known scope name value hmem)
  · intro scope hscope
    rcases hcases hscope with ⟨rfl, houter⟩ | ⟨hscope, houter⟩
    · rw [houter, w.outer?_openScope_new around []]
    · rw [houter, w.outer?_openScope_old around [] hscope, h.link scope hscope]
  · intro scope hscope name
    rw [Log.latest?]
    rcases hcases hscope with ⟨rfl, -⟩ | ⟨hscope, -⟩
    · rw [binding?_openScope_new]
      refine (Log.latest?_eq_none_iff.2 fun value hvalue => ?_).symm
      exact absurd (h.known _ name value hvalue) (h.size ▸ Nat.lt_irrefl _)
    · rw [w.binding?_openScope_old around [] name hscope, h.binding scope hscope name]
  · unfold World.Keeps
    rw [hsize]
    have hbinds : w.Binds (Value.Within (w.scopes.size + 1)) := fun s hs b hb =>
      Value.Within.mono (h.within s hs b hb) (Nat.le_succ _)
    exact hbinds.openScope around (by simp)

theorem binds (h : w.Records log) {scope : ScopeId} (known : scope < w.scopes.size) (name : String)
    {value : Value} (within : value.Within w.scopes.size) :
    (w.define scope name value).Records (.bound scope name value :: log) := by
  have hsize : (w.define scope name value).scopes.size = w.scopes.size := by simp [define]
  refine ⟨?_, h.outer, ?_, ?_, ?_, ?_⟩
  · rw [hsize, Log.scopes, h.size]
  · intro other x old hmem
    rcases List.mem_cons.1 hmem with heq | hmem
    · cases heq
      exact h.size ▸ known
    · exact h.known other x old hmem
  · intro other hother
    rw [hsize] at hother
    rw [w.outer?_define, h.link other hother]
    rfl
  · intro other hother x
    rw [hsize] at hother
    rw [w.binding?_define known, Log.latest?, h.binding other hother]
  · unfold World.Keeps
    rw [hsize]
    exact h.within.define scope name within

theorem idle (h : w.Records log) (same : w'.scopes = w.scopes) : w'.Records log := by
  refine ⟨same ▸ h.size, h.outer, h.known, fun scope hscope => ?_, fun scope hscope name => ?_, ?_⟩
  · rw [same] at hscope
    rw [outer?, same]
    exact h.link scope hscope
  · rw [same] at hscope
    rw [binding?, same]
    exact h.binding scope hscope name
  · unfold World.Keeps
    rw [same]
    exact World.Binds.congr h.within same

end World.Records

/-- A name is bound in a new scope as if it had been bound there when the scope was opened. -/
theorem World.define_openScope (w : World) (around : Option ScopeId)
    (pairs : List (String × Value)) (name : String) (value : Value) :
    (w.openScope around pairs).define w.nextScope name value =
      w.openScope around (pairs ++ [(name, value)]) := by
  have hnew : (w.scopes.push ⟨Bindings.bindAll [] pairs, around⟩).modify w.scopes.size
      (·.define name value) = w.scopes.push ⟨Bindings.bindAll [] (pairs ++ [(name, value)]), around⟩ := by
    apply Array.ext_getElem?
    intro i
    rw [Array.getElem?_modify, Array.getElem?_push, Array.getElem?_push, Bindings.bindAll,
      Bindings.bindAll, List.foldl_append]
    by_cases hi : i = w.scopes.size
    · simp [hi, Scope.define]
    · simp [hi, Ne.symm hi]
  simp only [openScope, define, nextScope, hnew]

/-- A call opens a scope and binds the parameters in it. -/
theorem Chronicle.entered (h : Chronicle w log) {around : ScopeId} (known : around < w.scopes.size)
    {pairs : List (String × Value)} (within : ∀ p ∈ pairs, p.2.Within w.scopes.size) :
    Chronicle (w.openScope (some around) pairs)
      (Log.entered w.nextScope around pairs ++ log) := by
  induction pairs using List.reverseRecOn with
  | nil =>
    refine h.opens (some around) ?_
    rintro _ ⟨⟩
    exact known
  | append_singleton pairs p ih =>
    rw [List.forall_mem_append, List.forall_mem_singleton] at within
    have hsize : (w.openScope (some around) pairs).scopes.size = w.scopes.size + 1 := by
      simp [World.openScope]
    have hnew : w.nextScope < (w.openScope (some around) pairs).scopes.size :=
      hsize ▸ Nat.lt_succ_self _
    have hvalue : p.2.Within (w.openScope (some around) pairs).scopes.size :=
      within.2.mono (hsize ▸ Nat.le_succ _)
    have hbinds := (ih within.1).binds hnew p.1 hvalue
    rw [w.define_openScope] at hbinds
    simpa [Log.entered] using hbinds

/-- The history of a world tells all about its scopes. -/
theorem Chronicle.records (h : Chronicle w log) : w.Records log := by
  induction h with
  | start sink => exact .start sink
  | opens _ around known ih => exact ih.opens around known
  | binds _ known name within ih => exact ih.binds known name within
  | idle _ same ih => exact ih.idle same

end Monkey
