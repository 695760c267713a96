import Mathlib.Data.List.Forall2
import Mathlib.Logic.Relator
import Monkey.Eval.Builtin
import Monkey.Eval.Operator
import Monkey.Proofs.Evaluation.Reachable

/-!
# Values under other names

A renaming tells which scopes of one world stand for which scopes of another, and the same of
identities. Values correspond under it when they are built alike and their scopes and identities
correspond. Nothing that a program can do with values tells corresponding ones apart, as long as no
two identities have one name: operators, indexing and output make the same of both.
-/

namespace Monkey

open Relator

/-- Which scopes and identities of one world stand for which of another. -/
structure Renaming where
  /-- A scope of the first world stands for one of the second. -/
  scopes : ScopeId → ScopeId → Prop
  /-- An identity of the first world stands for one of the second. -/
  identities : Identity → Identity → Prop

mutual

/-- Values that are built alike, with scopes and identities that stand for each other. -/
inductive Value.Renamed (ρ : Renaming) : Value → Value → Prop where
  | integer (n : Int64) : Value.Renamed ρ (.integer n) (.integer n)
  | boolean (b : Bool) : Value.Renamed ρ (.boolean b) (.boolean b)
  | string (text : String) : Value.Renamed ρ (.string text) (.string text)
  | null : Value.Renamed ρ .null .null
  | array {i j : Identity} {vs us : List Value} (identity : ρ.identities i j)
      (elements : List.Forall₂ (Value.Renamed ρ) vs us) : Value.Renamed ρ (.array i vs) (.array j us)
  | hash {i j : Identity} {es ds : Table (Value × Value)} (identity : ρ.identities i j)
      (entries : List.Forall₂ (Table.EntryRenamed ρ) es ds) :
      Value.Renamed ρ (.hash i es) (.hash j ds)
  | function {i j : Identity} {f : Closure} {scope : ScopeId} (identity : ρ.identities i j)
      (captured : ρ.scopes f.scope scope) :
      Value.Renamed ρ (.function i f) (.function j { f with scope := scope })
  | builtin (b : Builtin) : Value.Renamed ρ (.builtin b) (.builtin b)
  | returned {v u : Value} (value : Value.Renamed ρ v u) :
      Value.Renamed ρ (.returned v) (.returned u)
  | error (fault : Fault) : Value.Renamed ρ (.error fault) (.error fault)

/-- Entries under one key, with keys and values that correspond. -/
inductive Table.EntryRenamed (ρ : Renaming) :
    HashKey × Value × Value → HashKey × Value × Value → Prop where
  | mk (hashKey : HashKey) {k l v u : Value} (key : Value.Renamed ρ k l)
      (value : Value.Renamed ρ v u) : Table.EntryRenamed ρ (hashKey, k, v) (hashKey, l, u)

end

/-- Tables with entries that correspond. -/
abbrev Table.Renamed (ρ : Renaming) : Table (Value × Value) → Table (Value × Value) → Prop :=
  List.Forall₂ (Table.EntryRenamed ρ)

/-- Two results that agree: one fault, or results that correspond. -/
inductive Agree {α β : Type} (R : α → β → Prop) : Except Fault α → Except Fault β → Prop where
  | ok {a : α} {b : β} (h : R a b) : Agree R (.ok a) (.ok b)
  | error (fault : Fault) : Agree R (.error fault) (.error fault)

theorem Agree.bind {α β γ δ : Type} {R : α → β → Prop} {S : γ → δ → Prop} {x : Except Fault α}
    {y : Except Fault β} {f : α → Except Fault γ} {g : β → Except Fault δ} (h : Agree R x y)
    (hnext : ∀ a b, R a b → Agree S (f a) (g b)) : Agree S (x >>= f) (y >>= g) := by
  cases h with
  | ok h => exact hnext _ _ h
  | error fault => exact .error fault

variable {ρ σ : Renaming}

/-- Results that agree are values that correspond. -/
theorem Agree.ofResult {r r' : Except Fault Value} (h : Agree (Value.Renamed ρ) r r') :
    (Value.ofResult r).Renamed ρ (Value.ofResult r') := by
  cases h with
  | ok h => exact h
  | error fault => exact .error fault

/-- What holds of the members of a list can be used to relate it to another one. -/
theorem forall₂_of_mem {α β : Type} {R S : α → β → Prop} {xs : List α} {ys : List β}
    (h : List.Forall₂ R xs ys) (himp : ∀ x ∈ xs, ∀ y, R x y → S x y) : List.Forall₂ S xs ys :=
  ((List.forall₂_and_left xs ys).2 ⟨himp, h⟩).imp fun _ y hxy => hxy.1 y hxy.2

theorem exists_of_forall₂ {α β : Type} {R : α → β → Prop} {xs : List α} {ys : List β}
    (h : List.Forall₂ R xs ys) {x : α} (hx : x ∈ xs) : ∃ y, R x y := by
  induction h with
  | nil => cases hx
  | cons hxy _ ih =>
    rcases List.mem_cons.1 hx with rfl | hx
    · exact ⟨_, hxy⟩
    · exact ih hx

/-- Lists are mapped to the same if corresponding members are. -/
theorem map_eq_of_forall₂ {α β γ : Type} {R : α → β → Prop} {f : α → γ} {g : β → γ} {xs : List α}
    {ys : List β} (h : List.Forall₂ R xs ys) (himp : ∀ x ∈ xs, ∀ y, R x y → f x = g y) :
    xs.map f = ys.map g := by
  have hmap := forall₂_of_mem (S := fun x y => f x = g y) h himp
  rw [← List.forall₂_eq_eq_eq, List.forall₂_map_left_iff, List.forall₂_map_right_iff]
  exact hmap

/-- Members at one place correspond. -/
theorem rel_getElem? {α β : Type} {R : α → β → Prop} {xs : List α} {ys : List β}
    (h : List.Forall₂ R xs ys) (i : Nat) : Option.Rel R xs[i]? ys[i]? := by
  induction h generalizing i with
  | nil => exact .none
  | cons hxy _ ih =>
    cases i with
    | zero => exact .some hxy
    | succ i => exact ih i

theorem rel_getD {α β : Type} {R : α → β → Prop} {o : Option α} {o' : Option β} {a : α} {b : β}
    (h : Option.Rel R o o') (hab : R a b) : R (o.getD a) (o'.getD b) := by
  cases h with
  | some hxy => exact hxy
  | none => exact hab

theorem rel_imp {α β : Type} {R S : α → β → Prop} {o : Option α} {o' : Option β} (h : Option.Rel R o o')
    (himp : ∀ a ∈ o, ∀ b, R a b → S a b) : Option.Rel S o o' := by
  cases h with
  | some hxy => exact .some (himp _ rfl _ hxy)
  | none => exact .none

theorem rel_flip {α β : Type} {R : α → β → Prop} {o : Option α} {o' : Option β}
    (h : Option.Rel R o o') : Option.Rel (flip R) o' o := by
  cases h with
  | some hxy => exact .some hxy
  | none => exact .none

theorem exists_of_rel {α β : Type} {R : α → β → Prop} {o : Option α} {o' : Option β} {a : α}
    (h : Option.Rel R o o') (ha : o = some a) : ∃ b, o' = some b ∧ R a b := by
  subst ha
  cases h with
  | some hxy => exact ⟨_, rfl, hxy⟩

theorem rel_map {α β γ δ : Type} {R : α → β → Prop} {S : γ → δ → Prop} {o : Option α}
    {o' : Option β} {f : α → γ} {g : β → δ} (h : Option.Rel R o o')
    (hmap : ∀ a b, R a b → S (f a) (g b)) : Option.Rel S (o.map f) (o'.map g) := by
  cases h with
  | some hxy => exact .some (hmap _ _ hxy)
  | none => exact .none

namespace Value

/-- Values correspond under every renaming that has the same names for their scopes and
identities. -/
theorem Renamed.transfer {v u : Value} (h : v.Renamed ρ u)
    (hscopes : ∀ a b, v.Captures a → ρ.scopes a b → σ.scopes a b)
    (hidentities : ∀ i j, v.Holds i → ρ.identities i j → σ.identities i j) : v.Renamed σ u := by
  induction v using inductionOn generalizing u with
  | array i vs ih =>
    cases h with
    | array identity elements =>
      refine .array (hidentities _ _ ⟨_, .self, rfl⟩ identity) (forall₂_of_mem elements ?_)
      intro x hx y hxy
      have hpart : Part x (.array i vs) := .element hx .self
      exact ih x hx hxy (fun a b ha => hscopes a b (ha.of_part hpart))
        fun k l hk => hidentities k l (hk.of_part hpart)
  | hash i es ih =>
    cases h with
    | hash identity entries =>
      refine .hash (hidentities _ _ ⟨_, .self, rfl⟩ identity) (forall₂_of_mem entries ?_)
      rintro e he _ ⟨hashKey, key, value⟩
      have hkey : Part _ (.hash i es) := .key he .self
      have hvalue : Part _ (.hash i es) := .entry he .self
      refine .mk hashKey ((ih _ he).1 key (fun a b ha => hscopes a b (ha.of_part hkey)) ?_)
        ((ih _ he).2 value (fun a b ha => hscopes a b (ha.of_part hvalue)) ?_)
      · exact fun k l hk => hidentities k l (hk.of_part hkey)
      · exact fun k l hk => hidentities k l (hk.of_part hvalue)
  | function i f =>
    cases h with
    | function identity captured =>
      exact .function (hidentities _ _ ⟨_, .self, rfl⟩ identity)
        (hscopes _ _ ⟨i, f, .self, rfl⟩ captured)
  | returned v ih =>
    cases h with
    | returned value =>
      have hpart : Part v (.returned v) := .returned .self
      exact .returned (ih value (fun a b ha => hscopes a b (ha.of_part hpart))
        fun k l hk => hidentities k l (hk.of_part hpart))
  | _ => cases h; constructor

/-- A value corresponds to itself if every scope and identity in it stands for itself. -/
theorem renamed_refl {v : Value} (hscopes : ∀ a, v.Captures a → ρ.scopes a a)
    (hidentities : ∀ i, v.Holds i → ρ.identities i i) : v.Renamed ρ v := by
  induction v using inductionOn with
  | array i vs ih =>
    refine .array (hidentities _ ⟨_, .self, rfl⟩) (List.forall₂_same.2 fun x hx => ?_)
    have hpart : Part x (.array i vs) := .element hx .self
    exact ih x hx (fun a ha => hscopes a (ha.of_part hpart))
      fun k hk => hidentities k (hk.of_part hpart)
  | hash i es ih =>
    refine .hash (hidentities _ ⟨_, .self, rfl⟩) (List.forall₂_same.2 fun e he => ?_)
    have hkey : Part e.2.1 (.hash i es) := .key he .self
    have hvalue : Part e.2.2 (.hash i es) := .entry he .self
    exact .mk e.1 ((ih e he).1 (fun a ha => hscopes a (ha.of_part hkey))
        fun k hk => hidentities k (hk.of_part hkey))
      ((ih e he).2 (fun a ha => hscopes a (ha.of_part hvalue))
        fun k hk => hidentities k (hk.of_part hvalue))
  | function i f => exact .function (hidentities _ ⟨_, .self, rfl⟩) (hscopes _ ⟨i, f, .self, rfl⟩)
  | returned v ih =>
    have hpart : Part v (.returned v) := .returned .self
    exact .returned (ih (fun a ha => hscopes a (ha.of_part hpart))
      fun k hk => hidentities k (hk.of_part hpart))
  | _ => constructor

/-- Every part of a value corresponds to something. -/
theorem Renamed.exists_of_part {v u x : Value} (h : v.Renamed ρ u) (hpart : Part x v) :
    ∃ y, x.Renamed ρ y := by
  induction hpart generalizing u with
  | self => exact ⟨u, h⟩
  | element mem _ ih =>
    cases h with
    | array _ elements =>
      obtain ⟨y, hy⟩ := exists_of_forall₂ elements mem
      exact ih hy
  | key mem _ ih =>
    cases h with
    | hash _ entries =>
      obtain ⟨_, ⟨hashKey, key, value⟩⟩ := exists_of_forall₂ entries mem
      exact ih key
  | entry mem _ ih =>
    cases h with
    | hash _ entries =>
      obtain ⟨_, ⟨hashKey, key, value⟩⟩ := exists_of_forall₂ entries mem
      exact ih value
  | returned _ ih =>
    cases h with
    | returned value => exact ih value

/-- Every scope that a value captures stands for something. -/
theorem Renamed.exists_scope {v u : Value} (h : v.Renamed ρ u) {a : ScopeId} (ha : v.Captures a) :
    ∃ b, ρ.scopes a b := by
  obtain ⟨i, f, hpart, rfl⟩ := ha
  obtain ⟨y, hy⟩ := h.exists_of_part hpart
  cases hy with
  | function _ captured => exact ⟨_, captured⟩

/-- Every identity in a value stands for something. -/
theorem Renamed.exists_identity {v u : Value} (h : v.Renamed ρ u) {i : Identity} (hi : v.Holds i) :
    ∃ j, ρ.identities i j := by
  obtain ⟨x, hpart, hx⟩ := hi
  obtain ⟨y, hy⟩ := h.exists_of_part hpart
  cases hy with
  | array identity _ => exact ⟨_, Option.some.inj hx ▸ identity⟩
  | hash identity _ => exact ⟨_, Option.some.inj hx ▸ identity⟩
  | function identity _ => exact ⟨_, Option.some.inj hx ▸ identity⟩
  | _ => cases hx

section

variable {v u : Value} (h : v.Renamed ρ u)

include h

theorem Renamed.type_eq : v.type = u.type := by cases h <;> rfl

theorem Renamed.isSignal_eq : v.isSignal = u.isSignal := by cases h <;> rfl

theorem Renamed.truthy_eq : v.truthy = u.truthy := by cases h <;> rfl

theorem Renamed.key?_eq : v.key? = u.key? := by cases h <;> rfl

theorem Renamed.delivered : v.delivered.Renamed ρ u.delivered := by
  have hsame := h
  cases h with
  | returned value => exact value
  | _ => exact hsame

end

/-- Corresponding values are written alike. -/
theorem Renamed.inspect_eq {v u : Value} (h : v.Renamed ρ u) : v.inspect = u.inspect := by
  induction v using inductionOn generalizing u with
  | array i vs ih =>
    cases h with
    | @array _ j _ us _ elements =>
      have hmap : vs.map inspect = us.map inspect :=
        map_eq_of_forall₂ elements fun x hx y hxy => ih x hx hxy
      rw [inspect_array, inspect_array, inspectElements_eq_map, inspectElements_eq_map, hmap]
  | hash i es ih =>
    cases h with
    | @hash _ j _ ds _ entries =>
      have hmap : inspectEntries es = inspectEntries ds := by
        rw [inspectEntries_eq_map, inspectEntries_eq_map]
        refine map_eq_of_forall₂ entries ?_
        rintro e he _ ⟨hashKey, key, value⟩
        rw [(ih _ he).1 key, (ih _ he).2 value]
      rw [inspect_hash, inspect_hash, hmap]
  | returned v ih =>
    cases h with
    | returned value => exact (ih value :)
  | _ => cases h; rfl

/-- Two values are one and the same exactly when what they correspond to is. -/
theorem Renamed.identical_eq (hunique : BiUnique ρ.identities) {v u x y : Value}
    (h : v.Renamed ρ u) (h' : x.Renamed ρ y) : identical v x = identical u y := by
  have hidentity : ∀ i j k l, ρ.identities i j → ρ.identities k l → (i == k) = (j == l) :=
    fun i j k l hij hkl => by
      rw [Bool.eq_iff_iff, beq_iff_eq, beq_iff_eq]
      exact rel_eq hunique hij hkl
  cases h with
  | array identity _ =>
    cases h' with
    | array identity' _ => exact hidentity _ _ _ _ identity identity'
    | _ => rfl
  | hash identity _ =>
    cases h' with
    | hash identity' _ => exact hidentity _ _ _ _ identity identity'
    | _ => rfl
  | function identity _ =>
    cases h' with
    | function identity' _ => exact hidentity _ _ _ _ identity identity'
    | _ => rfl
  | _ => cases h' <;> rfl

/-- A result corresponds to itself if its value does. -/
theorem agree_self {r : Except Fault Value} (h : ∀ v, r = .ok v → v.Renamed ρ v) :
    Agree (Renamed ρ) r r := by
  cases r with
  | ok v => exact .ok (h v rfl)
  | error fault => exact .error fault

theorem Renamed.unary {v u : Value} (h : v.Renamed ρ u) (operator : Token) :
    Agree (Renamed ρ) (Value.unary operator v) (Value.unary operator u) := by
  have herror : Agree (Renamed ρ) (.error (.unaryOperator operator v.type))
      (.error (.unaryOperator operator u.type)) := by
    rw [h.type_eq]
    exact .error _
  cases operator with
  | symbol s =>
    cases s with
    | bang =>
      refine .ok ?_
      rw [h.truthy_eq]
      exact .boolean _
    | minus =>
      cases h with
      | integer n => exact .ok (.integer _)
      | _ => exact .error _
    | _ => exact herror
  | _ => exact herror

theorem Renamed.comparison (hunique : BiUnique ρ.identities) {v u x y : Value} (h : v.Renamed ρ u)
    (h' : x.Renamed ρ y) (operator : Token) :
    Agree (Renamed ρ) (Value.comparison operator v x) (Value.comparison operator u y) := by
  have heq : Value.comparison operator v x = Value.comparison operator u y := by
    unfold Value.comparison
    rw [h.type_eq, h'.type_eq, h.identical_eq hunique h']
  rw [heq]
  refine agree_self fun z hz => ?_
  unfold Value.comparison at hz
  repeat' split at hz
  all_goals cases hz <;> constructor

/-- An operator makes the same of operands that correspond. -/
theorem Renamed.binary (hunique : BiUnique ρ.identities) {v u x y : Value} (h : v.Renamed ρ u)
    (h' : x.Renamed ρ y) (operator : Token) :
    Agree (Renamed ρ) (Value.binary v operator x) (Value.binary u operator y) := by
  have hcomparison := h.comparison hunique h' operator
  cases h with
  | integer m =>
    cases h' with
    | integer n =>
      refine agree_self fun z hz => ?_
      change arithmetic operator m n = .ok z at hz
      unfold arithmetic at hz
      repeat' split at hz
      all_goals cases hz <;> constructor
    | _ => exact hcomparison
  | string s =>
    cases h' with
    | string t =>
      refine agree_self fun z hz => ?_
      change joining operator s t = .ok z at hz
      unfold joining at hz
      split at hz <;> cases hz
      constructor
    | _ => exact hcomparison
  | _ => exact hcomparison

/-- Elements at one position correspond. -/
theorem renamed_elementAt {vs us : List Value} (h : List.Forall₂ (Renamed ρ) vs us) (i : Int64) :
    (elementAt vs i).Renamed ρ (elementAt us i) := by
  unfold elementAt
  split
  · exact rel_getD (rel_getElem? h _) .null
  · exact .null

end Value

namespace Table

variable {t t' : Table (Value × Value)}

/-- Entries under one key correspond. -/
theorem Renamed.find? (h : Table.Renamed ρ t t') (key : HashKey) :
    Option.Rel (fun p q => p.1.Renamed ρ q.1 ∧ p.2.Renamed ρ q.2) (find? key t) (find? key t') := by
  induction h with
  | nil => exact .none
  | cons hentry _ ih =>
    cases hentry with
    | mk hashKey hk hv =>
      simp only [Table.find?]
      split
      · exact .some ⟨hk, hv⟩
      · exact ih

/-- Filing entries that correspond makes tables that do. -/
theorem Renamed.insert (h : Table.Renamed ρ t t') (key : HashKey) {k l v u : Value}
    (hk : k.Renamed ρ l) (hv : v.Renamed ρ u) :
    Table.Renamed ρ (insert key (k, v) t) (insert key (l, u) t') := by
  induction h with
  | nil => exact .cons (.mk key hk hv) .nil
  | cons hentry hs ih =>
    cases hentry with
    | mk hashKey hk' hv' =>
      simp only [Table.insert]
      split
      · exact .cons (.mk key hk hv) (.cons (.mk hashKey hk' hv') hs)
      split
      · exact .cons (.mk key hk hv) hs
      · exact .cons (.mk hashKey hk' hv') ih

end Table

/-- Indexing finds values that correspond. -/
theorem Value.Renamed.index {c d p q : Value} (hc : c.Renamed ρ d) (hp : p.Renamed ρ q) :
    Agree (Value.Renamed ρ) (Value.index c p) (Value.index d q) := by
  have hkey := hp.key?_eq
  have htype := hp.type_eq
  cases hc with
  | array identity elements =>
    cases hp with
    | integer i => exact .ok (renamed_elementAt elements i)
    | _ => exact .error _
  | hash identity entries =>
    simp only [Value.index]
    rw [← hkey, ← htype]
    cases p.key? with
    | none => exact .error _
    | some key =>
      have hfound := Table.Renamed.find? entries key
      exact .ok (rel_getD (rel_map hfound fun _ _ hentry => hentry.2) .null)
  | _ => exact .error _

namespace Builtin

theorem renamed_elements (b : Builtin) {v u : Value} (h : v.Renamed ρ u) :
    Agree (List.Forall₂ (Value.Renamed ρ)) (elements b v) (elements b u) := by
  cases h with
  | array _ elements => exact .ok elements
  | _ => exact .error _

theorem renamed_only {vs us : List Value} (h : List.Forall₂ (Value.Renamed ρ) vs us) :
    Agree (Value.Renamed ρ) (only vs) (only us) := by
  have hlength := h.length_eq
  cases h with
  | nil => exact .error _
  | cons hfirst hs =>
    cases hs with
    | nil => exact .ok hfirst
    | cons _ _ =>
      simp only [only]
      rw [hlength]
      exact .error _

theorem renamed_length {v u : Value} (h : v.Renamed ρ u) :
    Agree (Value.Renamed ρ) (length v) (length u) := by
  cases h with
  | string text => exact .ok (.integer _)
  | array _ elements =>
    simp only [length]
    rw [elements.length_eq]
    exact .ok (.integer _)
  | _ => exact .error _

theorem renamed_pushed {vs us : List Value} (h : List.Forall₂ (Value.Renamed ρ) vs us) :
    Agree (List.Forall₂ (Value.Renamed ρ)) (pushed vs) (pushed us) := by
  have hlength := h.length_eq
  cases h with
  | nil => exact .error _
  | cons harray hs =>
    cases hs with
    | nil => exact .error _
    | cons hvalue hs =>
      cases hs with
      | nil =>
        refine (renamed_elements .push harray).bind fun xs ys hxs => .ok ?_
        exact List.rel_append hxs (.cons hvalue .nil)
      | cons _ _ =>
        simp only [pushed]
        rw [hlength]
        exact .error _

theorem line_eq {v u : Value} (h : v.Renamed ρ u) : line v = line u := by
  rw [line, line, h.inspect_eq]

end Builtin

end Monkey
