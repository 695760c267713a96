import Monkey.Proofs.Evaluation.Nodes

/-!
# Equality of values

Two values are equal when nothing tells them apart but identities and what a function's literal and scope
determine. So equality is equality of what is left when these are forgotten, and it is an equivalence that
replacing parts by equal ones respects. It only ever looks at parts, so it comes to an end whatever scopes
functions have captured. In a course, a literal determines the parameters and the body of its functions, so
that equal values look the same too.
-/

namespace Monkey

namespace Value

mutual

/-- The value without what equality does not look at: identities, and of functions everything but the
literal and the scope. -/
def form : Value → Value
  | array _ elements => array 0 (formElements elements)
  | hash _ entries => hash 0 (formEntries entries)
  | function _ f => function 0 ⟨[], [], f.site, f.scope⟩
  | returned v => returned (form v)
  | v => v

/-- The elements of an array without what equality does not look at. -/
def formElements : List Value → List Value
  | [] => []
  | v :: vs => form v :: formElements vs

/-- The entries of a hash without what equality does not look at. -/
def formEntries : List (HashKey × Value × Value) → List (HashKey × Value × Value)
  | [] => []
  | (key, k, v) :: entries => (key, form k, form v) :: formEntries entries

end

theorem formElements_eq_map (vs : List Value) : formElements vs = vs.map form := by
  induction vs with
  | nil => rfl
  | cons v vs ih => exact congrArg (form v :: ·) ih

theorem formEntries_eq_map (entries : Table (Value × Value)) :
    formEntries entries = entries.map fun e => (e.1, form e.2.1, form e.2.2) := by
  induction entries with
  | nil => rfl
  | cons e entries ih => exact congrArg ((e.1, form e.2.1, form e.2.2) :: ·) ih

/-- Values are equal when their forms are. -/
theorem same_iff {u v : Value} : u.same v = true ↔ u.form = v.form := by
  induction u using inductionOn generalizing v with
  | array identity elements ih =>
    cases v with
    | array other others =>
      rw [same, form, form, array.injEq, and_iff_right rfl]
      induction elements generalizing others with
      | nil => cases others <;> simp [sameElements, formElements]
      | cons x xs ihxs =>
        rw [List.forall_mem_cons] at ih
        cases others with
        | nil => simp [sameElements, formElements]
        | cons y ys =>
          rw [sameElements, formElements, formElements, List.cons.injEq, Bool.and_eq_true, ih.1,
            ihxs ih.2]
    | _ => simp [same, form]
  | hash identity entries ih =>
    cases v with
    | hash other others =>
      rw [same, form, form, hash.injEq, and_iff_right rfl]
      induction entries generalizing others with
      | nil => cases others <;> simp [sameEntries, formEntries]
      | cons d ds ihds =>
        rw [List.forall_mem_cons] at ih
        obtain ⟨key, k, x⟩ := d
        cases others with
        | nil => simp [sameEntries, formEntries]
        | cons e es =>
          obtain ⟨key', k', x'⟩ := e
          simp only [sameEntries, formEntries, List.cons.injEq, Prod.mk.injEq, Bool.and_eq_true,
            beq_iff_eq, ih.1.1, ih.1.2, ihds ih.2, and_assoc]
    | _ => simp [same, form]
  | function identity f => cases v <;> simp [same, form]
  | returned u ih =>
    cases v with
    | returned v => rw [same, form, form, returned.injEq, ih]
    | _ => simp [same, form]
  | _ => cases v <;> simp [same, form]

/-- Equality is reflexive, symmetric and transitive. -/
theorem same_equivalence : Equivalence fun u v : Value => u.same v = true where
  refl _ := same_iff.2 rfl
  symm h := same_iff.2 (same_iff.1 h).symm
  trans h h' := same_iff.2 ((same_iff.1 h).trans (same_iff.1 h'))

theorem sameElements_iff {xs ys : List Value} :
    sameElements xs ys = true ↔ List.Forall₂ (fun x y => x.same y = true) xs ys := by
  induction xs generalizing ys with
  | nil => cases ys <;> simp [sameElements]
  | cons x xs ih => cases ys <;> simp [sameElements, ih]

theorem sameEntries_iff {ds es : Table (Value × Value)} :
    sameEntries ds es = true ↔ List.Forall₂
      (fun d e => d.1 = e.1 ∧ d.2.1.same e.2.1 = true ∧ d.2.2.same e.2.2 = true) ds es := by
  induction ds generalizing es with
  | nil => cases es <;> simp [sameEntries]
  | cons d ds ih => cases es <;> simp [sameEntries, ih, and_assoc]

/-! ## Comparisons come to an end -/

/-- To compare the second pair of values, the first one is compared. -/
inductive Compares : Value × Value → Value × Value → Prop where
  /-- Arrays are compared by their elements, position by position. -/
  | element {i j : Identity} {xs ys : List Value} {x y : Value} (mem : (x, y) ∈ xs.zip ys) :
      Compares (x, y) (array i xs, array j ys)
  /-- Hashes are compared by their keys. -/
  | key {i j : Identity} {ds es : Table (Value × Value)} {d e : HashKey × Value × Value}
      (mem : (d, e) ∈ ds.zip es) : Compares (d.2.1, e.2.1) (hash i ds, hash j es)
  /-- Hashes are compared by the values under their keys. -/
  | entry {i j : Identity} {ds es : Table (Value × Value)} {d e : HashKey × Value × Value}
      (mem : (d, e) ∈ ds.zip es) : Compares (d.2.2, e.2.2) (hash i ds, hash j es)
  /-- What `return` carries is compared. -/
  | returned {u v : Value} : Compares (u, v) (returned u, returned v)

/-- What two values have to agree in by themselves, whatever is in them. -/
def Meets : Value → Value → Prop
  | integer m, integer n => m = n
  | boolean a, boolean b => a = b
  | string s, string t => s = t
  | null, null => True
  | array _ xs, array _ ys => xs.length = ys.length
  | hash _ ds, hash _ es => ds.map Prod.fst = es.map Prod.fst
  | function _ f, function _ g => f.site = g.site ∧ f.scope = g.scope
  | builtin a, builtin b => a = b
  | returned _, returned _ => True
  | error f, error g => f = g
  | _, _ => False

/-- What stands in a table is smaller than the table. -/
theorem sizeOf_entry_lt {table : Table (Value × Value)} {e : HashKey × Value × Value} (he : e ∈ table) :
    sizeOf e.2.1 < sizeOf table ∧ sizeOf e.2.2 < sizeOf table := by
  have hmem := List.sizeOf_lt_of_mem he
  obtain ⟨key, k, v⟩ := e
  simp only [Prod.mk.sizeOf_spec] at hmem ⊢
  omega

/-- What is compared gets smaller. -/
theorem Compares.sizeOf_lt {p q : Value × Value} (h : Compares p q) : sizeOf p.1 < sizeOf q.1 := by
  cases h with
  | element mem =>
    have hmem := List.sizeOf_lt_of_mem (List.of_mem_zip mem).1
    simp only [array.sizeOf_spec]
    omega
  | key mem =>
    have hmem := sizeOf_entry_lt (List.of_mem_zip mem).1
    simp only [hash.sizeOf_spec]
    omega
  | entry mem =>
    have hmem := sizeOf_entry_lt (List.of_mem_zip mem).1
    simp only [hash.sizeOf_spec]
    omega
  | returned =>
    simp only [returned.sizeOf_spec]
    omega

/-- Every comparison comes to an end. -/
theorem compares_wellFounded : WellFounded Compares :=
  Subrelation.wf (fun h => h.sizeOf_lt) (measure fun p : Value × Value => sizeOf p.1).wf

/-- Functions are compared without comparing anything else. -/
theorem not_compares_function {i j : Identity} {f g : Closure} {p : Value × Value} :
    ¬ Compares p (function i f, function j g) := by
  intro h
  cases h

/-- Values of which nothing has to be compared are equal when they agree by themselves. -/
theorem same_iff_of_not_compares {u v : Value} (hnone : ∀ p, ¬ Compares p (u, v))
    (h : u.same v = true ↔ u.Meets v) :
    u.same v = true ↔ u.Meets v ∧ ∀ p, Compares p (u, v) → p.1.same p.2 = true :=
  h.trans (and_iff_left fun p hp => absurd hp (hnone p)).symm

/-- Two values are equal when they agree by themselves and all that is compared in them is equal. -/
theorem same_iff_compares {u v : Value} :
    u.same v = true ↔ u.Meets v ∧ ∀ p, Compares p (u, v) → p.1.same p.2 = true := by
  cases u with
  | array i xs =>
    cases v with
    | array j ys =>
      rw [same, sameElements_iff, List.forall₂_iff_zip, Meets]
      refine and_congr_right fun _ => ⟨fun h p hp => ?_, fun h x y mem => h (x, y) (.element mem)⟩
      cases hp with
      | element mem => exact h mem
    | _ => exact same_iff_of_not_compares (by rintro _ ⟨⟩) (by simp [same, Meets])
  | hash i ds =>
    cases v with
    | hash j es =>
      have hkeys : ds.map Prod.fst = es.map Prod.fst ↔ List.Forall₂ (fun d e => d.1 = e.1) ds es := by
        have heq : List.Forall₂ Eq (ds.map Prod.fst) (es.map Prod.fst) ↔
            ds.map Prod.fst = es.map Prod.fst := by rw [List.forall₂_eq_eq_eq]
        rw [← heq, List.forall₂_map_left_iff, List.forall₂_map_right_iff]
      rw [same, sameEntries_iff, Meets, hkeys, List.forall₂_iff_zip, List.forall₂_iff_zip, and_assoc]
      refine and_congr_right fun _ => ⟨fun h => ⟨fun mem => (h mem).1, fun p hp => ?_⟩, fun h d e mem =>
        ⟨h.1 mem, h.2 _ (.key mem), h.2 _ (.entry mem)⟩⟩
      cases hp with
      | key mem => exact (h mem).2.1
      | entry mem => exact (h mem).2.2
    | _ => exact same_iff_of_not_compares (by rintro _ ⟨⟩) (by simp [same, Meets])
  | returned u =>
    cases v with
    | returned v =>
      rw [same, Meets, true_and]
      refine ⟨fun h p hp => ?_, fun h => h (u, v) .returned⟩
      cases hp
      exact h
    | _ => exact same_iff_of_not_compares (by rintro _ ⟨⟩) (by simp [same, Meets])
  | _ => cases v <;> exact same_iff_of_not_compares (by rintro _ ⟨⟩) (by simp [same, Meets])

/-! ## What equal values have in common -/

/-- Nothing that a program or a reader sees of two values by themselves tells them apart. -/
structure LooksLike (u v : Value) : Prop where
  /-- They have the same type. -/
  type : u.type = v.type
  /-- They are printed in the same way. -/
  inspect : u.inspect = v.inspect
  /-- They are printed in the same way for a reader of code. -/
  code : u.code = v.code
  /-- They are the same key, if they can be keys. -/
  key : u.key? = v.key?
  /-- They count as true, or they do not. -/
  truthy : u.truthy = v.truthy

theorem type_form (v : Value) : v.form.type = v.type := by cases v <;> simp [form, type]

theorem key?_form (v : Value) : v.form.key? = v.key? := by cases v <;> simp [form, key?]

theorem truthy_form (v : Value) : v.form.truthy = v.truthy := by cases v <;> simp [form, truthy]

theorem code_eq_ite (v : Value) :
    v.code = if v.type = .string then "\"" ++ v.inspect ++ "\"" else v.inspect := by
  cases v <;> rfl

/-- Lists on which one function agrees are lists on which another one does, if the first one determines
the second. -/
theorem map_eq_map_of_map_eq {α β γ : Type} {f : α → β} {g : α → γ} {xs ys : List α}
    (h : xs.map f = ys.map f) (hg : ∀ x ∈ xs, ∀ y ∈ ys, f x = f y → g x = g y) :
    xs.map g = ys.map g := by
  induction xs generalizing ys with
  | nil => cases ys <;> simp_all
  | cons x xs ih =>
    cases ys with
    | nil => cases h
    | cons y ys =>
      rw [List.map_cons, List.map_cons, List.cons.injEq] at h ⊢
      exact ⟨hg x List.mem_cons_self y List.mem_cons_self h.1, ih h.2 fun a ha b hb =>
        hg a (List.mem_cons_of_mem x ha) b (List.mem_cons_of_mem y hb)⟩

variable {programs : List Program}

/-- When functions come from the literals of some programs, equal values are printed in the same way: a
site determines a literal. -/
theorem inspect_eq_of_form_eq {u v : Value} (hu : u.Throughout (FromLiteral programs))
    (hv : v.Throughout (FromLiteral programs)) (h : u.form = v.form) : u.inspect = v.inspect := by
  induction u using inductionOn generalizing v with
  | array i xs ih =>
    cases v with
    | array j ys =>
      rw [form, form, array.injEq, and_iff_right rfl, formElements_eq_map, formElements_eq_map] at h
      have hxs := (throughout_array.1 hu).2
      have hys := (throughout_array.1 hv).2
      rw [inspect_array, inspect_array, inspectElements_eq_map, inspectElements_eq_map,
        map_eq_map_of_map_eq h fun x hx y hy => ih x hx (hxs x hx) (hys y hy)]
    | _ => simp [form] at h
  | hash i ds ih =>
    cases v with
    | hash j es =>
      rw [form, form, hash.injEq, and_iff_right rfl, formEntries_eq_map, formEntries_eq_map] at h
      have hds := (throughout_hash.1 hu).2
      have hes := (throughout_hash.1 hv).2
      rw [inspect_hash, inspect_hash, inspectEntries_eq_map, inspectEntries_eq_map,
        map_eq_map_of_map_eq h fun d hd e he heq => ?_]
      rw [Prod.mk.injEq, Prod.mk.injEq] at heq
      rw [(ih d hd).1 (hds d hd).1 (hes e he).1 heq.2.1, (ih d hd).2 (hds d hd).2 (hes e he).2 heq.2.2]
    | _ => simp [form] at h
  | function i f =>
    cases v with
    | function j g =>
      simp only [form, function.injEq, Closure.mk.injEq, true_and] at h
      have hf : StandsAt programs f.site (.function f.site f.parameters f.body) := hu _ .self
      have hg : StandsAt programs g.site (.function g.site g.parameters g.body) := hv _ .self
      rw [← h.1] at hg
      obtain ⟨-, hparameters, hbody⟩ := Expr.function.inj (hf.unique hg)
      change f.render = g.render
      rw [Closure.render, Closure.render, hparameters, hbody]
    | _ => simp [form] at h
  | returned u ih =>
    cases v with
    | returned v =>
      rw [form, form, returned.injEq] at h
      change u.inspect = v.inspect
      exact ih (throughout_returned.1 hu).2 (throughout_returned.1 hv).2 h
    | _ => simp [form] at h
  | null =>
    cases v with
    | null => rfl
    | _ => simp [form] at h
  | _ =>
    cases v <;> simp [form] at h
    subst h
    rfl

end Value

end Monkey
