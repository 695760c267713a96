import Monkey.Proofs.Evaluation.Equality

/-!
# Equality in a course

Of the values that occur in a course, equal ones look the same, also when they contain functions. Functions
are equal when one literal was evaluated in one scope to make both of them; that they then have the same
parameters, which equality does not look at, is because no two literals share a site.
-/

namespace Monkey

/-- Nothing changes about a list, as far as a function can tell, if a member is replaced by one on which
the function agrees. -/
theorem map_set_of_eq {α β : Type} {f : α → β} {xs : List α} {n : Nat} (hn : n < xs.length) {y : α}
    (h : f xs[n] = f y) : (xs.set n y).map f = xs.map f := by
  have hlen : n < (xs.map f).length := by rwa [List.length_map]
  have hget : (xs.map f)[n] = f y := by rw [List.getElem_map, h]
  rw [List.map_set, ← hget, List.set_getElem_self]

namespace Value

/-- An element of an array can be replaced by an equal one. -/
theorem same_array_set {i j : Identity} {xs : List Value} {n : Nat} (hn : n < xs.length) {y : Value}
    (h : xs[n].same y = true) : (array i xs).same (array j (xs.set n y)) = true := by
  rw [same_iff, form, form, formElements_eq_map, formElements_eq_map,
    map_set_of_eq hn (same_iff.1 h)]

/-- The key and the value of an entry can be replaced by equal ones. -/
theorem same_hash_set {i j : Identity} {entries : Table (Value × Value)} {n : Nat}
    (hn : n < entries.length) {k v : Value} (hk : entries[n].2.1.same k = true)
    (hv : entries[n].2.2.same v = true) :
    (hash i entries).same (hash j (entries.set n (entries[n].1, k, v))) = true := by
  rw [same_iff, form, form, formEntries_eq_map, formEntries_eq_map, map_set_of_eq hn]
  simp only [same_iff.1 hk, same_iff.1 hv]

end Value

variable {sink : Sink} {programs : List Program} {past : List Machine} {m : Machine} {u v : Value}
  {site : Site} {scope : ScopeId} {i j : Identity} {f g : Closure}

/-- At some moment, the function literal that stands at the site was evaluated in the scope, which made
the value. -/
def MadeFrom (programs : List Program) (past : List Machine) (site : Site) (scope : ScopeId)
    (v : Value) : Prop :=
  ∃ (k : Nat) (x : Machine) (mark : Site) (parameters : List String) (body : List (Stmt Site)),
    past[k]? = some x ∧
    x.control = .task (.expression scope (.function mark parameters body)) ∧
    StandsAt programs site (.function mark parameters body) ∧ x.Makes v

/-- A function knows the literal and the scope that it was made from. -/
theorem MadeFrom.closure (numbered : Numbered programs)
    (h : MadeFrom programs past site scope (.function i f)) : f.site = site ∧ f.scope = scope := by
  obtain ⟨k, x, mark, parameters, body, -, hcontrol, hstands, t, ht, hmakes⟩ := h
  cases hcontrol.symm.trans ht
  cases hmakes
  exact ⟨hstands.mark_eq numbered, rfl⟩

namespace Course

variable (h : Course sink programs past m)

include h

/-- Every function that occurs was made from the literal that stands at its site. -/
theorem madeFrom (hf : OccursIn (past ++ [m]) (.function i f)) :
    MadeFrom programs past f.site f.scope (.function i f) := by
  obtain ⟨k, x, hx, t, ht, hmakes⟩ := h.accounts.origin _ hf (Option.some_ne_none i)
  have hstands := h.standsAt hf
  cases hmakes with
  | function scope site parameters body =>
    exact ⟨k, x, site, parameters, body, hx, ht, hstands, _, ht, .function scope site parameters body⟩

/-- Equal values look the same. -/
theorem looksLike (hu : OccursIn (past ++ [m]) u) (hv : OccursIn (past ++ [m]) v)
    (hsame : u.same v = true) : u.LooksLike v := by
  have hliteral {x : Value} (hx : OccursIn (past ++ [m]) x) :
      x.Throughout (Value.FromLiteral programs) := by
    obtain ⟨y, hy, hcontains⟩ := hx
    exact fun p hp => (h.keeps_fromLiteral y hy).has (hcontains.part hp).has
  have hform := Value.same_iff.1 hsame
  have htype : u.type = v.type := by rw [← u.type_form, hform, v.type_form]
  have hinspect := Value.inspect_eq_of_form_eq (hliteral hu) (hliteral hv) hform
  exact {
    type := htype
    inspect := hinspect
    code := by rw [u.code_eq_ite, v.code_eq_ite, htype, hinspect]
    key := by rw [← u.key?_form, hform, v.key?_form]
    truthy := by rw [← u.truthy_form, hform, v.truthy_form] }

/-- Functions are equal when they were made from one literal in one scope. -/
theorem same_function_iff (hf : OccursIn (past ++ [m]) (.function i f))
    (hg : OccursIn (past ++ [m]) (.function j g)) :
    (Value.function i f).same (.function j g) = true ↔
      ∃ site scope, MadeFrom programs past site scope (.function i f) ∧
        MadeFrom programs past site scope (.function j g) := by
  rw [Value.same, Bool.and_eq_true, beq_iff_eq, beq_iff_eq]
  constructor
  · rintro ⟨hsite, hscope⟩
    have hother := h.madeFrom hg
    rw [← hsite, ← hscope] at hother
    exact ⟨f.site, f.scope, h.madeFrom hf, hother⟩
  · rintro ⟨site, scope, hmade, hother⟩
    have hnumbered := h.placed.2
    obtain ⟨hsite, hscope⟩ := hmade.closure hnumbered
    obtain ⟨hsite', hscope'⟩ := hother.closure hnumbered
    exact ⟨hsite.trans hsite'.symm, hscope.trans hscope'.symm⟩

/-- Equal functions have the same parameters and the same body. -/
theorem parameters_eq_of_same (hf : OccursIn (past ++ [m]) (.function i f))
    (hg : OccursIn (past ++ [m]) (.function j g))
    (hsame : (Value.function i f).same (.function j g) = true) :
    f.parameters = g.parameters ∧ f.body = g.body := by
  rw [Value.same, Bool.and_eq_true, beq_iff_eq, beq_iff_eq] at hsame
  have hother := h.standsAt hg
  rw [← hsame.1] at hother
  exact (Expr.function.inj ((h.standsAt hf).unique hother)).2

end Course

/-- Equality of values is an equivalence. It comes to an end, because comparing two values takes comparing
smaller ones only, and none for functions, whatever is bound in their scopes. Parts can be replaced by equal
ones. In a course, equal values look the same, and functions are equal exactly when they were made from one
literal in one scope; they have the same parameters then, and the same body. -/
theorem equality_is_congruence (h : Course sink programs past m) :
    (Equivalence fun u v : Value => u.same v = true) ∧
    WellFounded Value.Compares ∧
    (∀ u v : Value, u.same v = true ↔
      u.Meets v ∧ ∀ p, Value.Compares p (u, v) → p.1.same p.2 = true) ∧
    (∀ i j f g p, ¬ Value.Compares p (.function i f, .function j g)) ∧
    (∀ i j xs n y, ∀ hn : n < xs.length, xs[n].same y = true →
      (Value.array i xs).same (.array j (xs.set n y)) = true) ∧
    (∀ i j entries n k v, ∀ hn : n < entries.length, entries[n].2.1.same k = true →
      entries[n].2.2.same v = true →
      (Value.hash i entries).same (.hash j (entries.set n (entries[n].1, k, v))) = true) ∧
    (∀ u v, OccursIn (past ++ [m]) u → OccursIn (past ++ [m]) v → u.same v = true → u.LooksLike v) ∧
    ∀ i j f g, OccursIn (past ++ [m]) (.function i f) → OccursIn (past ++ [m]) (.function j g) →
      ((Value.function i f).same (.function j g) = true ↔
        ∃ site scope, MadeFrom programs past site scope (.function i f) ∧
          MadeFrom programs past site scope (.function j g)) ∧
      ((Value.function i f).same (.function j g) = true →
        f.parameters = g.parameters ∧ f.body = g.body) :=
  ⟨Value.same_equivalence, Value.compares_wellFounded, fun _ _ => Value.same_iff_compares,
    fun _ _ _ _ _ => Value.not_compares_function, fun _ _ _ _ _ hn => Value.same_array_set hn,
    fun _ _ _ _ _ _ hn => Value.same_hash_set hn, fun _ _ => h.looksLike,
    fun _ _ _ _ hf hg => ⟨h.same_function_iff hf hg, h.parameters_eq_of_same hf hg⟩⟩

/-- A program that binds a name to a function which gives itself is run twice. The two functions are made
from one literal in the one scope, where the name is bound to the later one, so they are equal and look the
same. -/
theorem function_that_gives_itself_equal :
    let tree : Tree := [.define "f" (.function () [] [.expression (.name "f")]), .expression (.name "f")]
    let f : Closure := ⟨[], [.expression (.name "f")], ⟨0, [0, 0]⟩, globalScope⟩
    let w (i : Identity) : World := ⟨#[⟨[("f", .function i f)], none⟩], i + 1, 1, .unlimited⟩
    ∃ past, Course .unlimited [place 0 tree] past ⟨.value (.function 1 f), [], w 1⟩ ∧
      (∃ site scope, MadeFrom [place 0 tree] past site scope (.function 0 f) ∧
        MadeFrom [place 0 tree] past site scope (.function 1 f)) ∧
      (Value.function 0 f).LooksLike (.function 1 f) := by
  intro tree f w
  have hfirst : Runs 0 (.block globalScope .null (place 0 tree)) ((World.initial .unlimited).enrol tree).2
      (.function 0 f) (w 0) :=
    .next rfl (.next rfl (.done rfl) rfl (.done rfl)) rfl
      (.next rfl (.become rfl (runs_bound (.here rfl))) rfl (.done rfl))
  have hsecond : Runs 0 (.block globalScope .null (place 0 tree)) (w 0) (.function 1 f) (w 1) :=
    .next rfl (.next rfl (.done rfl) rfl (.done rfl)) rfl
      (.next rfl (.become rfl (runs_bound (.here rfl))) rfl (.done rfl))
  have hrun := program_eq_some_iff.2 ⟨_, hfirst, rfl⟩
  have hagain := program_eq_some_iff.2 ⟨_, hsecond, rfl⟩
  obtain ⟨before, hbefore⟩ := Course.of_program hrun
  obtain ⟨further, hfurther⟩ := hbefore.evaluated rfl List.mem_cons_self hagain
  obtain ⟨past, hcourse, hmem⟩ : ∃ past,
      Course .unlimited [place 0 tree] past ⟨.value (.function 1 f), [], w 1⟩ ∧
        ⟨.value (.function 0 f), [], w 0⟩ ∈ past :=
    ⟨_, hfurther, List.mem_append_right _ List.mem_cons_self⟩
  have hearlier : OccursIn (past ++ [⟨.value (.function 1 f), [], w 1⟩]) (.function 0 f) :=
    ⟨_, List.mem_append_left _ hmem, .value rfl .self⟩
  have hlater : OccursIn (past ++ [⟨.value (.function 1 f), [], w 1⟩]) (.function 1 f) :=
    occursIn_of_part .self
  have hsame : (Value.function 0 f).same (.function 1 f) = true := rfl
  obtain ⟨-, -, -, -, -, -, hlooks, hfunctions⟩ := equality_is_congruence hcourse
  exact ⟨past, hcourse, (hfunctions 0 1 f f hearlier hlater).1.1 hsame,
    hlooks _ _ hearlier hlater hsame⟩

end Monkey
