import Monkey.Proofs.Evaluation.Congruence

/-!
# The comparison operators

The operators `==` and `!=` are each other's negation except on two texts, which they refuse. Numbers are
compared by themselves and everything else by what it is, so that what `==` finds equal is equal in all its
parts. For arrays, hashes and functions it asks whether they are one object, and in a course that is whether
they were made at one moment.
-/

namespace Monkey

namespace Value

/-- What the comparison operators look at: of arrays, hashes and functions the identity, and nothing of a
text or a signal. -/
def handle? : Value → Option Value
  | integer n => some (integer n)
  | boolean b => some (boolean b)
  | null => some null
  | builtin b => some (builtin b)
  | array identity _ => some (array identity [])
  | hash identity _ => some (hash identity [])
  | function identity _ => some (function identity ⟨[], [], ⟨0, []⟩, 0⟩)
  | string _ => none
  | returned _ => none
  | error _ => none

/-- The operator `==` gives `true`. -/
def Equals (l r : Value) : Prop := binary l (.symbol .equal) r = .ok (.boolean true)

variable {l r m v : Value}

/-- The operators refuse two texts. -/
theorem binary_of_strings (hl : l.type = .string) (hr : r.type = .string) {operator : Token}
    (h : operator ≠ .symbol .plus) :
    binary l operator r = .error (.binaryOperator .string operator .string) := by
  cases l <;> simp only [type, reduceCtorEq] at hl
  cases r <;> simp only [type, reduceCtorEq] at hr
  rw [binary, joining]
  simpa using h

/-- On everything but two texts, the operators give a truth value and its negation. -/
theorem binary_of_not_strings (h : ¬ (l.type = .string ∧ r.type = .string)) :
    ∃ b, binary l (.symbol .equal) r = .ok (.boolean b) ∧
      binary l (.symbol .notEqual) r = .ok (.boolean !b) := by
  unfold binary
  split
  · next m n => exact ⟨m == n, rfl, rfl⟩
  · exact absurd ⟨rfl, rfl⟩ h
  · exact ⟨identical l r, rfl, rfl⟩

/-- What `==` finds equal has something to be compared by, and that is the same. -/
theorem equals_iff : Equals l r ↔ l.handle? ≠ none ∧ l.handle? = r.handle? := by
  cases l <;> cases r <;>
    simp [Equals, binary, arithmetic, joining, comparison, identical, handle?]

theorem handle?_ne_none (hplain : v.isSignal = false) (htype : v.type ≠ .string) :
    v.handle? ≠ none := by
  cases v <;> simp_all [handle?, isSignal, type]

theorem Equals.symm (h : Equals l r) : Equals r l := by
  rw [equals_iff] at h ⊢
  exact ⟨h.2 ▸ h.1, h.2.symm⟩

theorem Equals.trans (h : Equals l r) (h' : Equals r m) : Equals l m := by
  rw [equals_iff] at h h' ⊢
  exact ⟨h.1, h.2.trans h'.2⟩

/-- Everything but a text equals itself. -/
theorem equals_self (hplain : v.isSignal = false) (htype : v.type ≠ .string) : Equals v v :=
  equals_iff.2 ⟨handle?_ne_none hplain htype, rfl⟩

/-- Numbers, truth values, `null` and builtin functions are equal when they are the same. -/
theorem equals_iff_same (h : l.type ∈ [.integer, .boolean, .null, .builtin]) :
    Equals l r ↔ l.same r = true := by
  rw [equals_iff]
  cases l <;> simp [type] at h <;> cases r <;> simp [handle?, same]

/-- Arrays, hashes and functions are those with an identity. -/
theorem mem_collections_iff :
    v.type ∈ [.array, .hash, .function] ↔ v.identity? ≠ none := by
  cases v <;> simp [type, identity?]

/-- What equals something with an identity has that identity. -/
theorem Equals.identity?_eq (h : Equals l r) (hl : l.identity? ≠ none) :
    l.identity? = r.identity? := by
  rw [equals_iff] at h
  cases l <;> simp [identity?] at hl <;> cases r <;> simp [handle?, identity?] at h ⊢
  all_goals exact h

/-- Values of which only one has an identity are not equal; nor are two with different identities. -/
theorem binary_equal_eq_false (hl : l.identity? ≠ none) (hne : l.identity? ≠ r.identity?) :
    binary l (.symbol .equal) r = .ok (.boolean false) := by
  have hstring : ¬ (l.type = .string ∧ r.type = .string) := by
    rintro ⟨htype, -⟩
    cases l <;> simp_all [identity?, type]
  obtain ⟨b, hequal, -⟩ := binary_of_not_strings hstring
  cases b with
  | false => exact hequal
  | true => exact absurd (Equals.identity?_eq hequal hl) hne

/-- What has an identity equals itself. -/
theorem equals_self_of_identity? (h : v.identity? ≠ none) : Equals v v := by
  refine equals_self ?_ ?_ <;> cases v <;> simp_all [identity?, isSignal, type]

/-- What has no identity and can be equal to anything is a number, a truth value, `null` or a builtin
function. -/
theorem Equals.type_mem (h : Equals l r) (hid : l.identity? = none) :
    l.type ∈ [.integer, .boolean, .null, .builtin] := by
  have hhandle := (equals_iff.1 h).1
  cases l <;> simp_all [handle?, identity?, type]

end Value

/-! ## Objects of a course -/

namespace Course

variable {sink : Sink} {programs : List Program} {past : List Machine} {m : Machine} {l r : Value}
  (h : Course sink programs past m)

include h

/-- In a course, what equals something with an identity is that object. -/
theorem eq_of_equals (hl : OccursIn (past ++ [m]) l) (hr : OccursIn (past ++ [m]) r)
    (hid : l.identity? ≠ none) (hequals : l.Equals r) : l = r := by
  obtain ⟨i, hi⟩ := Option.ne_none_iff_exists'.1 hid
  exact h.eq_of_identity? hl hr hi ((hequals.identity?_eq hid).symm.trans hi)

/-- In a course, what `==` finds equal is equal in all its parts. -/
theorem same_of_equals (hl : OccursIn (past ++ [m]) l) (hr : OccursIn (past ++ [m]) r)
    (hequals : l.Equals r) : l.same r = true := by
  by_cases hid : l.identity? = none
  · exact (Value.equals_iff_same (hequals.type_mem hid)).1 hequals
  · rw [h.eq_of_equals hl hr hid hequals]
    exact Value.same_equivalence.refl r

/-- In a course, arrays, hashes and functions are equal when they were made at one moment. -/
theorem equals_iff_madeAt (hl : OccursIn (past ++ [m]) l) (hr : OccursIn (past ++ [m]) r)
    (hid : l.identity? ≠ none) :
    l.Equals r ↔ ∃ k, MadeAt past k l ∧ MadeAt past k r := by
  constructor
  · intro hequals
    obtain ⟨k, hk⟩ := h.accounts.origin l hl hid
    exact ⟨k, hk, h.eq_of_equals hl hr hid hequals ▸ hk⟩
  · rintro ⟨k, hk, hk'⟩
    rw [← hk.unique hk']
    exact Value.equals_self_of_identity? hid

/-- What was made at different moments is not equal. -/
theorem binary_of_madeAt_ne {k k' : Nat} (hl : MadeAt past k l) (hr : MadeAt past k' r) (hne : k ≠ k') :
    Value.binary l (.symbol .equal) r = .ok (.boolean false) :=
  Value.binary_equal_eq_false hl.identity?_ne_none fun heq =>
    hne (h.accounts.moment k k' l r hl hr heq)

end Course

/-! ## Literals are made anew -/

/-- The literals that make something with an identity. -/
inductive Expr.MakesAnew {μ : Type} : Expr μ → Prop where
  /-- An array literal. -/
  | array (elements : List (Expr μ)) : MakesAnew (.array elements)
  /-- A hash literal. -/
  | hash (pairs : List (Expr μ × Expr μ)) : MakesAnew (.hash pairs)
  /-- A function literal. -/
  | function (mark : μ) (parameters : List String) (body : List (Stmt μ)) :
    MakesAnew (.function mark parameters body)

/-- What is left to do of such a literal. -/
inductive Task.MakesAnew : Task → Prop where
  /-- All of it. -/
  | expression (scope : ScopeId) {e : Expr Site} (h : e.MakesAnew) : MakesAnew (.expression scope e)
  /-- Further elements. -/
  | elements (scope : ScopeId) (done : List Value) (es : List (Expr Site)) :
    MakesAnew (.elements scope done es)
  /-- Further pairs. -/
  | entries (scope : ScopeId) (table : Table (Value × Value)) (pairs : List (Expr Site × Expr Site)) :
    MakesAnew (.entries scope table pairs)
  /-- Filing an entry, and further pairs. -/
  | file (scope : ScopeId) (table : Table (Value × Value)) (key : Value) (value : Expr Site)
    (pairs : List (Expr Site × Expr Site)) : MakesAnew (.operate (.file scope table key value pairs))

/-- How such a task goes on: it makes something or fails, or such a task is left. -/
def Move.MakesAnew (t : Task) (w : World) : Move → Prop
  | done v _ => v.isSignal = true ∨ t.Makes w v
  | become t' w' => t'.MakesAnew ∧ w' = w
  | await _ f => ∀ u, (f.next u).MakesAnew
  | enter _ _ => False

theorem Task.MakesAnew.begin {t : Task} (h : t.MakesAnew) (w : World) :
    (t.begin w).MakesAnew t w := by
  cases h with
  | expression scope h =>
    cases h with
    | array elements => exact ⟨.elements scope [] elements, rfl⟩
    | hash pairs => exact ⟨.entries scope [] pairs, rfl⟩
    | function mark parameters body => exact .inr (.function scope mark parameters body)
  | elements scope done es =>
    cases es with
    | nil => exact .inr (.array scope done)
    | cons e es => exact fun u => .elements scope _ es
  | entries scope table pairs =>
    cases pairs with
    | nil => exact .inr (.hash scope table)
    | cons pair pairs => exact fun u => .file scope table u pair.2 pairs
  | file scope table key value pairs =>
    rw [Task.begin, Operation.begin]
    cases key.key? with
    | none => exact .inl rfl
    | some hashKey => exact fun u => .entries scope _ pairs

/-- A literal makes something with an identity that was not given away before. -/
theorem Runs.identity_of_makesAnew {depth : Nat} {t : Task} {w w' : World} {v : Value}
    (h : Runs depth t w v w') (ht : t.MakesAnew) (hplain : v.isSignal = false) :
    ∃ i, v.identity? = some i ∧ w.nextIdentity ≤ i ∧ i < w'.nextIdentity := by
  induction h with
  | @done depth t w w' v move =>
    have hanew := ht.begin w
    rw [move] at hanew
    rcases hanew with hsignal | hmakes
    · cases hplain.symm.trans hsignal
    · cases (Move.done.inj (hmakes.begin.2.symm.trans move)).2
      exact ⟨w.nextIdentity, hmakes.begin.1, Nat.le_refl _, Nat.lt_succ_self _⟩
  | @become depth t t' w w₁ w' v move run ih =>
    have hanew := ht.begin w
    rw [move] at hanew
    obtain ⟨ht', rfl⟩ := hanew
    exact ih ht' hplain
  | pass move run signal ih => cases hplain.symm.trans signal
  | @next depth t t' f w w₁ w' u v move first _ run ih ih' =>
    have hanew := ht.begin w
    rw [move] at hanew
    obtain ⟨i, hi, hle, hlt⟩ := ih' (hanew u) hplain
    exact ⟨i, hi, Nat.le_trans first.evolves.identities hle, hlt⟩
  | @enter depth t t' w w₁ w' v move run ih =>
    have hanew := ht.begin w
    rw [move] at hanew
    exact hanew.elim

section

variable {depth : Nat} {scope : ScopeId} {w w' : World} {v : Value}

/-- A name that is not bound to a text is equal to itself. -/
theorem name_equals_itself (depth : Nat) {scope : ScopeId} {x : String} {w : World}
    (hplain : (w.named scope x).isSignal = false) (htype : (w.named scope x).type ≠ .string) :
    (Eval.expression (Eval.apply depth) scope (.binary (.name x) (.symbol .equal) (.name x))).run w =
      some (.boolean true, w) := by
  have hequals := Value.equals_self hplain htype
  have hoperate : Runs depth (Frame.next (w.named scope x) (.right (w.named scope x) (.symbol .equal)))
      w (.boolean true) w := by
    refine .done ?_
    rw [Frame.next, Task.begin, Operation.begin, hequals]
    rfl
  have hname : Runs depth (.expression scope (.name x)) w (w.named scope x) w := .done rfl
  have hright : Runs depth (Frame.next (w.named scope x) (.left scope (.symbol .equal) (.name x)))
      w (.boolean true) w := .next rfl hname hplain hoperate
  have hboth : Runs depth (.expression scope (.binary (.name x) (.symbol .equal) (.name x))) w
      (.boolean true) w := .next rfl hname hplain hright
  exact runs_iff.1 hboth

/-- What two literals make is not equal. -/
theorem literals_not_equal {d e : Expr Site} (hd : d.MakesAnew) (he : e.MakesAnew)
    (h : (Eval.expression (Eval.apply depth) scope (.binary d (.symbol .equal) e)).run w = some (v, w'))
    (hplain : v.isSignal = false) : v = .boolean false := by
  have hrun : Runs depth (.expression scope (.binary d (.symbol .equal) e)) w v w' := runs_iff.2 h
  have hnext {u : Value} {w₁ : World} {P : Prop}
      (hu : u.isSignal = true ∧ v = u ∧ w' = w₁ ∨ u.isSignal = false ∧ P) :
      u.isSignal = false ∧ P :=
    hu.resolve_left fun hsignal => Bool.false_ne_true (hplain.symm.trans (hsignal.2.1 ▸ hsignal.1))
  obtain ⟨l, w₁, first, hl⟩ := hrun.of_await rfl
  obtain ⟨plain, rest⟩ := hnext hl
  obtain ⟨r, w₂, second, hr⟩ := rest.of_await rfl
  obtain ⟨plain', last⟩ := hnext hr
  obtain ⟨i, hi, -, hlt⟩ := first.identity_of_makesAnew (.expression scope hd) plain
  obtain ⟨j, hj, hle, -⟩ := second.identity_of_makesAnew (.expression scope he) plain'
  have hne : l.identity? ≠ r.identity? := by
    rw [hi, hj]
    exact fun heq => Nat.ne_of_lt (Nat.lt_of_lt_of_le hlt hle) (Option.some.inj heq)
  have hfalse := Value.binary_equal_eq_false (by rw [hi]; exact Option.some_ne_none i) hne
  have hgives : Runs depth (.operate (.binary l (.symbol .equal) r)) w₂ (.boolean false) w₂ := by
    refine .done ?_
    rw [Task.begin, Operation.begin, hfalse]
    rfl
  exact (last.unique hgives).1

end

/-- In a course, the operators `==` and `!=` are coherent. They refuse two texts, and on everything else
they give a truth value and its negation. Of what is no text and no signal, everything equals itself, also
under a name, and equality is symmetric and transitive. What is equal is equal in all its parts; for
numbers, truth values, `null` and builtin functions, the two are the same. Arrays, hashes and functions
are equal when they are one object, made at one moment; what different literals make is never equal. -/
theorem comparison_operators_coherent {sink : Sink} {programs : List Program} {past : List Machine}
    {m : Machine} (h : Course sink programs past m) :
    (∀ l r : Value,
      ((∃ fault, Value.binary l (.symbol .equal) r = .error fault) ↔
        l.type = .string ∧ r.type = .string) ∧
      ((∃ fault, Value.binary l (.symbol .notEqual) r = .error fault) ↔
        l.type = .string ∧ r.type = .string) ∧
      (¬ (l.type = .string ∧ r.type = .string) →
        ∃ b, Value.binary l (.symbol .equal) r = .ok (.boolean b) ∧
          Value.binary l (.symbol .notEqual) r = .ok (.boolean !b))) ∧
    (∀ v : Value, v.isSignal = false → v.type ≠ .string → v.Equals v) ∧
    (∀ l r : Value, l.Equals r → r.Equals l) ∧
    (∀ l r x : Value, l.Equals r → r.Equals x → l.Equals x) ∧
    (∀ l r, OccursIn (past ++ [m]) l → OccursIn (past ++ [m]) r → l.Equals r → l.same r = true) ∧
    (∀ l r : Value, l.type ∈ [.integer, .boolean, .null, .builtin] →
      (l.Equals r ↔ l.same r = true)) ∧
    (∀ l r, OccursIn (past ++ [m]) l → OccursIn (past ++ [m]) r →
      l.type ∈ [.array, .hash, .function] →
        (l.Equals r ↔ ∃ k, MadeAt past k l ∧ MadeAt past k r) ∧ (l.Equals r → l = r)) ∧
    (∀ k k' l r, MadeAt past k l → MadeAt past k' r → k ≠ k' →
      Value.binary l (.symbol .equal) r = .ok (.boolean false)) ∧
    (∀ depth scope x w, (World.named w scope x).isSignal = false → (w.named scope x).type ≠ .string →
      (Eval.expression (Eval.apply depth) scope (.binary (.name x) (.symbol .equal) (.name x))).run w =
        some (.boolean true, w)) ∧
    ∀ depth scope d e w v w', Expr.MakesAnew d → Expr.MakesAnew e →
      (Eval.expression (Eval.apply depth) scope (.binary d (.symbol .equal) e)).run w = some (v, w') →
        v.isSignal = false → v = .boolean false := by
  refine ⟨fun l r => ?_, fun _ => Value.equals_self, fun _ _ => .symm, fun _ _ _ => .trans,
    fun _ _ => h.same_of_equals, fun _ _ => Value.equals_iff_same, fun l r hl hr htype => ?_,
    fun _ _ _ _ => h.binary_of_madeAt_ne, fun depth _ _ _ => name_equals_itself depth,
    fun _ _ _ _ _ _ _ => literals_not_equal⟩
  · by_cases hstrings : l.type = .string ∧ r.type = .string
    · have hrefuse (operator : Token) (hne : operator ≠ .symbol .plus) :
          ∃ fault, Value.binary l operator r = .error fault :=
        ⟨_, Value.binary_of_strings hstrings.1 hstrings.2 hne⟩
      exact ⟨iff_of_true (hrefuse _ (by decide)) hstrings, iff_of_true (hrefuse _ (by decide)) hstrings,
        fun hnot => absurd hstrings hnot⟩
    · obtain ⟨b, hequal, hnotEqual⟩ := Value.binary_of_not_strings hstrings
      refine ⟨iff_of_false ?_ hstrings, iff_of_false ?_ hstrings, fun _ => ⟨b, hequal, hnotEqual⟩⟩
      · rintro ⟨fault, hfault⟩
        cases hequal.symm.trans hfault
      · rintro ⟨fault, hfault⟩
        cases hnotEqual.symm.trans hfault
  · have hid := Value.mem_collections_iff.1 htype
    exact ⟨h.equals_iff_madeAt hl hr hid, h.eq_of_equals hl hr hid⟩

/-- A program gives an array with two arrays in it that look alike: one that was bound to a name, and one
that a literal made afterwards. They are equal in all their parts, but they were made at two moments, so
that only each of them equals itself. -/
theorem two_arrays_alike_not_equal :
    let one : Expr Unit := .array [.integer 1]
    let tree : Tree := [.define "a" one, .expression (.array [.name "a", one])]
    let a : Value := .array 0 [.integer 1]
    let b : Value := .array 1 [.integer 1]
    ∃ past w, Course .unlimited [place 0 tree] past ⟨.value (.array 2 [a, b]), [], w⟩ ∧
      (∃ k, MadeAt past k a) ∧ (∃ k, MadeAt past k b) ∧ a.Equals a ∧ ¬ a.Equals b ∧
      a.same b = true := by
  intro one tree a b
  obtain ⟨w, hruns⟩ : ∃ w, Runs 0 (.block globalScope .null (place 0 tree))
      ((World.initial .unlimited).enrol tree).2 (.array 2 [a, b]) w :=
    ⟨_, .next rfl (.next rfl (.become rfl (.next rfl (.done rfl) rfl (.done rfl))) rfl (.done rfl)) rfl
      (.next rfl (.become rfl (.become rfl (.next rfl (runs_bound (.here rfl)) rfl
        (.next rfl (.become rfl (.next rfl (.done rfl) rfl (.done rfl))) rfl (.done rfl))))) rfl
        (.done rfl))⟩
  have hrun := program_eq_some_iff.2 ⟨_, hruns, rfl⟩
  obtain ⟨past, hcourse⟩ := Course.of_program hrun
  obtain ⟨-, -, -, -, -, -, hobjects, -⟩ := comparison_operators_coherent hcourse
  have ha : OccursIn (past ++ [⟨.value (.array 2 [a, b]), [], w⟩]) a :=
    occursIn_of_part (.element List.mem_cons_self .self)
  have hb : OccursIn (past ++ [⟨.value (.array 2 [a, b]), [], w⟩]) b :=
    occursIn_of_part (.element (List.mem_cons_of_mem a List.mem_cons_self) .self)
  have hself : a.Equals a := rfl
  have hother : b.Equals b := rfl
  obtain ⟨k, hk, -⟩ := (hobjects a a ha ha (by decide)).1.1 hself
  obtain ⟨l, hl, -⟩ := (hobjects b b hb hb (by decide)).1.1 hother
  refine ⟨past, w, hcourse, ⟨k, hk⟩, ⟨l, hl⟩, hself, fun hequals => ?_, by rfl⟩
  have heq : a = b := (hobjects a b ha hb (by decide)).2 hequals
  exact absurd (Value.array.inj heq).1 (by decide)

end Monkey
