import Monkey.Proofs.Evaluation.Lasting
import Monkey.Proofs.Evaluation.Truthful
import Monkey.Proofs.Rendering.Functions
import Monkey.Proofs.Rendering.Literals

/-!
# Printed values read back

What a program can come to is printed so that it can be read again. Texts hold no quote, because no
literal does. The text of data is a literal of it, and evaluating that literal makes the same data anew,
because hashes list their entries in the order of their keys.
-/

namespace Monkey

variable {μ ν : Type}

namespace Value

section

variable {f : List Nat → μ → ν}

theorem remark_literals {vs : List Value}
    (h : ∀ v ∈ vs, ∀ path, (v.literal : Expr μ).remark f path = v.literal) (path : List Nat)
    (position : Nat) : remarkExpressions f path position (literals vs) = literals vs := by
  induction vs generalizing position with
  | nil => rfl
  | cons v vs ih =>
    rw [List.forall_mem_cons] at h
    rw [literals, literals, remarkExpressions, h.1, ih h.2]

theorem remark_literalPairs {entries : Table (Value × Value)}
    (hkeys : ∀ e ∈ entries, ∀ path, (e.2.1.literal : Expr μ).remark f path = e.2.1.literal)
    (hvalues : ∀ e ∈ entries, ∀ path, (e.2.2.literal : Expr μ).remark f path = e.2.2.literal)
    (path : List Nat) (position : Nat) :
    remarkPairs f path position (literalPairs entries) = literalPairs entries := by
  induction entries generalizing position with
  | nil => rfl
  | cons e entries ih =>
    rw [List.forall_mem_cons] at hkeys hvalues
    rw [literalPairs, literalPairs, remarkPairs, hkeys.1, hvalues.1, ih hkeys.2 hvalues.2]

theorem remark_scalar {v : Value} (h : v.Scalar) (path : List Nat) :
    (v.literal : Expr μ).remark f path = v.literal := by
  cases h with
  | integer n =>
    rw [literal, literal]
    split
    · rw [Expr.remark]
    · rw [Expr.remark, Expr.remark]
  | boolean b => rw [literal, literal, Expr.remark]

/-- A literal of data has no marks. -/
theorem Data.remark_literal {v : Value} (h : v.Data) (path : List Nat) :
    (v.literal : Expr μ).remark f path = v.literal := by
  induction h generalizing path with
  | scalar h => exact remark_scalar h path
  | array _ _ ih => rw [literal, literal, Expr.remark, remark_literals ih]
  | hash _ keys _ ih =>
    rw [literal, literal, Expr.remark, remark_literalPairs (fun e he => remark_scalar (keys e he)) ih]

end

end Value

/-- An entry whose key is above all others comes last. -/
theorem Table.insert_of_forall_lt {α : Type} {key : HashKey} {entry : α} {t : Table α}
    (h : ∀ x ∈ t, x.1 < key) : insert key entry t = t ++ [(key, entry)] := by
  induction t with
  | nil => rfl
  | cons x t ih =>
    obtain ⟨k, old⟩ := x
    rw [List.forall_mem_cons] at h
    have hlt : k.rank < key.rank := h.1
    have hnot : ¬ key < k := fun hk => Nat.lt_asymm hlt hk
    have hne : k ≠ key := fun heq => Nat.lt_irrefl _ (heq ▸ hlt)
    rw [insert, if_neg hnot, if_neg hne, ih h.2, List.cons_append]

/-- Whether keys ascend does not depend on what is filed under them. -/
theorem Table.ascending_iff_keys {α : Type} {t : Table α} :
    Ascending t ↔ (t.map (·.1)).Pairwise (· < ·) := List.pairwise_map.symm

/-- Two worlds have the same scopes and the same output. -/
structure World.Quiet (w w' : World) : Prop where
  /-- What is bound is the same. -/
  scopes : w'.scopes = w.scopes
  /-- What has been written is the same. -/
  sink : w'.sink = w.sink

variable {w w₁ w' : World} {v : Value} {vs : List Value} {scope : ScopeId} {depth : Nat}

theorem World.Quiet.refl (w : World) : w.Quiet w := ⟨rfl, rfl⟩

theorem World.Quiet.trans (h : w.Quiet w₁) (h' : w₁.Quiet w') : w.Quiet w' :=
  ⟨h'.scopes.trans h.scopes, h'.sink.trans h.sink⟩

/-- Wherever an expression is evaluated, its value is the same as the given one, and nothing else
happens. -/
def Expr.Remakes (e : Expr Site) (v : Value) : Prop :=
  ∀ depth scope w, ∃ u w', Runs depth (.expression scope e) w u w' ∧ v.same u = true ∧
    u.isSignal = false ∧ w.Quiet w'

/-- A number or a truth value is made anew as it is. -/
theorem Value.Scalar.runs_literal (h : v.Scalar) (depth : Nat) (scope : ScopeId) (w : World) :
    Runs depth (.expression scope v.literal) w v w := by
  cases h with
  | boolean b =>
    rw [Value.literal]
    exact .done rfl
  | integer n =>
    rw [Value.literal]
    split
    · exact .done rfl
    · have hneg : Runs depth (Frame.next (.integer (-n)) (.unary (.symbol .minus))) w (.integer n) w :=
        .done (by simp [Frame.next, Task.begin, Operation.begin, Value.unary, Value.ofResult])
      exact .next rfl (.done rfl) rfl hneg

theorem Value.Scalar.same_self (h : v.Scalar) : v.same v = true := by
  cases h <;> simp [Value.same]

theorem Value.Scalar.isSignal_eq (h : v.Scalar) : v.isSignal = false := by
  cases h <;> rfl

theorem Value.Scalar.remakes (h : v.Scalar) : Expr.Remakes v.literal v :=
  fun depth scope w => ⟨v, w, h.runs_literal depth scope w, h.same_self, h.isSignal_eq, .refl w⟩

/-- Elements that are made anew make the same array. -/
theorem remakes_elements (h : ∀ v ∈ vs, Expr.Remakes v.literal v) (done : List Value) (w : World) :
    ∃ identity us w', Runs depth (.elements scope done (Value.literals vs)) w
      (.array identity (done ++ us)) w' ∧ Value.sameElements vs us = true ∧ w.Quiet w' := by
  induction vs generalizing done w with
  | nil =>
    refine ⟨w.takeIdentity.1, [], w.takeIdentity.2, .done ?_, by rw [Value.sameElements], ⟨rfl, rfl⟩⟩
    rw [List.append_nil]
    rfl
  | cons v vs ih =>
    rw [List.forall_mem_cons] at h
    obtain ⟨u, w₁, hrun, hsame, hplain, hquiet⟩ := h.1 depth scope w
    obtain ⟨identity, us, w', hrest, hothers, hquiet'⟩ := ih h.2 (done ++ [u]) w₁
    rw [List.append_assoc, List.singleton_append] at hrest
    refine ⟨identity, u :: us, w', .next rfl hrun hplain hrest, ?_, hquiet.trans hquiet'⟩
    rw [Value.sameElements, hsame, hothers, Bool.and_self]

/-- Entries that are made anew in the order of their keys make the same hash. -/
theorem remakes_entries {entries done : Table (Value × Value)} (keys : ∀ e ∈ entries, e.2.1.Scalar)
    (filed : ∀ e ∈ entries, e.2.1.key? = some e.1)
    (values : ∀ e ∈ entries, Expr.Remakes e.2.2.literal e.2.2)
    (ascending : Table.Ascending (done ++ entries)) (w : World) :
    ∃ identity us w', Runs depth (.entries scope done (Value.literalPairs entries)) w
      (.hash identity (done ++ us)) w' ∧ Value.sameEntries entries us = true ∧ w.Quiet w' := by
  induction entries generalizing done w with
  | nil =>
    refine ⟨w.takeIdentity.1, [], w.takeIdentity.2, .done ?_, by rw [Value.sameEntries], ⟨rfl, rfl⟩⟩
    rw [List.append_nil]
    rfl
  | cons e entries ih =>
    obtain ⟨key, k, v⟩ := e
    rw [List.forall_mem_cons] at keys filed values
    obtain ⟨u, w₁, hrun, hsame, hplain, hquiet⟩ := values.1 depth scope w
    have hlast : Table.insert key (k, u) done = done ++ [(key, k, u)] :=
      Table.insert_of_forall_lt fun x hx =>
        (List.pairwise_append.1 ascending).2.2 x hx (key, k, v) List.mem_cons_self
    have hnext : Table.Ascending ((done ++ [(key, k, u)]) ++ entries) := by
      rw [Table.ascending_iff_keys] at ascending ⊢
      simpa using ascending
    obtain ⟨identity, us, w', hrest, hothers, hquiet'⟩ := ih keys.2 filed.2 values.2 hnext w₁
    rw [List.append_assoc, List.singleton_append] at hrest
    have hfile : (Task.operate (.file scope done k v.literal (Value.literalPairs entries))).begin w =
        .await (.expression scope v.literal) (.entry scope done key k (Value.literalPairs entries)) := by
      have hkey : k.key? = some key := filed.1
      simp only [Task.begin, Operation.begin, hkey]
    have hentry : Runs depth (Frame.next u (.entry scope done key k (Value.literalPairs entries))) w₁
        (.hash identity (done ++ (key, k, u) :: us)) w' := by
      rw [Frame.next, hlast]
      exact hrest
    refine ⟨identity, (key, k, u) :: us, w', .next rfl (keys.1.runs_literal depth scope w)
      keys.1.isSignal_eq (.next hfile hrun hplain hentry), ?_, hquiet.trans hquiet'⟩
    simp only [Value.sameEntries, keys.1.same_self, hsame, hothers, beq_self_eq_true, Bool.and_self]

/-- The literal of data makes the same data. -/
theorem Value.Data.remakes (h : v.Data) (horderly : v.Throughout Orderly) :
    Expr.Remakes v.literal v := by
  induction h with
  | scalar h => exact h.remakes
  | array identity _ ih =>
    intro depth scope w
    have helements := fun v hv => ih v hv ((throughout_array.1 horderly).2 v hv)
    obtain ⟨other, us, w', hrun, hsame, hquiet⟩ := remakes_elements helements [] w
    rw [literal]
    exact ⟨_, w', .become rfl hrun, by rwa [same], rfl, hquiet⟩
  | @hash identity entries keys _ ih =>
    intro depth scope w
    obtain ⟨⟨⟨hascending, hkeys⟩, -⟩, hentries⟩ := throughout_hash.1 horderly
    have hvalues := fun e he => ih e he (hentries e he).2
    obtain ⟨other, us, w', hrun, hsame, hquiet⟩ :=
      @remakes_entries scope depth entries [] keys hkeys hvalues hascending w
    rw [literal]
    exact ⟨_, w', .become rfl hrun, by rwa [same], rfl, hquiet⟩

/-- A text makes the same text. -/
theorem remakes_string (text : String) : Expr.Remakes (.string text) (.string text) :=
  fun _ _ w => ⟨_, w, .done rfl, by simp [Value.same], rfl, .refl w⟩

/-- What is read as an expression that makes the same value is answered with that value, and nothing
else happens. -/
theorem interpret_of_remakes {source : String} {e : Expr Unit} {e' : Expr Site}
    (read : parse source = .ok [.expression e]) (h : e'.Remakes v)
    (hmark : ∀ (f : List Nat → Unit → Site) path, e.remark f path = e') (w : World) (depth : Nat)
    (scope : ScopeId) :
    ∃ u w', w.interpret depth scope source = (.answered u, w') ∧ v.same u = true ∧ w.Quiet w' := by
  obtain ⟨u, w', hrun, hsame, hplain, hquiet⟩ := h depth scope (w.enrol [.expression e]).2
  have hprogram : (w.enrol [.expression e]).1 = [.expression e'] := by
    rw [World.enrol, place, remarkBlock, remarkBlock, Stmt.remark, hmark]
  have hdelivered : u.delivered = u := by
    cases u with
    | returned u => cases hplain
    | _ => rfl
  have hresult : Eval.program depth scope (w.enrol [.expression e]).1 (w.enrol [.expression e]).2 =
      some (u, w') := by
    refine program_eq_some_iff.2 ⟨u, ?_, hdelivered.symm⟩
    rw [hprogram]
    exact .next rfl (.become rfl hrun) hplain (.done rfl)
  refine ⟨u, w', ?_, hsame, ⟨hquiet.scopes, hquiet.sink⟩⟩
  simp only [World.interpret, read, hresult]

/-- What is printed of a value for a reader of code is read as that value, as far as it can be read. -/
structure Value.ReadsBack (v : Value) : Prop where
  /-- A text, or data without the least number, is read back anywhere, and nothing else happens. -/
  answered : (∃ text, v = .string text) ∨ v.Data ∧ ¬ v.HasLeast → ∀ (w : World) depth scope,
    ∃ u w', w.interpret depth scope v.code = (.answered u, w') ∧ v.same u = true ∧ w.Quiet w'
  /-- Data with the least number in it is refused. -/
  refused : v.Data → v.HasLeast → ∃ diagnostics, parse v.code = .error diagnostics

/-- Data is printed as it is. -/
theorem Value.Data.code_eq (h : v.Data) : v.code = v.inspect := by
  cases h with
  | scalar h => cases h <;> rfl
  | array identity h => rfl
  | hash identity keys values => rfl

/-- A value that is in order in all its parts is read back. -/
theorem Value.readsBack (h : v.Throughout Orderly) : v.ReadsBack where
  answered := by
    rintro (⟨text, rfl⟩ | ⟨hdata, hleast⟩)
    · exact interpret_of_remakes (means_string (h _ .self).2).parse (remakes_string text)
        fun f path => by rw [Expr.remark]
    · rw [hdata.code_eq]
      exact interpret_of_remakes (means_literal hdata hleast).parse (hdata.remakes h)
        fun f path => hdata.remark_literal path
  refused hdata hleast := by
    rw [hdata.code_eq]
    exact parse_inspect_of_hasLeast hdata hleast

/-- A value occurs in a state of a machine: it is a part of one that the state has in it. -/
inductive Machine.Has (m : Machine) (v : Value) : Prop where
  /-- The task begins with the value. -/
  | task {t : Task} {u : Value} (control : m.control = .task t) (mem : u ∈ t.values)
      (part : Value.Part v u)
  /-- The machine is at the value. -/
  | value {u : Value} (control : m.control = .value u) (part : Value.Part v u)
  /-- A frame keeps the value. -/
  | frame {f : Frame} {u : Value} (level : .frame f ∈ m.levels) (mem : u ∈ f.values)
      (part : Value.Part v u)
  /-- A name is bound to the value. -/
  | bound {s : Scope} {b : String × Value} (scope : s ∈ m.world.scopes) (binding : b ∈ s.bindings)
      (part : Value.Part v b.2)

theorem Machine.Keeps.has {R : Nat → Value → Prop} {Q : Nat → ScopeId → Prop} {S : Expr Site → Prop}
    {m : Machine} (h : m.Keeps R Q S) (hv : m.Has v) : R m.world.scopes.size v := by
  cases hv with
  | task control mem part => exact (h.task _ control).values _ mem v part
  | value control part => exact h.value _ control v part
  | frame level mem part => exact (h.levels _ level).1.values _ mem v part
  | bound scope binding part => exact h.world _ scope _ binding v part

/-- A value has no text with a quote in it. -/
def Value.Unquoted (v : Value) : Prop := ∀ text, Part (.string text) v → '"' ∉ text.toList

/-- Whenever source texts are read and run one after another in one scope that is empty at first, no
text with a quote comes up, every function that comes up is printed as a literal of it, and the result is
printed so that it is read back. -/
theorem printed_values_read_back {sink : Sink} (h : Transcript sink w) {source : String} {tree : Tree}
    (read : parse source = .ok tree) (scope : ScopeId) :
    (∀ m, Machine.Steps (.start scope (w.enrol tree).1 (w.enrol tree).2) m →
      (∀ text, m.Has (.string text) → '"' ∉ text.toList) ∧
        ∀ identity f, m.Has (.function identity f) →
          parse f.render = .ok [.expression (.function () f.parameters (erase f.body))]) ∧
    ∀ depth v w', (Eval.program depth scope (w.enrol tree).1).run (w.enrol tree).2 = some (v, w') →
      v.Unquoted ∧ w'.Binds Value.Unquoted ∧ v.ReadsBack := by
  have hstart := Machine.keeps_enrol lasting_orderly read (h.keeps lasting_orderly) scope
  have hunquoted {v : Value} (hv : v.Throughout Value.Orderly) : v.Unquoted :=
    fun text hpart => (hv _ hpart).2
  constructor
  · intro m hsteps
    have hm := hstart.steps lasting_orderly hsteps
    refine ⟨fun text htext => (hm.has htext).2, fun identity f hf => ?_⟩
    obtain ⟨-, names, body⟩ := hm.has hf
    exact (means_closure names body).parse
  · intro depth v w' result
    have hend := hstart.steps lasting_orderly (Machine.steps_of_program result)
    have hv := hend.value v rfl
    exact ⟨hunquoted hv, fun s hs b hb => hunquoted (hend.world s hs b hb), Value.readsBack hv⟩

/-- A first text binds a text. A second one defines a function and makes an array with a negative number in
it. The text that is still bound then has no quote, the function is printed as a literal of it, and the
array is printed without the parentheses and read back. -/
theorem text_function_and_array_read_back :
    let first : Tree := [.define "s" (.string "a")]
    let second : Tree := [.define "f" (.function () ["x"] [.expression (.name "x")]),
      .expression (.array [.unary (.symbol .minus) (.integer 1), .boolean true])]
    let v : Value := .array 1 [.integer (-1), .boolean true]
    ∃ w w' f, parse "let s = \"a\"" = .ok first ∧ Transcript .unlimited w ∧
      parse "let f = fn(x) \x7b x \x7d; [(-1), true]" = .ok second ∧
      (Eval.program 0 globalScope (w.enrol second).1).run (w.enrol second).2 = some (v, w') ∧
      (Machine.mk (.value v) [] w').Has (.string "a") ∧
      (Machine.mk (.value v) [] w').Has (.function 0 f) ∧ '"' ∉ "a".toList ∧
      f.render = "fn(x) \x7b\nx\n\x7d" ∧
      parse f.render = .ok [.expression (.function () ["x"] [.expression (.name "x")])] ∧
      v.Unquoted ∧ w'.Binds Value.Unquoted ∧ v.code = "[-1, true]" ∧ v.ReadsBack := by
  intro first second v
  have hs : IsName "s" := isName_of_small (by decide) (by simp) fun k => by cases k <;> decide
  have hf : IsName "f" := isName_of_small (by decide) (by simp) fun k => by cases k <;> decide
  have hx : IsName "x" := isName_of_small (by decide) (by simp) fun k => by cases k <;> decide
  have hfirst : WellFormed first :=
    ⟨List.forall_mem_singleton.2 hs, List.forall_mem_singleton.2 (.string (by decide))⟩
  have hfunction : Expr.WellFormed (.function () ["x"] [.expression (.name "x")]) :=
    .function () (List.forall_mem_singleton.2 hx) (List.forall_mem_singleton.2 trivial)
      (List.forall_mem_singleton.2 (.name hx))
  have harray : Expr.WellFormed
      (.array [.unary (.symbol .minus) (.integer 1), .boolean true] : Expr Unit) :=
    .array (List.forall_mem_cons.2 ⟨.unary (by decide) (.integer (by decide)),
      List.forall_mem_singleton.2 (.boolean true)⟩)
  have hsecond : WellFormed second :=
    ⟨List.forall_mem_cons.2 ⟨hf, List.forall_mem_singleton.2 trivial⟩,
      List.forall_mem_cons.2 ⟨hfunction, List.forall_mem_singleton.2 harray⟩⟩
  have read : parse "let s = \"a\"" = .ok first := @parse_renderBlock_of_wellFormed first hfirst
  have read' : parse "let f = fn(x) \x7b x \x7d; [(-1), true]" = .ok second :=
    @parse_renderBlock_of_wellFormed second hsecond
  let w : World := ((World.initial .unlimited).enrol first).2.define globalScope "s" (.string "a")
  have h : Transcript .unlimited w :=
    @Transcript.run .unlimited _ w _ _ 0 globalScope .null .start read rfl
  let f : Closure := ⟨["x"], [.expression (.name "x")], ⟨1, [0, 0]⟩, globalScope⟩
  let w' : World :=
    ((w.enrol second).2.takeIdentity.2.define globalScope "f" (.function 0 f)).takeIdentity.2
  have result : (Eval.program 0 globalScope (w.enrol second).1).run (w.enrol second).2 =
      some (v, w') := rfl
  let bindings : Bindings := [("s", .string "a"), ("f", .function 0 f)]
  have hscope : ⟨bindings, none⟩ ∈ w'.scopes := by
    have hglobal : w'.scopes[globalScope]? = some ⟨bindings, none⟩ := rfl
    exact Array.mem_of_getElem? hglobal
  have htext : (Machine.mk (.value v) [] w').Has (.string "a") :=
    .bound hscope List.mem_cons_self .self
  have hclosure : (Machine.mk (.value v) [] w').Has (.function 0 f) :=
    .bound hscope (List.mem_cons_of_mem _ List.mem_cons_self) .self
  obtain ⟨hstates, hresult⟩ := printed_values_read_back h read' globalScope
  obtain ⟨htexts, hfunctions⟩ := hstates _ (Machine.steps_of_program result)
  obtain ⟨hunquoted, hbound, hback⟩ := hresult 0 v w' result
  exact ⟨w, w', f, read, h, read', result, htext, hclosure, htexts "a" htext, rfl,
    hfunctions 0 f hclosure, hunquoted, hbound, rfl, hback⟩

end Monkey
