import Monkey.Proofs.Evaluation.Lasting
import Monkey.Proofs.Evaluation.Nesting

/-!
# Termination

Only calls that stay active without end keep an evaluation from its end. If there is a bound on the
calls that are active at once, there is a value; and to give up at a bound is to come to where one more
call is active. Without a call there is nothing to bound, and there is none for one of two reasons:
there are no call expressions, or there are no functions to call. Both are stable conditions, so they
are those of all states of a run.
-/

namespace Monkey

variable {μ : Type}

/-- No call stands in the expression. -/
def Expr.CallFree (e : Expr μ) : Prop := ∀ callee arguments, ¬ (Expr.call callee arguments).Within e

/-- No function literal stands in the expression. -/
def Expr.FunctionFree (e : Expr μ) : Prop :=
  ∀ site parameters body, ¬ (Expr.function site parameters body).Within e

/-- What is not an expression and stands in none of its parts does not stand in it. -/
theorem Expr.not_within {d e : Expr μ} (h : d ≠ e) (hparts : ∀ c ∈ e.children, ¬ d.Within c) :
    ¬ d.Within e := by
  rw [within_iff]
  rintro (heq | ⟨c, mem, hc⟩)
  · exact h heq
  · exact hparts c mem hc

/-- No function is a part of the value, nor is the value one. -/
def Value.Functionless (v : Value) : Prop := v.Throughout fun u => u.type ≠ .function

/-- No function is bound in a scope that can be reached from the given one. -/
def World.Functionless (scope : ScopeId) (w : World) : Prop :=
  ∀ s, w.Reaches (· = scope) s → ∀ name v, w.binding? name s = some v → v.Functionless

/-- What evaluation never calls a function under, in one scope: everything meets a condition that lasts,
and where there is a call expression, no function meets it. -/
structure Quiet (P : Value → Prop) (S : Expr Site → Prop) (W : World → Prop) (scope : ScopeId) : Prop
    extends Stable P (· = scope) S (∀ identity f, ¬ P (.function identity f)) W fun _ _ => False where
  /-- What is delivered meets the condition. -/
  delivered : ∀ v, P v → P v.delivered

namespace Machine

/-- Everything in a state meets some conditions, and no call is active. -/
structure Quiet (P : Value → Prop) (S : Expr Site → Prop) (W : World → Prop) (scope : ScopeId)
    (m : Machine) : Prop where
  /-- The world meets its condition. -/
  world : W m.world
  /-- What frames keep meets the conditions. -/
  levels : ∀ f, Level.frame f ∈ m.levels → f.Meets P (· = scope) S (∀ identity g, ¬ P (.function identity g))
  /-- What the task begins with meets them. -/
  task : ∀ t, m.control = .task t → t.Meets P (· = scope) S (∀ identity g, ¬ P (.function identity g))
  /-- The value meets its condition. -/
  value : ∀ v, m.control = .value v → P v
  /-- No call is active. -/
  inactive : m.active = 0

/-- There is a value in the end. -/
def Terminates (m : Machine) : Prop := ∃ v w', Steps m ⟨.value v, [], w'⟩

/-- No function is in the state or can be reached from it: neither the task nor the value nor what waits
has one, nor is one bound in what can be reached from the scope. -/
structure Functionless (scope : ScopeId) (m : Machine) : Prop where
  /-- The task begins with no functions. -/
  task : ∀ t, m.control = .task t → ∀ v ∈ t.values, v.Functionless
  /-- The value is no function, and it has none. -/
  value : ∀ v, m.control = .value v → v.Functionless
  /-- No frame keeps a function. -/
  levels : ∀ f, Level.frame f ∈ m.levels → ∀ v ∈ f.values, v.Functionless
  /-- No function is bound. -/
  world : m.world.Functionless scope

variable {P : Value → Prop} {S : Expr Site → Prop} {W : World → Prop} {scope : ScopeId} {w : World}
  {t : Task} {v : Value} {m m' : Machine} {levels : List Level} {program : Program}

theorem Quiet.of_task (ht : t.Meets P (· = scope) S (∀ identity g, ¬ P (.function identity g)))
    (hl : ∀ f, Level.frame f ∈ levels →
      f.Meets P (· = scope) S (∀ identity g, ¬ P (.function identity g)))
    (hw : W w) (hactive : boundaries levels - 1 = 0) : Quiet P S W scope ⟨.task t, levels, w⟩ where
  world := hw
  levels := hl
  task := by
    rintro _ ⟨⟩
    exact ht
  value := by rintro _ ⟨⟩
  inactive := hactive

theorem Quiet.of_value (hv : P v)
    (hl : ∀ f, Level.frame f ∈ levels →
      f.Meets P (· = scope) S (∀ identity g, ¬ P (.function identity g)))
    (hw : W w) (hactive : boundaries levels - 1 = 0) : Quiet P S W scope ⟨.value v, levels, w⟩ where
  world := hw
  levels := hl
  task := by rintro _ ⟨⟩
  value := by
    rintro _ ⟨⟩
    exact hv
  inactive := hactive

/-- A step keeps the conditions, and it calls no function. -/
theorem Quiet.step (hP : Monkey.Quiet P S W scope) (hm : m.Quiet P S W scope) (h : m.step = some m') :
    m'.Quiet P S W scope := by
  have hactive := hm.inactive
  cases turn_of_step h with
  | done move =>
    have hmeets := hP.begin hm.world (hm.task _ rfl)
    rw [move] at hmeets
    exact .of_value hmeets.1 hm.levels hmeets.2 hactive
  | become move =>
    have hmeets := hP.begin hm.world (hm.task _ rfl)
    rw [move] at hmeets
    exact .of_task hmeets.1 hm.levels hmeets.2 hactive
  | await move =>
    have hmeets := hP.begin hm.world (hm.task _ rfl)
    rw [move] at hmeets
    refine .of_task hmeets.1 (fun g hg => ?_) hm.world hactive
    rcases List.mem_cons.1 hg with hg | hg
    · cases hg
      exact hmeets.2
    · exact hm.levels g hg
  | enter move =>
    have hmeets := hP.begin hm.world (hm.task _ rfl)
    rw [move] at hmeets
    exact hmeets.elim
  | pass signal =>
    exact .of_value (hm.value _ rfl) (fun f hf => hm.levels f (List.mem_cons_of_mem _ hf)) hm.world
      hactive
  | next plain =>
    exact .of_task (hP.next (hm.levels _ List.mem_cons_self) (hm.value _ rfl))
      (fun f hf => hm.levels f (List.mem_cons_of_mem _ hf)) hm.world hactive
  | leave =>
    refine .of_value (hP.delivered _ (hm.value _ rfl))
      (fun f hf => hm.levels f (List.mem_cons_of_mem _ hf)) hm.world ?_
    rw [active, boundaries_boundary] at hactive
    omega

/-- All states of the run of a program meet conditions that are quiet, if the program does. -/
theorem Quiet.of_steps (hP : Monkey.Quiet P S W scope) (hw : W w) (hprogram : ∀ s ∈ program, S s.value)
    (h : Steps (start scope program w) m) : m.Quiet P S W scope := by
  refine h.invariant (fun _ _ hm hstep => hm.step hP hstep)
    (.of_task ⟨⟨?_, ?_, List.forall_mem_map.2 hprogram⟩, False.elim⟩ (by simp) hw rfl)
  · exact List.forall_mem_singleton.2 hP.hereditary.null
  · rintro _ ⟨⟩
    rfl

/-- Under conditions that are quiet, a program has a value when no call may be active. -/
theorem exists_program_of_quiet (hP : Monkey.Quiet P S W scope) (hw : W w)
    (hprogram : ∀ s ∈ program, S s.value) :
    ∃ v w', (Eval.program 0 scope program).run w = some (v, w') :=
  exists_program_of_active_le fun _ hm => Nat.le_of_eq (Quiet.of_steps hP hw hprogram hm).inactive

/-- When there is a last state, some bound on the calls that are active is kept all the way. -/
theorem exists_bound_of_steps {last : Machine} (h : Steps m last) (hlast : last.step = none) :
    ∃ depth, ∀ m', Steps m m' → m'.active ≤ depth := by
  induction h using Relation.ReflTransGen.head_induction_on with
  | refl =>
    refine ⟨last.active, fun m' hm' => ?_⟩
    rcases hm'.cases_head with rfl | ⟨m₁, hstep, -⟩
    · exact Nat.le_refl _
    · cases hlast.symm.trans hstep
  | @head m m₁ hstep _ ih =>
    obtain ⟨depth, hdepth⟩ := ih
    refine ⟨max m.active depth, fun m' hm' => ?_⟩
    rcases hm'.eq_or_after hstep with rfl | hm'
    · exact Nat.le_max_left _ _
    · exact (hdepth m' hm').trans (Nat.le_max_right _ _)

/-- What the machine comes to in the end is what the evaluator gives at some bound. -/
theorem exists_program_of_steps {w' : World}
    (h : Steps (start scope program w) ⟨.value v, [], w'⟩) :
    ∃ depth, (Eval.program depth scope program).run w = some (v, w') := by
  obtain ⟨depth, hdepth⟩ := exists_bound_of_steps h rfl
  obtain ⟨u, w₁, hrun⟩ := exists_program_of_active_le hdepth
  have hsame := (steps_of_program hrun).last h rfl
  rcases hsame.cases_head with heq | ⟨m, hm, -⟩
  · cases heq
    exact ⟨depth, hrun⟩
  · cases hm

end Machine

/-- All values are admitted where there are no call expressions. -/
theorem quiet_callFree (scope : ScopeId) :
    Quiet (fun _ => True) (@Expr.CallFree Site) (fun _ => True) scope where
  hereditary :=
    ⟨fun _ => trivial, fun _ => trivial, trivial, fun _ => trivial, fun _ _ _ _ => trivial,
      fun _ _ => iff_of_true trivial fun _ _ => trivial, fun _ _ _ _ _ => trivial⟩
  string _ _ := trivial
  error _ := trivial
  returned _ _ := trivial
  empty _ := trivial
  filed _ _ _ _ _ _ _ _ _ := trivial
  renewed _ _ _ _ := trivial
  function _ _ _ _ _ _ _ := trivial
  call callee arguments h := absurd (Expr.Within.refl _) (h callee arguments)
  parts _ h _ mem callee arguments hd := h callee arguments (hd.of_child mem)
  named _ _ _ _ _ := trivial
  define _ _ _ _ _ _ _ := trivial
  congr _ _ _ _ := trivial
  enter _ identity f _ _ h hf _ := h identity f hf
  delivered _ _ := trivial

/-- Where there are no function literals, not to be a function is a property that lasts. -/
theorem lasting_functionless :
    Lasting (fun _ v => v.type ≠ .function) (fun _ _ => True) (@Expr.FunctionFree Site) where
  plain n v h heq := h (by simp [heq])
  joined n s t _ _ := by simp [Value.type]
  string n text _ := by simp [Value.type]
  function n identity site parameters body scope h _ := absurd (Expr.Within.refl _) (h site parameters body)
  closure n identity f h := absurd rfl h
  empty n identity := by simp [Value.type]
  insert n identity table key k v _ _ := by simp [Value.type]
  renewed n identity other table _ := by simp [Value.type]
  later m n v h _ := h
  admitted m n scope h _ := h
  opened n := trivial
  parts e h d mem site parameters body hd := h site parameters body (hd.of_child mem)

namespace World

variable {w w' : World} {scope : ScopeId}

/-- What is bound after a name is bound is the new value or was bound before. -/
theorem eq_or_binding?_of_define {name sought : String} {s : ScopeId} {u v : Value}
    (h : (w.define scope name v).binding? sought s = some u) :
    u = v ∨ w.binding? sought s = some u := by
  simp only [binding?, Scopes.binding?, define, Array.getElem?_modify] at h ⊢
  split at h
  · cases hs : w.scopes[s]? with
    | none => simp [hs] at h
    | some old =>
      simp only [hs, Option.map_some, Option.bind_some, Scope.define, Bindings.lookup_bind] at h ⊢
      split at h
      · exact .inl (Option.some.inj h).symm
      · exact .inr h
  · exact .inr h

/-- Nothing new can be reached when a name is bound to a value without functions. -/
theorem Functionless.define (h : w.Functionless scope) (name : String) {v : Value}
    (hv : v.Functionless) : (w.define scope name v).Functionless scope := by
  have hbound (s : ScopeId) (hs : w.Reaches (· = scope) s) (sought : String) (u : Value)
      (hu : (w.define scope name v).binding? sought s = some u) : u.Functionless := by
    rcases eq_or_binding?_of_define hu with rfl | hu
    · exact hv
    · exact h s hs sought u hu
  have hreach (s : ScopeId) (hs : (w.define scope name v).Reaches (· = scope) s) :
      w.Reaches (· = scope) s := by
    refine hs.invariant (fun _ hroot => .root hroot) (fun s hs other link => ?_)
      fun s hs sought u hu other hother => ?_
    · rw [outer?_define] at link
      exact .around hs link
    · obtain ⟨identity, f, hpart, -⟩ := hother
      exact absurd rfl (hbound s hs sought u hu _ hpart)
  exact fun s hs => hbound s (hreach s hs)

theorem Functionless.congr (h : w.Functionless scope) (hscopes : w'.scopes = w.scopes) :
    w'.Functionless scope := by
  have hbinding (name : String) (s : ScopeId) : w'.binding? name s = w.binding? name s := by
    rw [binding?, hscopes, binding?]
  have houter (s : ScopeId) : w'.outer? s = w.outer? s := by rw [outer?, hscopes, outer?]
  intro s hs name v hv
  rw [hbinding] at hv
  refine h s (hs.invariant (fun _ hroot => .root hroot) (fun s hs other link => ?_)
    fun s hs sought u hu other hother => ?_) name v hv
  · rw [houter] at link
    exact .around hs link
  · rw [hbinding] at hu
    exact .captured hs hu hother

theorem Functionless.named (h : w.Functionless scope) (text : String) :
    (w.named scope text).Functionless := by
  have hH := lasting_functionless.hereditary 0
  unfold World.named
  split
  · next value hvalue =>
    obtain ⟨other, hreached, hother⟩ := (lookup_eq_some_iff.1 hvalue).exists_binding
      (P := w.Reaches (· = scope)) (.root rfl) fun _ _ hs link => .around hs link
    exact h other hreached text value hother
  · split
    · exact hH.builtin _
    · exact lasting_functionless.error 0 _

end World

/-- Without functions, and without literals of functions, none is ever called. -/
theorem quiet_functionless (scope : ScopeId) :
    Quiet Value.Functionless (@Expr.FunctionFree Site) (World.Functionless scope) scope where
  hereditary := lasting_functionless.hereditary 0
  string text := lasting_functionless.text (n := 0)
  error := lasting_functionless.error 0
  returned v := lasting_functionless.returned (n := 0)
  empty identity := lasting_functionless.hash (n := 0) identity
  filed identity table key k v h hk hkey hv := lasting_functionless.filed (n := 0) h hk hkey hv
  renewed identity other table h := lasting_functionless.anew (n := 0) other h
  function identity site parameters body scope h _ :=
    absurd (Expr.Within.refl _) (h site parameters body)
  call callee arguments h identity f hf := hf _ .self rfl
  parts := lasting_functionless.parts
  named := by
    rintro w _ text hw rfl
    exact hw.named text
  define := by
    rintro w _ name v hw rfl hv
    exact hw.define name hv
  congr w w' := World.Functionless.congr
  enter w identity f arguments hw h hf _ := h identity f hf
  delivered v := Value.Throughout.delivered

namespace Machine

/-- In a run without functions there is none in any state. -/
theorem Quiet.functionless {scope : ScopeId} {m : Machine}
    (h : m.Quiet Value.Functionless Expr.FunctionFree (World.Functionless scope) scope) :
    m.Functionless scope where
  task t ht := (h.task t ht).1.values
  value := h.value
  levels f hf := (h.levels f hf).1.1.values
  world := h.world

end Machine

/-- An evaluation ends just when there is a bound on the calls that are active at once. The evaluator gives
up at a bound just when one more call becomes active; what it gives it also gives at every greater bound,
and it is what the machine, which has no bound, comes to; nor does the machine come to anything else in the
end. A program without call expressions ends with no call active, and so does a program without function
literals in a scope from which no function can be reached; no state of its run has a function. -/
theorem ends_iff_nesting_bounded (scope : ScopeId) (program : Program) (w : World) :
    ((Machine.start scope program w).Terminates ↔
      ∃ depth, ∀ m, Machine.Steps (.start scope program w) m → m.active ≤ depth) ∧
    (∀ depth, (Eval.program depth scope program).run w = none ↔
      ∃ m, Machine.Steps (.start scope program w) m ∧ depth < m.active) ∧
    (∀ depth v w', (Eval.program depth scope program).run w = some (v, w') →
      ∀ deeper, depth ≤ deeper → (Eval.program deeper scope program).run w = some (v, w')) ∧
    (∀ v w', Machine.Steps (.start scope program w) ⟨.value v, [], w'⟩ ↔
      ∃ depth, (Eval.program depth scope program).run w = some (v, w')) ∧
    ((∀ s ∈ program, s.value.CallFree) →
      ∃ v w', (Eval.program 0 scope program).run w = some (v, w')) ∧
    ((∀ s ∈ program, s.value.FunctionFree) → w.Functionless scope →
      (∃ v w', (Eval.program 0 scope program).run w = some (v, w')) ∧
        ∀ m, Machine.Steps (.start scope program w) m → m.Functionless scope) := by
  refine ⟨⟨?_, ?_⟩, fun depth => Machine.program_eq_none_iff,
    fun depth v w' h deeper hle => program_mono h hle, fun v w' => ⟨Machine.exists_program_of_steps, ?_⟩,
    fun hcalls => ?_, fun hfunctions hw => ⟨?_, fun m hm => ?_⟩⟩
  · rintro ⟨v, w', hend⟩
    exact Machine.exists_bound_of_steps hend rfl
  · rintro ⟨depth, hdepth⟩
    obtain ⟨v, w', hrun⟩ := Machine.exists_program_of_active_le hdepth
    exact ⟨v, w', Machine.steps_of_program hrun⟩
  · rintro ⟨depth, hrun⟩
    exact Machine.steps_of_program hrun
  · exact Machine.exists_program_of_quiet (quiet_callFree scope) trivial hcalls
  · exact Machine.exists_program_of_quiet (quiet_functionless scope) hw hfunctions
  · exact (Machine.Quiet.of_steps (quiet_functionless scope) hw hfunctions hm).functionless

/-- The call `push([1], 2)` in the first scope of a session ends with no call active and without functions,
and `let f = fn() { return f; };` ends because it calls nothing. -/
theorem push_ends_without_functions :
    let first := World.initial .unlimited
    let pushing : Program := [.expression (.call (.name "push") [.array [.integer 1], .integer 2])]
    let naming : Program := [.define "f" (.function ⟨0, []⟩ [] [.leave (.name "f")])]
    first.Functionless globalScope ∧
      (∃ v w', (Eval.program 0 globalScope pushing).run first = some (v, w') ∧
        (Eval.program 3 globalScope pushing).run first = some (v, w')) ∧
      (∀ m, Machine.Steps (.start globalScope pushing first) m → m.Functionless globalScope) ∧
      (Machine.start globalScope naming first).Terminates := by
  intro first pushing naming
  have hfirst : first.Functionless globalScope := by
    intro s _ name v hv
    obtain ⟨bindings, hbindings, hlookup⟩ := Option.bind_eq_some_iff.1 hv
    rcases Array.mem_push.1 (Array.mem_of_getElem? hbindings) with hold | rfl
    · simp [World.empty] at hold
    · cases hlookup
  have hpushing : ∀ s ∈ pushing, s.value.FunctionFree := by
    refine List.forall_mem_singleton.2 fun site parameters body => Expr.not_within (by simp [Stmt.value]) ?_
    refine List.forall_mem_cons.2 ⟨Expr.not_within (by simp) (by simp [Expr.children]), ?_⟩
    refine List.forall_mem_cons.2 ⟨Expr.not_within (by simp) ?_, ?_⟩
    · exact List.forall_mem_singleton.2 (Expr.not_within (by simp) (by simp [Expr.children]))
    · exact List.forall_mem_singleton.2 (Expr.not_within (by simp) (by simp [Expr.children]))
  have hnaming : ∀ s ∈ naming, s.value.CallFree := by
    refine List.forall_mem_singleton.2 fun callee arguments => Expr.not_within (by simp [Stmt.value]) ?_
    exact List.forall_mem_singleton.2 (Expr.not_within (by simp [Stmt.value])
      (by simp [Stmt.value, Expr.children]))
  obtain ⟨-, -, hmono, -, -, hfree⟩ := ends_iff_nesting_bounded globalScope pushing first
  obtain ⟨⟨v, w', hrun⟩, hstates⟩ := hfree hpushing hfirst
  obtain ⟨hends, -, -, hmachine, hcalls, -⟩ := ends_iff_nesting_bounded globalScope naming first
  obtain ⟨u, w'', hnamed⟩ := hcalls hnaming
  exact ⟨hfirst, ⟨v, w', hrun, hmono 0 v w' hrun 3 (Nat.zero_le 3)⟩, hstates, u, w'',
    (hmachine u w'').2 ⟨0, hnamed⟩⟩

end Monkey
