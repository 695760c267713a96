import Monkey.Proofs.Evaluation.Clean
import Monkey.Proofs.Evaluation.Machine
import Monkey.Session

/-!
# Signals never leak

No state of the machine has a signal anywhere but in its control. Operations get clean values only,
and what waits for a value keeps clean ones only; a step from such a state leads to such a state. So
in every world that programs leave behind, everything that is bound is clean.
-/

namespace Monkey

/-- The values that an operation works on are clean. -/
def Operation.Clean : Operation → Prop
  | unary _ right => right.Clean
  | binary left _ right => left.Clean ∧ right.Clean
  | index collection position => collection.Clean ∧ position.Clean
  | branch _ test _ _ => test.Clean
  | call callee arguments => callee.Clean ∧ ∀ v ∈ arguments, v.Clean
  | bind _ _ value => value.Clean
  | file _ table key _ _ => Table.Clean table ∧ key.Clean
  | leave value => value.Clean

/-- The values that a task begins with are clean. -/
def Task.Clean : Task → Prop
  | expression _ _ => True
  | right _ left _ _ => left.Clean
  | position _ collection _ => collection.Clean
  | arguments _ callee done _ => callee.Clean ∧ ∀ v ∈ done, v.Clean
  | elements _ done _ => ∀ v ∈ done, v.Clean
  | entries _ table _ => Table.Clean table
  | statement _ _ => True
  | block _ last _ => last.Clean
  | operate o => o.Clean

/-- The values that a frame keeps are clean. -/
def Frame.Clean : Frame → Prop
  | unary _ => True
  | left _ _ _ => True
  | right l _ => l.Clean
  | test _ _ _ => True
  | callee _ _ => True
  | argument _ f done _ => f.Clean ∧ ∀ v ∈ done, v.Clean
  | element _ done _ => ∀ v ∈ done, v.Clean
  | collection _ _ => True
  | position c => c.Clean
  | key _ table _ _ => Table.Clean table
  | entry _ table _ k _ => Table.Clean table ∧ k.Clean
  | statement _ _ => True
  | define _ _ => True
  | leave => True

/-- However a task goes on, the world and all values are clean, but for a signal that it may give. -/
def Move.Sound : Move → Prop
  | done v w => v.Passable ∧ w.Clean
  | become t w => t.Clean ∧ w.Clean
  | await t f => t.Clean ∧ f.Clean
  | enter t w => t.Clean ∧ w.Clean

/-- A clean value makes a clean task of a clean frame. -/
theorem Frame.Clean.next {f : Frame} (hf : f.Clean) {v : Value} (hv : v.Clean) :
    (f.next v).Clean := by
  cases f with
  | argument scope callee done es =>
    exact ⟨hf.1, List.forall_mem_append.2 ⟨hf.2, List.forall_mem_singleton.2 hv⟩⟩
  | element scope done es => exact List.forall_mem_append.2 ⟨hf, List.forall_mem_singleton.2 hv⟩
  | right left operator => exact ⟨hf, hv⟩
  | position collection => exact ⟨hf, hv⟩
  | callee scope es => exact ⟨hv, by simp⟩
  | key scope table value pairs => exact ⟨hf, hv⟩
  | entry scope table hashKey k pairs => exact hf.1.insert hashKey hf.2 hv
  | _ => exact hv

/-- A name has a clean value, or there is a fault. -/
theorem World.Clean.named {w : World} (hw : w.Clean) (scope : ScopeId) (text : String) :
    (w.named scope text).Settled := by
  unfold World.named
  split
  · next value h => exact .plain (hw.binds.lookup h)
  · split
    · exact .plain (.builtin _)
    · exact .fault _

/-- An expression goes on soundly in a clean world. -/
theorem Move.sound_expression {w : World} (hw : w.Clean) (scope : ScopeId) (e : Expr Site) :
    (expression w scope e).Sound := by
  cases e with
  | name text => exact ⟨(hw.named scope text).passable, hw⟩
  | integer n => exact ⟨.plain (.integer n), hw⟩
  | boolean b => exact ⟨.plain (.boolean b), hw⟩
  | string text => exact ⟨.plain (.string text), hw⟩
  | function site parameters body => exact ⟨.plain (.function _ _), hw.binds.congr rfl⟩
  | array elements => exact ⟨List.forall_mem_nil _, hw⟩
  | hash pairs => exact ⟨List.forall_mem_nil _, hw⟩
  | _ => exact ⟨trivial, trivial⟩

/-- A call has its value at once, or it enters a function. -/
theorem Operation.begin_call (callee : Value) (arguments : List Value) (w : World) :
    (∃ v w', (call callee arguments).begin w = .done v w') ∨
      ∃ t w', (call callee arguments).begin w = .enter t w' := by
  cases callee with
  | function identity f =>
    rw [begin]
    split
    · exact .inr ⟨_, _, rfl⟩
    · exact .inl ⟨_, _, rfl⟩
  | _ => exact .inl ⟨_, _, rfl⟩

/-- A call goes on soundly when the arguments are clean, whatever is called, and what it gives at once
is settled. -/
theorem Operation.sound_call {w : World} (hw : w.Clean) (callee : Value) {arguments : List Value}
    (ha : ∀ v ∈ arguments, v.Clean) :
    ((call callee arguments).begin w).Sound ∧
      ∀ v w', (call callee arguments).begin w = .done v w' → v.Settled := by
  cases callee with
  | function identity f =>
    rw [begin]
    split
    · refine ⟨⟨.null, hw.binds.openScope _ fun p hp => ?_⟩, by simp⟩
      exact ha p.2 (List.of_mem_zip hp).2
    · refine ⟨⟨.fault _, hw⟩, ?_⟩
      rintro _ _ ⟨⟩
      exact .fault _
  | builtin b =>
    have hscopes := b.scopes_call arguments w
    have hsettled : (Value.ofResult (b.call arguments w).1).Settled :=
      Value.settled_ofResult fun _ => Value.hereditary_clean.call ha b
    refine ⟨⟨hsettled.passable, hw.binds.congr hscopes⟩, ?_⟩
    rintro _ _ ⟨⟩
    exact hsettled
  | _ =>
    refine ⟨⟨.fault _, hw⟩, ?_⟩
    rintro _ _ ⟨⟩
    exact .fault _

/-- An operation on clean values goes on soundly in a clean world. -/
theorem Operation.Clean.sound {o : Operation} (ho : o.Clean) {w : World} (hw : w.Clean) :
    (o.begin w).Sound := by
  cases o with
  | unary operator right =>
    exact ⟨(Value.settled_ofResult fun _ => Value.hereditary_clean.unary).passable, hw⟩
  | binary left operator right =>
    exact ⟨(Value.settled_ofResult fun _ => Value.hereditary_clean.binary ho.1 ho.2).passable, hw⟩
  | index collection position =>
    exact ⟨(Value.settled_ofResult fun _ => Value.hereditary_clean.index ho.1).passable, hw⟩
  | branch scope test chosen other =>
    rcases begin_branch scope test chosen other w with hbegin | ⟨block, -, hbegin⟩
    · rw [hbegin]
      exact ⟨.plain .null, hw⟩
    · rw [hbegin]
      exact ⟨.null, hw⟩
  | call callee arguments => exact (sound_call hw callee ho.2).1
  | bind scope name value => exact ⟨.plain .null, hw.binds.define scope name ho⟩
  | file scope table key value pairs =>
    rw [begin]
    cases key.key? with
    | none => exact ⟨.fault _, hw⟩
    | some hashKey => exact ⟨trivial, ho.1, ho.2⟩
  | leave value => exact ⟨.returned ho, hw⟩

/-- A task with clean values goes on soundly in a clean world. -/
theorem Task.Clean.sound {t : Task} (ht : t.Clean) {w : World} (hw : w.Clean) {move : Move}
    (h : t.begin w = move) : move.Sound := by
  subst h
  cases t with
  | expression scope e => exact Move.sound_expression hw scope e
  | right scope left operator e => exact ⟨trivial, ht⟩
  | position scope collection e => exact ⟨trivial, ht⟩
  | arguments scope callee done es =>
    cases es with
    | nil => exact ⟨ht, hw⟩
    | cons e es => exact ⟨trivial, ht⟩
  | elements scope done es =>
    cases es with
    | nil => exact ⟨.plain (.array _ ht), hw.binds.congr rfl⟩
    | cons e es => exact ⟨trivial, ht⟩
  | entries scope table pairs =>
    cases pairs with
    | nil => exact ⟨.plain (ht.hash _), hw.binds.congr rfl⟩
    | cons pair pairs => exact ⟨trivial, ht⟩
  | statement scope s =>
    cases s with
    | expression value => exact ⟨trivial, hw⟩
    | _ => exact ⟨trivial, trivial⟩
  | block scope last ss =>
    cases ss with
    | nil => exact ⟨.plain ht, hw⟩
    | cons s ss => exact ⟨trivial, trivial⟩
  | operate o => exact Operation.Clean.sound ht hw

namespace Machine

/-- Nothing but the control of the machine can be a signal, and a `return` there carries a clean
value. -/
structure Sound (m : Machine) : Prop where
  /-- Everything that is bound is clean. -/
  world : m.world.Clean
  /-- The values that frames keep are clean. -/
  levels : ∀ f, Level.frame f ∈ m.levels → f.Clean
  /-- The values that the task works on are clean. -/
  task : ∀ t, m.control = .task t → t.Clean
  /-- The value is clean or a signal, and a signal has only clean parts. -/
  value : ∀ v, m.control = .value v → v.Passable

theorem Sound.of_task {t : Task} {levels : List Level} {w : World} (ht : t.Clean)
    (hl : ∀ f, Level.frame f ∈ levels → f.Clean) (hw : w.Clean) : Sound ⟨.task t, levels, w⟩ where
  world := hw
  levels := hl
  task := by
    rintro _ ⟨⟩
    exact ht
  value := by rintro _ ⟨⟩

theorem Sound.of_value {v : Value} {levels : List Level} {w : World} (hv : v.Passable)
    (hl : ∀ f, Level.frame f ∈ levels → f.Clean) (hw : w.Clean) : Sound ⟨.value v, levels, w⟩ where
  world := hw
  levels := hl
  task := by rintro _ ⟨⟩
  value := by
    rintro _ ⟨⟩
    exact hv

/-- A step from a sound state leads to a sound state. -/
theorem Sound.step {m m' : Machine} (hm : m.Sound) (h : m.step = some m') : m'.Sound := by
  have htail {level : Level} {levels : List Level}
      (h : ∀ f, Level.frame f ∈ level :: levels → f.Clean) :
      ∀ f, Level.frame f ∈ levels → f.Clean := fun f hf => h f (List.mem_cons_of_mem _ hf)
  cases turn_of_step h with
  | done move =>
    have hmove := (hm.task _ rfl).sound hm.world move
    exact .of_value hmove.1 hm.levels hmove.2
  | become move =>
    have hmove := (hm.task _ rfl).sound hm.world move
    exact .of_task hmove.1 hm.levels hmove.2
  | await move =>
    have hmove := (hm.task _ rfl).sound hm.world move
    refine .of_task hmove.1 (fun g hg => ?_) hm.world
    rcases List.mem_cons.1 hg with hg | hg
    · cases hg
      exact hmove.2
    · exact hm.levels g hg
  | enter move =>
    have hmove := (hm.task _ rfl).sound hm.world move
    refine .of_task hmove.1 (fun g hg => ?_) hmove.2
    rcases List.mem_cons.1 hg with hg | hg
    · cases hg
    · exact hm.levels g hg
  | pass signal => exact .of_value (hm.value _ rfl) (htail hm.levels) hm.world
  | next plain =>
    have hf := hm.levels _ List.mem_cons_self
    exact .of_task (hf.next ((hm.value _ rfl).clean plain)) (htail hm.levels) hm.world
  | leave => exact .of_value (hm.value _ rfl).delivered.passable (htail hm.levels) hm.world

/-- Every state that is come to from a sound one is sound. -/
theorem Sound.steps {m m' : Machine} (hm : m.Sound) (h : Steps m m') : m'.Sound :=
  h.invariant (fun _ _ hm hstep => hm.step hstep) hm

theorem sound_start {w : World} (hw : w.Clean) (scope : ScopeId) (program : Program) :
    (start scope program w).Sound := by
  refine .of_task .null (fun f hf => ?_) hw
  rcases List.mem_singleton.1 hf with ⟨⟩

end Machine

/-- A task with clean values gives something passable and leaves a clean world. -/
theorem Runs.sound {depth : Nat} {t : Task} {w w' : World} {v : Value} (h : Runs depth t w v w')
    (ht : t.Clean) (hw : w.Clean) : v.Passable ∧ w'.Clean := by
  have hstart : Machine.Sound ⟨.task t, [], w⟩ := .of_task ht (by simp) hw
  have hend := hstart.steps (Machine.steps_of_runs h [])
  exact ⟨hend.value v rfl, hend.world⟩

/-- A call with clean arguments gives something settled, whatever is called, and leaves a clean
world. -/
theorem Runs.settled {depth : Nat} {callee v : Value} {arguments : List Value} {w w' : World}
    (h : Runs depth (.operate (.call callee arguments)) w v w') (ha : ∀ a ∈ arguments, a.Clean)
    (hw : w.Clean) : v.Settled ∧ w'.Clean := by
  obtain ⟨hmove, hdone⟩ := Operation.sound_call hw callee ha
  have hcall := Operation.begin_call callee arguments w
  cases h with
  | done move =>
    have hbegin : (Operation.call callee arguments).begin w = .done v w' := move
    rw [hbegin] at hmove
    exact ⟨hdone v w' hbegin, hmove.2⟩
  | @enter depth _ t _ w₁ _ u move run =>
    have hbegin : (Operation.call callee arguments).begin w = .enter t w₁ := move
    rw [hbegin] at hmove
    obtain ⟨hu, hw'⟩ := run.sound hmove.1 hmove.2
    exact ⟨hu.delivered, hw'⟩
  | become move _ =>
    rcases hcall with ⟨u, w₁, hbegin⟩ | ⟨t, w₁, hbegin⟩ <;> cases hbegin.symm.trans move
  | pass move _ _ =>
    rcases hcall with ⟨u, w₁, hbegin⟩ | ⟨t, w₁, hbegin⟩ <;> cases hbegin.symm.trans move
  | next move _ _ _ =>
    rcases hcall with ⟨u, w₁, hbegin⟩ | ⟨t, w₁, hbegin⟩ <;> cases hbegin.symm.trans move

/-- A program gives something settled and leaves a clean world. -/
theorem settled_of_program {depth : Nat} {scope : ScopeId} {program : Program} {w w' : World}
    {v : Value} (hw : w.Clean) (h : (Eval.program depth scope program).run w = some (v, w')) :
    v.Settled ∧ w'.Clean := by
  obtain ⟨u, hu, rfl⟩ := program_eq_some_iff.1 h
  obtain ⟨hpassable, hw'⟩ := hu.sound .null hw
  exact ⟨hpassable.delivered, hw'⟩

/-- The worlds that a session can come to: programs are run one after another, each in any scope. -/
inductive Session (sink : Sink) : World → Prop where
  /-- Before the first program. -/
  | start : Session sink (.initial sink)
  /-- A tree is given a number. -/
  | enrol {w : World} (h : Session sink w) (tree : Tree) : Session sink (w.enrol tree).2
  /-- A program is run to its end. -/
  | run {w w' : World} {depth : Nat} {scope : ScopeId} {program : Program} {v : Value}
      (h : Session sink w)
      (result : (Eval.program depth scope program).run w = some (v, w')) : Session sink w'

/-- Whatever comes of a source text, the session goes on. -/
theorem Session.interpret {sink : Sink} {w : World} (h : Session sink w) (depth : Nat)
    (scope : ScopeId) (source : String) : Session sink (w.interpret depth scope source).2 := by
  unfold World.interpret
  split
  · exact h
  · next tree _ =>
    have henrolled := h.enrol tree
    generalize w.enrol tree = enrolled at henrolled ⊢
    obtain ⟨program, w₁⟩ := enrolled
    simp only
    split
    · next value after hresult => exact henrolled.run hresult
    · exact h

/-- In a session, everything that is bound is clean. -/
theorem Session.clean {sink : Sink} {w : World} (h : Session sink w) : w.Clean := by
  induction h with
  | start => exact World.binds_initial Value.Clean sink
  | enrol _ tree ih => exact ih.binds.congr rfl
  | run _ result ih => exact (settled_of_program ih result).2

/-- A program that is run in a clean world goes through sound states only, up to the one that it ends
in; what it gives is no `return`, nor is what any call gives; and the world is clean in the end, as it
is throughout a session. -/
theorem signals_never_leak {depth : Nat} {scope : ScopeId} {program : Program} {w w' : World}
    {v : Value} (hw : w.Clean) (h : (Eval.program depth scope program).run w = some (v, w')) :
    (∀ m, Machine.Steps (.start scope program w) m →
        m.Sound ∧ Machine.Steps m ⟨.value v, [], w'⟩) ∧
      Machine.Steps (.start scope program w) ⟨.value v, [], w'⟩ ∧
      v.Settled ∧ (∀ u, v ≠ .returned u) ∧ w'.Clean ∧
      (∀ depth callee arguments w₁ w₂ u, (∀ a ∈ arguments, a.Clean) → w₁.Clean →
        (Eval.apply depth callee arguments).run w₁ = some (u, w₂) →
          u.Settled ∧ (∀ x, u ≠ .returned x) ∧ w₂.Clean) ∧
      ∀ sink w, Session sink w → w.Clean := by
  have hend := Machine.steps_of_program h
  obtain ⟨hv, hw'⟩ := settled_of_program hw h
  refine ⟨fun m hm => ⟨(Machine.sound_start hw scope program).steps hm, hm.last hend rfl⟩, hend, hv,
    hv.ne_returned, hw', fun d callee arguments w₁ w₂ u ha hw₁ hcall => ?_,
    fun _ _ => Session.clean⟩
  have hrun : Runs d (.operate (.call callee arguments)) w₁ u w₂ := runs_iff.2 hcall
  obtain ⟨hu, hw₂⟩ := hrun.settled ha hw₁
  exact ⟨hu, hu.ne_returned, hw₂⟩

/-- A `return` out of a function that is called on the spot: the number arrives without it. -/
theorem return_never_leaks :
    let program : Program :=
      [.expression (.call (.function ⟨0, [0]⟩ [] [.leave (.integer 1), .leave (.integer 2)]) [])]
    let w : World := .initial .unlimited
    ∃ w', w.Clean ∧ (Eval.program 1 globalScope program).run w = some (.integer 1, w') ∧
      Machine.Steps (.start globalScope program w) ⟨.value (.integer 1), [], w'⟩ ∧
      (Value.integer 1).Settled ∧ w'.Clean := by
  intro program w
  have hw : w.Clean := Session.clean (.start : Session .unlimited _)
  obtain ⟨w', hrun⟩ : ∃ w', (Eval.program 1 globalScope program).run w = some (.integer 1, w') :=
    ⟨_, rfl⟩
  obtain ⟨-, hsteps, hsettled, -, hw', -⟩ := signals_never_leak hw hrun
  exact ⟨w', hw, hrun, hsteps, hsettled, hw'⟩

end Monkey
