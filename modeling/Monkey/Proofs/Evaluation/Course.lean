import Monkey.Proofs.Evaluation.Numbering
import Monkey.Proofs.Evaluation.ReadBack

/-!
# Courses of evaluation

In one world, trees are made programs, and programs are run to their ends, one after another and each as
often as one likes. A course is what has happened so far: all states that the machine was in, also
those on the way to the end of a program. What is said of all values of a course is said of values at
different times too, such as one that a program was given and one that it is given when it is run again.
-/

namespace Monkey

/-- The keys and values that are filed in a table. -/
def Table.filed (table : Table (Value × Value)) : List Value := table.flatMap fun e => [e.2.1, e.2.2]

/-- The values that an operation works on. A table that is being filled is no value yet, but the keys and
values in it are. -/
def Operation.held : Operation → List Value
  | file _ table key _ _ => key :: Table.filed table
  | o => o.values

/-- The values that a task begins with. -/
def Task.held : Task → List Value
  | entries _ table _ => Table.filed table
  | operate o => o.held
  | t => t.values

/-- The values that a frame keeps. -/
def Frame.held : Frame → List Value
  | key _ table _ _ => Table.filed table
  | entry _ table _ k _ => k :: Table.filed table
  | f => f.values

/-- A value is there in a state of a machine, or it is a part of one that is. -/
inductive Machine.Contains (m : Machine) (v : Value) : Prop where
  /-- The task begins with the value. -/
  | task {t : Task} {u : Value} (control : m.control = .task t) (mem : u ∈ t.held)
      (part : Value.Part v u)
  /-- The machine is at the value. -/
  | value {u : Value} (control : m.control = .value u) (part : Value.Part v u)
  /-- A frame keeps the value. -/
  | frame {f : Frame} {u : Value} (level : .frame f ∈ m.levels) (mem : u ∈ f.held)
      (part : Value.Part v u)
  /-- A name is bound to the value. -/
  | bound {s : Scope} {b : String × Value} (scope : s ∈ m.world.scopes) (binding : b ∈ s.bindings)
      (part : Value.Part v b.2)

theorem Table.mem_filed {table : Table (Value × Value)} {u : Value} :
    u ∈ Table.filed table ↔ ∃ e ∈ table, u = e.2.1 ∨ u = e.2.2 := by
  simp [Table.filed]

/-- What is filed in a table is a part of the hash that the table makes. -/
theorem Table.part_of_mem_filed {table : Table (Value × Value)} {u : Value}
    (h : u ∈ Table.filed table) (identity : Identity) : Value.Part u (.hash identity table) := by
  obtain ⟨e, he, rfl | rfl⟩ := Table.mem_filed.1 h
  · exact .key he .self
  · exact .entry he .self

namespace Machine

variable {m m' : Machine} {v : Value}

/-- Parts of what a state contains are contained in it. -/
theorem Contains.part {u : Value} (h : m.Contains v) (hpart : Value.Part u v) : m.Contains u := by
  cases h with
  | task control mem part => exact .task control mem (hpart.trans part)
  | value control part => exact .value control (hpart.trans part)
  | frame level mem part => exact .frame level mem (hpart.trans part)
  | bound scope binding part => exact .bound scope binding (hpart.trans part)

/-- What a state contains occurs in it. -/
theorem Contains.has (h : m.Contains v) : m.Has v := by
  have hfiled {u : Value} {table : Table (Value × Value)} (hu : u ∈ Table.filed table)
      (part : Value.Part v u) : Value.Part v (.hash 0 table) :=
    part.trans (Table.part_of_mem_filed hu 0)
  cases h with
  | @task t u control mem part =>
    cases t with
    | entries scope table pairs =>
      exact .task control (u := .hash 0 table) List.mem_cons_self (hfiled mem part)
    | operate o =>
      cases o with
      | file scope table key value pairs =>
        rcases List.mem_cons.1 mem with rfl | mem
        · exact .task control (List.mem_cons_of_mem _ List.mem_cons_self) part
        · exact .task control (u := .hash 0 table) List.mem_cons_self (hfiled mem part)
      | _ => exact .task control mem part
    | _ => exact .task control mem part
  | value control part => exact .value control part
  | @frame f u level mem part =>
    cases f with
    | key scope table value pairs =>
      exact .frame level (u := .hash 0 table) List.mem_cons_self (hfiled mem part)
    | entry scope table hashKey k pairs =>
      rcases List.mem_cons.1 mem with rfl | mem
      · exact .frame level (List.mem_cons_of_mem _ List.mem_cons_self) part
      · exact .frame level (u := .hash 0 table) List.mem_cons_self (hfiled mem part)
    | _ => exact .frame level mem part
  | bound scope binding part => exact .bound scope binding part

end Machine

/-- What stands in a list with a further member is that member, in the last position, or stood there
before. -/
theorem getElem?_concat_eq_some_iff {α : Type} {xs : List α} {x y : α} {k : Nat} :
    (xs ++ [x])[k]? = some y ↔ xs[k]? = some y ∨ k = xs.length ∧ x = y := by
  rw [List.getElem?_append]
  split
  · next hlt => simp [Nat.ne_of_lt hlt]
  · next hge =>
    rw [List.getElem?_eq_none (Nat.not_lt.1 hge), List.getElem?_singleton]
    simp
    omega

/-- The steps of a machine do not make programs. -/
theorem Machine.nextProgram_step {m m' : Machine} (h : m.step = some m') :
    m'.world.nextProgram = m.world.nextProgram := by
  rcases world_of_step h with hworld | ⟨t, -, hworld⟩
  · rw [hworld]
  · rw [hworld, t.nextProgram_begin]

/-- The programs that there are by then, each at its number, all states that the machine was in before,
and the state that it is in. -/
inductive Course (sink : Sink) : List Program → List Machine → Machine → Prop where
  /-- Nothing has been run yet. -/
  | start : Course sink [] [] ⟨.value .null, [], .initial sink⟩
  /-- A tree is made a program. -/
  | enrol {programs : List Program} {past : List Machine} {m : Machine}
      (h : Course sink programs past m) (idle : m.step = none) (tree : Tree) :
      Course sink (programs ++ [(m.world.enrol tree).1]) (past ++ [m])
        ⟨m.control, m.levels, (m.world.enrol tree).2⟩
  /-- One of the programs is begun. -/
  | run {programs : List Program} {past : List Machine} {m : Machine}
      (h : Course sink programs past m) (idle : m.step = none) {program : Program}
      (mem : program ∈ programs) (scope : ScopeId) :
      Course sink programs (past ++ [m]) (.start scope program m.world)
  /-- The program goes on. -/
  | step {programs : List Program} {past : List Machine} {m m' : Machine}
      (h : Course sink programs past m) (step : m.step = some m') :
      Course sink programs (past ++ [m]) m'

/-- Each program is a tree that has been given its number. -/
def Numbered (programs : List Program) : Prop :=
  ∀ n program, programs[n]? = some program → ∃ tree : Tree, program = place n tree

/-- The value is contained in one of the states. -/
def OccursIn (states : List Machine) (v : Value) : Prop := ∃ m ∈ states, m.Contains v

/-- The parts of the value that has been come to occur. -/
theorem occursIn_of_part {past : List Machine} {u v : Value} {levels : List Level} {w : World}
    (h : Value.Part u v) : OccursIn (past ++ [⟨.value v, levels, w⟩]) u :=
  ⟨_, List.mem_concat_self, .value rfl h⟩

namespace Course

variable {sink : Sink} {programs : List Program} {past : List Machine} {m m' : Machine}

/-- A course goes on with the steps of the machine. -/
theorem steps (h : Course sink programs past m) (hsteps : Machine.Steps m m') :
    ∃ between, Course sink programs (past ++ between) m' := by
  induction hsteps with
  | refl => exact ⟨[], by rwa [List.append_nil]⟩
  | @tail m₁ m₂ _ hstep ih =>
    obtain ⟨between, hcourse⟩ := ih
    refine ⟨between ++ [m₁], ?_⟩
    rw [← List.append_assoc]
    exact hcourse.step hstep

/-- A course goes on with what the evaluator gives for one of the programs. -/
theorem evaluated (h : Course sink programs past m) (idle : m.step = none) {program : Program}
    (mem : program ∈ programs) {depth : Nat} {scope : ScopeId} {v : Value} {w' : World}
    (result : (Eval.program depth scope program).run m.world = some (v, w')) :
    ∃ between, Course sink programs (past ++ m :: between) ⟨.value v, [], w'⟩ := by
  obtain ⟨between, hcourse⟩ := (h.run idle mem scope).steps (Machine.steps_of_program result)
  rw [List.append_assoc] at hcourse
  exact ⟨between, hcourse⟩

/-- A tree that is made the first program has the value that the evaluator gives for it. -/
theorem of_program {depth : Nat} {scope : ScopeId} {tree : Tree} {v : Value} {w : World}
    (result : (Eval.program depth scope (place 0 tree)).run ((World.initial sink).enrol tree).2 =
      some (v, w)) : ∃ past, Course sink [place 0 tree] past ⟨.value v, [], w⟩ := by
  obtain ⟨between, hcourse⟩ :=
    (Course.start.enrol rfl tree).evaluated rfl List.mem_cons_self result
  exact ⟨_, hcourse⟩

/-- The programs are trees, numbered in the order in which they came. -/
theorem placed (h : Course sink programs past m) :
    m.world.nextProgram = programs.length ∧ Numbered programs := by
  induction h with
  | start => exact ⟨rfl, by simp [Numbered]⟩
  | @enrol programs past m _ _ tree ih =>
    obtain ⟨hcount, hplaced⟩ := ih
    refine ⟨?_, fun n program hprogram => ?_⟩
    · rw [List.length_append, ← hcount]
      rfl
    · rcases getElem?_concat_eq_some_iff.1 hprogram with hold | ⟨rfl, rfl⟩
      · exact hplaced n program hold
      · exact ⟨tree, by rw [← hcount]; rfl⟩
  | run _ _ _ _ ih => exact ih
  | step _ hstep ih => exact ⟨(Machine.nextProgram_step hstep).trans ih.1, ih.2⟩

/-- Properties that last are those of all values of a course. -/
theorem keeps {R : Nat → Value → Prop} {S : Expr Site → Prop} (hR : Lasting R (fun _ _ => True) S)
    (h : Course sink programs past m) (hS : ∀ program ∈ programs, ∀ s ∈ program, S s.value) :
    ∀ x ∈ past ++ [m], x.Keeps R (fun _ _ => True) S := by
  induction h with
  | start =>
    refine List.forall_mem_singleton.2 (.of_value ((hR.hereditary _).null) (by simp) ?_)
    exact World.binds_initial _ sink
  | @enrol programs past m h idle tree ih =>
    have hall := ih fun program hp => hS program (List.mem_append_left _ hp)
    have hm := hall m List.mem_concat_self
    rw [List.forall_mem_append, List.forall_mem_singleton]
    exact ⟨hall, hm.world.congr rfl, hm.levels, hm.task, hm.value⟩
  | @run programs past m h idle program mem scope ih =>
    have hall := ih hS
    have hm := hall m List.mem_concat_self
    rw [List.forall_mem_append, List.forall_mem_singleton]
    exact ⟨hall, Machine.keeps_start hR (hS program mem) trivial hm.world⟩
  | @step programs past m m' h hstep ih =>
    have hall := ih hS
    rw [List.forall_mem_append, List.forall_mem_singleton]
    exact ⟨hall, ((hall m List.mem_concat_self).step hR hstep).1⟩

end Course

end Monkey
