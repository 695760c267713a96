import Monkey.Proofs.Evaluation.Numbering

/-!
# Statements one after another

A block ends at its first signal. So it does what its statements do one after another, whatever their
values are, as long as what stands behind the first signal is left out; and what it comes to is the
last of those values. Blocks that are run in turn can be put together in this way into a single row of
statements.
-/

namespace Monkey

namespace Eval

/-- Evaluates statements one after another, whatever their values are. -/
def each (apply : Apply) (scope : ScopeId) : List (Stmt Site) → Run (List Value)
  | [] => return []
  | s :: ss => do
    let value ← statement apply scope s
    return value :: (← each apply scope ss)

/-- The statements of a block that are carried out: those up to the first one whose value is a signal. -/
def carriedOut (apply : Apply) (scope : ScopeId) : List (Stmt Site) → World → List (Stmt Site)
  | [], _ => []
  | s :: ss, w =>
    match (statement apply scope s).run w with
    | none => [s]
    | some (value, after) => if value.isSignal then [s] else s :: carriedOut apply scope ss after

/-- The statements that are carried out of blocks which are run in turn. -/
def allCarriedOut (apply : Apply) (scope : ScopeId) : List Program → World → List (Stmt Site)
  | [], _ => []
  | block :: blocks, w =>
    carriedOut apply scope block w ++
      match (each apply scope (carriedOut apply scope block w)).run w with
      | none => []
      | some (_, after) => allCarriedOut apply scope blocks after

variable {apply : Apply} {scope : ScopeId} {w w₁ w' : World} {v last : Value} {vs us : List Value}
  {s : Stmt Site} {ss ts : List (Stmt Site)}

theorem run_each_nil : (each apply scope []).run w = some ([], w) := rfl

theorem run_each_cons :
    (each apply scope (s :: ss)).run w =
      (statement apply scope s).run w >>= fun r =>
        ((each apply scope ss).run r.2).map fun q => (r.1 :: q.1, q.2) := by
  rw [each, StateT.run_bind]
  refine bind_congr fun r => ?_
  cases h : (each apply scope ss).run r.2 with
  | none => simp only [StateT.run_bind, h, Option.map_none]; rfl
  | some q => simp only [StateT.run_bind, h, Option.map_some]; rfl

/-- Statements have values one after another if the first has one and the others have theirs after
it. -/
theorem each_cons_eq_some :
    (each apply scope (s :: ss)).run w = some (vs, w') ↔
      ∃ v w₁ us, (statement apply scope s).run w = some (v, w₁) ∧
        (each apply scope ss).run w₁ = some (us, w') ∧ vs = v :: us := by
  rw [run_each_cons, Option.bind_eq_bind, Option.bind_eq_some_iff]
  constructor
  · rintro ⟨r, hfirst, h⟩
    obtain ⟨q, hothers, heq⟩ := Option.map_eq_some_iff.1 h
    cases heq
    exact ⟨r.1, r.2, q.1, hfirst, hothers, rfl⟩
  · rintro ⟨v, w₁, us, hfirst, hothers, rfl⟩
    exact ⟨(v, w₁), hfirst, Option.map_eq_some_iff.2 ⟨(us, w'), hothers, rfl⟩⟩

/-- Of two rows of statements, the second goes on where the first has come to. -/
theorem run_each_append :
    (each apply scope (ss ++ ts)).run w =
      (each apply scope ss).run w >>= fun r =>
        ((each apply scope ts).run r.2).map fun q => (r.1 ++ q.1, q.2) := by
  induction ss generalizing w with
  | nil => simp [run_each_nil]
  | cons s ss ih =>
    rw [List.cons_append, run_each_cons, run_each_cons, bind_assoc]
    refine bind_congr fun r => ?_
    rw [ih]
    cases (each apply scope ss).run r.2 with
    | none => rfl
    | some q =>
      simp only [Option.bind_eq_bind, Option.bind_some, Option.map_some, Option.map_map]
      rfl

theorem each_append_of_eq_some (h : (each apply scope ss).run w = some (us, w₁))
    (h' : (each apply scope ts).run w₁ = some (vs, w')) :
    (each apply scope (ss ++ ts)).run w = some (us ++ vs, w') := by
  rw [run_each_append, h]
  exact Option.map_eq_some_iff.2 ⟨(vs, w'), h', rfl⟩

theorem carriedOut_of_none (h : (statement apply scope s).run w = none) :
    carriedOut apply scope (s :: ss) w = [s] := by simp only [carriedOut, h]

theorem carriedOut_of_signal (h : (statement apply scope s).run w = some (v, w₁))
    (signal : v.isSignal = true) : carriedOut apply scope (s :: ss) w = [s] := by
  simp only [carriedOut, h, signal, if_true]

theorem carriedOut_of_plain (h : (statement apply scope s).run w = some (v, w₁))
    (plain : v.isSignal = false) :
    carriedOut apply scope (s :: ss) w = s :: carriedOut apply scope ss w₁ := by
  simp only [carriedOut, h, plain, Bool.false_eq_true, if_false]

theorem run_block_nil : (block apply scope last []).run w = some (last, w) := by
  rw [block]
  rfl

theorem run_block_cons :
    (block apply scope last (s :: ss)).run w =
      (statement apply scope s).run w >>= fun r =>
        (unlessSignal r.1 fun value => block apply scope value ss).run r.2 := by
  rw [block]
  rfl

/-- A block does what is carried out of it, one statement after another, and comes to the last of their
values. -/
theorem run_block_eq_each :
    (block apply scope last ss).run w =
      ((each apply scope (carriedOut apply scope ss w)).run w).map fun r =>
        (r.1.getLastD last, r.2) := by
  induction ss generalizing last w with
  | nil => rw [run_block_nil, carriedOut, run_each_nil, Option.map_some, List.getLastD_nil]
  | cons s ss ih =>
    rw [run_block_cons]
    cases h : (statement apply scope s).run w with
    | none =>
      rw [carriedOut_of_none h, run_each_cons, h]
      rfl
    | some r =>
      obtain ⟨v, w₁⟩ := r
      cases signal : v.isSignal with
      | true =>
        rw [carriedOut_of_signal h signal, run_each_cons, h]
        simp only [Option.bind_eq_bind, Option.bind_some, unlessSignal, signal, if_true,
          run_each_nil, Option.map_some, List.getLastD_cons, List.getLastD_nil]
        rfl
      | false =>
        rw [carriedOut_of_plain h signal, run_each_cons, h]
        simp only [Option.bind_eq_bind, Option.bind_some, unlessSignal, signal,
          Bool.false_eq_true, if_false, ih, Option.map_map, Function.comp_def,
          List.getLastD_cons]

/-- A block without a signal is carried out as a whole. -/
theorem carriedOut_eq_self
    (h : (each apply scope (carriedOut apply scope ss w)).run w = some (vs, w'))
    (plain : ∀ v ∈ vs, v.isSignal = false) : carriedOut apply scope ss w = ss := by
  induction ss generalizing w vs with
  | nil => rfl
  | cons s ss ih =>
    cases hs : (statement apply scope s).run w with
    | none =>
      rw [carriedOut_of_none hs] at h
      obtain ⟨v, w₁, us, hfirst, -⟩ := each_cons_eq_some.1 h
      cases hs.symm.trans hfirst
    | some r =>
      obtain ⟨v, w₁⟩ := r
      cases signal : v.isSignal with
      | true =>
        rw [carriedOut_of_signal hs signal] at h
        obtain ⟨u, w₂, us, hfirst, -, rfl⟩ := each_cons_eq_some.1 h
        cases hs.symm.trans hfirst
        cases signal.symm.trans (plain v List.mem_cons_self)
      | false =>
        rw [carriedOut_of_plain hs signal] at h ⊢
        obtain ⟨u, w₂, us, hfirst, hothers, rfl⟩ := each_cons_eq_some.1 h
        cases hs.symm.trans hfirst
        rw [ih hothers fun x hx => plain x (List.mem_cons_of_mem _ hx)]

/-- Statements without a signal lead a block on to what comes after them. -/
theorem run_block_append (h : (each apply scope ss).run w = some (us, w₁))
    (plain : ∀ v ∈ us, v.isSignal = false) :
    (block apply scope last (ss ++ ts)).run w =
      (block apply scope (us.getLastD last) ts).run w₁ := by
  induction ss generalizing last w us with
  | nil =>
    cases h
    rfl
  | cons s ss ih =>
    obtain ⟨v, w₂, xs, hfirst, hothers, rfl⟩ := each_cons_eq_some.1 h
    rw [List.forall_mem_cons] at plain
    rw [List.cons_append, run_block_cons, hfirst, Option.bind_eq_bind, Option.bind_some]
    simp only [unlessSignal, plain.1, Bool.false_eq_true, if_false]
    rw [ih hothers plain.2, List.getLastD_cons]

/-- What comes before a statement does not matter to what a block comes to. -/
theorem run_block_of_ne_nil (hne : ss ≠ []) (other : Value) :
    (block apply scope last ss).run w = (block apply scope other ss).run w := by
  cases ss with
  | nil => exact absurd rfl hne
  | cons s ss => rw [run_block_cons, run_block_cons]

/-- Blocks without a signal are carried out as wholes. -/
theorem allCarriedOut_eq_flatten {blocks : List Program}
    (h : (each apply scope (allCarriedOut apply scope blocks w)).run w = some (vs, w'))
    (plain : ∀ v ∈ vs, v.isSignal = false) :
    allCarriedOut apply scope blocks w = blocks.flatten := by
  induction blocks generalizing w vs with
  | nil => rfl
  | cons block blocks ih =>
    simp only [allCarriedOut] at h ⊢
    rw [run_each_append] at h
    cases hfirst : (each apply scope (carriedOut apply scope block w)).run w with
    | none =>
      rw [hfirst] at h
      cases h
    | some r =>
      obtain ⟨us, w₁⟩ := r
      simp only [hfirst, Option.bind_eq_bind, Option.bind_some, Option.map_eq_some_iff] at h
      obtain ⟨⟨xs, w₂⟩, hothers, heq⟩ := h
      cases heq
      rw [List.forall_mem_append] at plain
      simp only [carriedOut_eq_self hfirst plain.1, ih hothers plain.2, List.flatten_cons]

/-- A program does what is carried out of its statements, and delivers the last of their values. -/
theorem run_program_eq_each (depth : Nat) (scope : ScopeId) (statements : Program) (w : World) :
    (program depth scope statements).run w =
      ((each (Eval.apply depth) scope (carriedOut (Eval.apply depth) scope statements w)).run w).map
        fun r => ((r.1.getLastD .null).delivered, r.2) := by
  have hrun : (program depth scope statements).run w =
      ((block (Eval.apply depth) scope .null statements).run w) >>= fun r =>
        some (r.1.delivered, r.2) := rfl
  rw [hrun, run_block_eq_each]
  cases (each (Eval.apply depth) scope (carriedOut (Eval.apply depth) scope statements w)).run w <;> rfl

/-- Statements without a signal lead a program on to the statements after them, if there are any. -/
theorem run_program_append {depth : Nat}
    (h : (each (Eval.apply depth) scope ss).run w = some (us, w₁))
    (plain : ∀ v ∈ us, v.isSignal = false) (hne : ts ≠ []) :
    (program depth scope (ss ++ ts)).run w = (program depth scope ts).run w₁ := by
  have hrun : ∀ statements w, (program depth scope statements).run w =
      (block (Eval.apply depth) scope .null statements).run w >>= fun r =>
        some (r.1.delivered, r.2) := fun _ _ => rfl
  rw [hrun, hrun, run_block_append h plain, run_block_of_ne_nil hne]

section Numbered

variable {depth n : Nat}

theorem statement_numbered :
    (statement (Eval.apply depth) scope s).run (w.numbered n) =
      ((statement (Eval.apply depth) scope s).run w).map fun r => (r.1, r.2.numbered n) :=
  Task.run_numbered n depth (.statement scope s) w

theorem each_numbered :
    (each (Eval.apply depth) scope ss).run (w.numbered n) =
      ((each (Eval.apply depth) scope ss).run w).map fun r => (r.1, r.2.numbered n) := by
  induction ss generalizing w with
  | nil => rfl
  | cons s ss ih =>
    rw [run_each_cons, run_each_cons, statement_numbered]
    cases (statement (Eval.apply depth) scope s).run w with
    | none => rfl
    | some r =>
      obtain ⟨v, w₁⟩ := r
      simp only [Option.map_some, Option.bind_eq_bind, Option.bind_some, ih, Option.map_map,
        Function.comp_def]

theorem carriedOut_numbered :
    carriedOut (Eval.apply depth) scope ss (w.numbered n) =
      carriedOut (Eval.apply depth) scope ss w := by
  induction ss generalizing w with
  | nil => rfl
  | cons s ss ih =>
    simp only [carriedOut, statement_numbered]
    cases (statement (Eval.apply depth) scope s).run w with
    | none => rfl
    | some r => simp only [Option.map_some, ih]

theorem allCarriedOut_numbered {blocks : List Program} :
    allCarriedOut (Eval.apply depth) scope blocks (w.numbered n) =
      allCarriedOut (Eval.apply depth) scope blocks w := by
  induction blocks generalizing w with
  | nil => rfl
  | cons block blocks ih =>
    simp only [allCarriedOut, carriedOut_numbered, each_numbered]
    cases (each (Eval.apply depth) scope (carriedOut (Eval.apply depth) scope block w)).run w with
    | none => rfl
    | some r => simp only [Option.map_some, ih]

/-- How programs are counted makes no difference to what a program does. -/
theorem program_numbered (n : Nat) (statements : Program) :
    (program depth scope statements).run (w.numbered n) =
      ((program depth scope statements).run w).map fun r => (r.1, r.2.numbered n) := by
  rw [run_program_eq_each, run_program_eq_each, carriedOut_numbered, each_numbered]
  simp only [Option.map_map, Function.comp_def]

end Numbered

end Eval

end Monkey
