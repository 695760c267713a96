import Monkey.Proofs.Evaluation.Exceptions
import Monkey.Proofs.Evaluation.Invariant

/-!
# Signals are exceptions

The evaluator hands signals on as values, and looks for them wherever it gets one. In a clean world
this comes to the same as throwing them: no value that is bound or kept is a signal, so a value that
is given is one exactly when it stands for something that is thrown.
-/

namespace Monkey

/-- What a value that is given stands for: a signal stands for what it would throw. -/
def Value.outcome : Value → Outcome
  | error f => .error (.fault f)
  | returned value => .error (.leaving value)
  | value => .ok value

/-- Only signals stand for something that is thrown. -/
theorem Value.outcome_of_plain {v : Value} (h : v.isSignal = false) : v.outcome = .ok v := by
  cases v <;> first | rfl | cases h

theorem Value.outcome_of_signal {v : Value} (h : v.isSignal = true) : ∃ x, v.outcome = .error x := by
  cases v <;> first | exact ⟨_, rfl⟩ | cases h

/-- A value stands for itself if it is no signal, and only then for a value. -/
theorem Value.outcome_eq_ok_iff {u v : Value} :
    u.outcome = .ok v ↔ u = v ∧ v.isSignal = false := by
  constructor
  · intro h
    by_cases hu : u.isSignal = true
    · obtain ⟨x, hx⟩ := outcome_of_signal hu
      cases hx.symm.trans h
    · have hplain : u.isSignal = false := by simpa using hu
      cases (outcome_of_plain hplain).symm.trans h
      exact ⟨rfl, hplain⟩
  · rintro ⟨rfl, h⟩
    exact outcome_of_plain h

theorem Value.isSignal_of_outcome {v : Value} {x : Thrown} (h : v.outcome = .error x) :
    v.isSignal = true := by
  cases v <;> first | rfl | cases h

/-- A result stands for the same as a value and as an outcome, if it is no signal itself. -/
theorem Value.outcome_ofResult {r : Except Fault Value} (h : ∀ v, r = .ok v → v.Clean) :
    (ofResult r).outcome = .ofResult r := by
  cases r with
  | ok v => exact outcome_of_plain (h v rfl).isSignal
  | error f => rfl

/-- Delivering a value comes to catching what it stands for. -/
theorem Value.outcome_delivered {v : Value} (h : v.Passable) :
    v.delivered.outcome = v.outcome.caught := by
  cases h with
  | plain h =>
    rw [outcome_of_plain h.isSignal]
    cases h <;> rfl
  | fault f => rfl
  | returned h => exact outcome_of_plain h.isSignal

/-- What a program gives is what its statements give, delivered. -/
theorem Value.result_outcome (v : Value) : v.outcome.result = v.delivered := by
  cases v <;> rfl

/-- A job as a task of the evaluator. -/
def Job.task : Job → Task
  | expression scope e => .expression scope e
  | arguments scope callee done es => .arguments scope callee done es
  | elements scope done es => .elements scope done es
  | entries scope table pairs => .entries scope table pairs
  | call callee as => .operate (.call callee as)
  | statement scope s => .statement scope s
  | block scope last ss => .block scope last ss

/-- What comes of an operation. -/
def Operation.Means (w : World) (o : Outcome) (w' : World) : Operation → Prop
  | unary operator v => o = .ofResult (Value.unary operator v) ∧ w' = w
  | binary l operator r => o = .ofResult (Value.binary l operator r) ∧ w' = w
  | index c p => o = .ofResult (Value.index c p) ∧ w' = w
  | branch scope test chosen other =>
    if test.truthy then Evaluates (.block scope .null chosen) w o w'
    else
      match other with
      | none => o = .ok .null ∧ w' = w
      | some statements => Evaluates (.block scope .null statements) w o w'
  | call callee arguments => Evaluates (.call callee arguments) w o w'
  | bind scope name v => o = .ok .null ∧ w' = w.define scope name v
  | file scope table k value pairs =>
    match k.key? with
    | none => o = .error (.fault (.unhashable k.type)) ∧ w' = w
    | some hashKey =>
      (∃ x, Evaluates (.expression scope value) w (.error x) w' ∧ o = .error x) ∨
        ∃ v w₁, Evaluates (.expression scope value) w (.ok v) w₁ ∧
          Evaluates (.entries scope (Table.insert hashKey (k, v) table) pairs) w₁ o w'
  | leave v => o = .error (.leaving v) ∧ w' = w

/-- What comes of a task. -/
def Task.Means (w : World) (o : Outcome) (w' : World) : Task → Prop
  | expression scope e => Evaluates (.expression scope e) w o w'
  | right scope l operator e =>
    ∃ p, Evaluates (.expression scope e) w p w' ∧
      o = p >>= fun r => Outcome.ofResult (Value.binary l operator r)
  | position scope c e =>
    ∃ p, Evaluates (.expression scope e) w p w' ∧
      o = p >>= fun i => Outcome.ofResult (Value.index c i)
  | arguments scope callee done es => Evaluates (.arguments scope callee done es) w o w'
  | elements scope done es => Evaluates (.elements scope done es) w o w'
  | entries scope table pairs => Evaluates (.entries scope table pairs) w o w'
  | statement scope s => Evaluates (.statement scope s) w o w'
  | block scope last ss => Evaluates (.block scope last ss) w o w'
  | operate operation => operation.Means w o w'

/-- A key is filed with the value of its entry. -/
theorem Operation.begin_file {scope : ScopeId} {table : Table (Value × Value)} {k : Value}
    {value : Expr Site} {pairs : List (Expr Site × Expr Site)} {w : World} {hashKey : HashKey}
    (h : k.key? = some hashKey) :
    (file scope table k value pairs).begin w =
      .await (.expression scope value) (.entry scope table hashKey k pairs) := by
  rw [begin, h]

/-- What can be no key is not filed. -/
theorem Operation.begin_unfiled {scope : ScopeId} {table : Table (Value × Value)} {k : Value}
    {value : Expr Site} {pairs : List (Expr Site × Expr Site)} {w : World} (h : k.key? = none) :
    (file scope table k value pairs).begin w = .done (.error (.unhashable k.type)) w := by
  rw [begin, h]

/-- A conditional comes to what its branch comes to. -/
theorem Evaluates.conditional {scope : ScopeId} {e : Expr Site} {chosen : List (Stmt Site)}
    {other : Option (List (Stmt Site))} {w w₁ w' : World} {v : Value} {o : Outcome}
    (test : Evaluates (.expression scope e) w (.ok v) w₁)
    (h : (Operation.branch scope v chosen other).Means w₁ o w') :
    Evaluates (.expression scope (.conditional e chosen other)) w o w' := by
  by_cases hv : v.truthy = true
  · simp only [Operation.Means, hv, if_true] at h
    exact .chosen test hv h
  · have hfalse : v.truthy = false := by simpa using hv
    simp only [Operation.Means, hv, Bool.false_eq_true, if_false] at h
    cases other with
    | none =>
      obtain ⟨rfl, rfl⟩ := h
      exact .neither test hfalse
    | some statements => exact .otherwise test hfalse h

/-- The pairs of a hash literal come to what filing the first of them comes to. -/
theorem Evaluates.filed {scope : ScopeId} {table : Table (Value × Value)} {k : Value}
    {key value : Expr Site} {pairs : List (Expr Site × Expr Site)} {w w₁ w' : World} {o : Outcome}
    (first : Evaluates (.expression scope key) w (.ok k) w₁)
    (h : (Operation.file scope table k value pairs).Means w₁ o w') :
    Evaluates (.entries scope table ((key, value) :: pairs)) w o w' := by
  rw [Operation.Means] at h
  cases hkey : k.key? with
  | none =>
    simp only [hkey] at h
    obtain ⟨rfl, rfl⟩ := h
    exact .unhashable first hkey
  | some hashKey =>
    simp only [hkey] at h
    rcases h with ⟨x, hvalue, rfl⟩ | ⟨v, w₂, hvalue, hothers⟩
    · exact .valueThrows first hkey hvalue
    · exact .entry first hkey hvalue hothers

/-- A name comes to what it is bound to, and otherwise to a builtin function or a fault. -/
theorem Evaluates.name {w : World} (hw : w.Clean) (scope : ScopeId) (text : String) :
    Evaluates (.expression scope (.name text)) w (w.named scope text).outcome w := by
  unfold World.named
  cases hlookup : w.lookup scope text with
  | some value =>
    simp only
    rw [Value.outcome_of_plain (hw.binds.lookup hlookup).isSignal]
    exact .bound hlookup
  | none =>
    cases hbuiltin : Builtin.ofName? text with
    | some b => exact .builtin hlookup hbuiltin
    | none => exact .unbound hlookup hbuiltin

/-- What comes of the way in which a task goes on. -/
def Move.Means (w : World) (o : Outcome) (w' : World) : Move → Prop
  | done v w₁ => o = v.outcome ∧ w' = w₁
  | become t w₁ => t.Means w₁ o w'
  | await t f =>
    (∃ x, t.Means w (.error x) w' ∧ o = .error x) ∨
      ∃ v w₁, t.Means w (.ok v) w₁ ∧ (f.next v).Means w₁ o w'
  | enter t w₁ => ∃ p, t.Means w₁ p w' ∧ o = p.caught

section Means

variable {o : Outcome} {w w' : World}

/-- An expression comes to what comes of the way in which it goes on. -/
theorem Move.means_expression (hw : w.Clean) {scope : ScopeId} {e : Expr Site}
    (h : (expression w scope e).Means w o w') : Evaluates (.expression scope e) w o w' := by
  cases e with
  | name text =>
    obtain ⟨rfl, rfl⟩ := h
    exact Evaluates.name hw scope text
  | integer n =>
    obtain ⟨rfl, rfl⟩ := h
    exact .integer scope n _
  | boolean b =>
    obtain ⟨rfl, rfl⟩ := h
    exact .boolean scope b _
  | string text =>
    obtain ⟨rfl, rfl⟩ := h
    exact .string scope text _
  | unary operator operand =>
    -- What is waited for throws, or the frame goes on with its value.
    obtain ⟨x, hx, rfl⟩ | ⟨v, w₁, hv, rfl, rfl⟩ := h
    · exact .unaryThrows hx
    · exact .unary hv
  | binary l operator r =>
    obtain ⟨x, hx, rfl⟩ | ⟨a, w₁, hleft, p, hright, rfl⟩ := h
    · exact .leftThrows hx
    · cases p with
      | ok b => exact .binary hleft hright
      | error x => exact .rightThrows hleft hright
  | conditional test chosen other =>
    obtain ⟨x, hx, rfl⟩ | ⟨v, w₁, htest, hbranch⟩ := h
    · exact .testThrows hx
    · exact htest.conditional hbranch
  | function site parameters body =>
    obtain ⟨rfl, rfl⟩ := h
    exact .function scope site parameters body _
  | call callee as =>
    obtain ⟨x, hx, rfl⟩ | ⟨f, w₁, hcallee, hcall⟩ := h
    · exact .calleeThrows hx
    · exact .call hcallee hcall
  | array elements => exact .array h
  | index collection position =>
    obtain ⟨x, hx, rfl⟩ | ⟨c, w₁, hcollection, p, hposition, rfl⟩ := h
    · exact .collectionThrows hx
    · cases p with
      | ok i => exact .index hcollection hposition
      | error x => exact .positionThrows hcollection hposition
  | hash pairs => exact .hash h

/-- An operation comes to what comes of the way in which it goes on. -/
theorem Operation.Clean.means {operation : Operation} (ho : operation.Clean)
    (h : (operation.begin w).Means w o w') : operation.Means w o w' := by
  cases operation with
  | unary operator v =>
    obtain ⟨rfl, rfl⟩ := h
    exact ⟨Value.outcome_ofResult fun _ => Value.hereditary_clean.unary, rfl⟩
  | binary l operator r =>
    obtain ⟨rfl, rfl⟩ := h
    exact ⟨Value.outcome_ofResult fun _ => Value.hereditary_clean.binary ho.1 ho.2, rfl⟩
  | index c p =>
    obtain ⟨rfl, rfl⟩ := h
    exact ⟨Value.outcome_ofResult fun _ => Value.hereditary_clean.index ho.1, rfl⟩
  | branch scope test chosen other =>
    by_cases htest : test.truthy = true
    · simp only [begin, Means, htest, if_true] at h ⊢
      exact h
    · simp only [begin, Means, htest, Bool.false_eq_true, if_false] at h ⊢
      cases other <;> exact h
  | call callee as =>
    cases callee with
    | function identity f =>
      by_cases arity : as.length = f.parameters.length
      · simp only [begin, arity, if_true] at h
        obtain ⟨p, hbody, rfl⟩ := h
        exact .apply arity hbody
      · simp only [begin, arity, if_false] at h
        obtain ⟨rfl, rfl⟩ := h
        exact .arity arity
    | builtin b =>
      obtain ⟨rfl, rfl⟩ := h
      rw [Value.outcome_ofResult fun _ => Value.hereditary_clean.call ho.2 b]
      exact .applyBuiltin b as w
    | _ =>
      obtain ⟨rfl, rfl⟩ := h
      exact .notAFunction (by simp [Value.type]) (by simp [Value.type])
  | bind scope name v => exact h
  | file scope table k value pairs =>
    rw [begin] at h
    rw [Means]
    cases hkey : k.key? with
    | none =>
      simp only [hkey] at h
      exact h
    | some hashKey =>
      simp only [hkey] at h
      obtain ⟨x, hx, rfl⟩ | ⟨v, w₁, hvalue, hothers⟩ := h
      · exact .inl ⟨x, hx, rfl⟩
      · exact .inr ⟨v, w₁, hvalue, hothers⟩
  | leave v => exact h

/-- A task with clean values comes to what comes of the way in which it goes on in a clean world. -/
theorem Task.Clean.means {t : Task} (ht : t.Clean) (hw : w.Clean) {move : Move}
    (hbegin : t.begin w = move) (h : move.Means w o w') : t.Means w o w' := by
  subst hbegin
  cases t with
  | expression scope e => exact Move.means_expression hw h
  | right scope l operator e =>
    obtain ⟨x, hx, rfl⟩ | ⟨r, w₁, hright, rfl, rfl⟩ := h
    · exact ⟨_, hx, rfl⟩
    · exact ⟨_, hright, rfl⟩
  | position scope c e =>
    obtain ⟨x, hx, rfl⟩ | ⟨i, w₁, hposition, rfl, rfl⟩ := h
    · exact ⟨_, hx, rfl⟩
    · exact ⟨_, hposition, rfl⟩
  | arguments scope callee done es =>
    cases es with
    | nil => exact .noArgument h
    | cons e es =>
      obtain ⟨x, hx, rfl⟩ | ⟨v, w₁, hfirst, hothers⟩ := h
      · exact .argumentThrows hx
      · exact .argument hfirst hothers
  | elements scope done es =>
    cases es with
    | nil =>
      obtain ⟨rfl, rfl⟩ := h
      exact .noElement scope done w
    | cons e es =>
      obtain ⟨x, hx, rfl⟩ | ⟨v, w₁, hfirst, hothers⟩ := h
      · exact .elementThrows hx
      · exact .element hfirst hothers
  | entries scope table pairs =>
    cases pairs with
    | nil =>
      obtain ⟨rfl, rfl⟩ := h
      exact .noEntry scope table w
    | cons pair pairs =>
      obtain ⟨x, hx, rfl⟩ | ⟨k, w₁, hkey, hfile⟩ := h
      · exact .keyThrows hx
      · exact hkey.filed hfile
  | statement scope s =>
    cases s with
    | define name value =>
      obtain ⟨x, hx, rfl⟩ | ⟨v, w₁, hvalue, rfl, rfl⟩ := h
      · exact .defineThrows hx
      · exact .define hvalue
    | leave value =>
      obtain ⟨x, hx, rfl⟩ | ⟨v, w₁, hvalue, rfl, rfl⟩ := h
      · exact .leaveThrows hx
      · exact .leave hvalue
    | expression value => exact .expression h
  | block scope last ss =>
    cases ss with
    | nil =>
      obtain ⟨rfl, rfl⟩ := h
      have hlast : last.Clean := ht
      rw [Value.outcome_of_plain hlast.isSignal]
      exact .noStep scope last _
    | cons s ss =>
      obtain ⟨x, hx, rfl⟩ | ⟨v, w₁, hfirst, hothers⟩ := h
      · exact .stepThrows hx
      · exact .step hfirst hothers
  | operate operation => exact Operation.Clean.means ht h

end Means

/-- A task comes to what the value stands for that it gives. -/
theorem Runs.means {depth : Nat} {t : Task} {w w' : World} {v : Value} (h : Runs depth t w v w')
    (ht : t.Clean) (hw : w.Clean) : t.Means w v.outcome w' := by
  induction h with
  | done move => exact ht.means hw move ⟨rfl, rfl⟩
  | become move _ ih =>
    have hmove := ht.sound hw move
    exact ht.means hw move (ih hmove.1 hmove.2)
  | pass move _ signal ih =>
    have hmove := ht.sound hw move
    have hfirst := ih hmove.1 hw
    obtain ⟨x, hx⟩ := Value.outcome_of_signal signal
    rw [hx] at hfirst ⊢
    exact ht.means hw move (.inl ⟨x, hfirst, rfl⟩)
  | next move first plain _ ih ih' =>
    have hmove := ht.sound hw move
    have hfirst := ih hmove.1 hw
    rw [Value.outcome_of_plain plain] at hfirst
    obtain ⟨hpassable, hw₁⟩ := first.sound hmove.1 hw
    have hnext := hmove.2.next (hpassable.clean plain)
    exact ht.means hw move (.inr ⟨_, _, hfirst, ih' hnext hw₁⟩)
  | enter move run ih =>
    have hmove := ht.sound hw move
    obtain ⟨hpassable, -⟩ := run.sound hmove.1 hmove.2
    exact ht.means hw move ⟨_, ih hmove.1 hmove.2, Value.outcome_delivered hpassable⟩

/-- A task gives something that stands for an outcome. -/
def Stands (t : Task) (w : World) (o : Outcome) (w' : World) : Prop :=
  ∃ v, Gives t w v w' ∧ v.outcome = o

namespace Stands

variable {t t' : Task} {f : Frame} {u v : Value} {o : Outcome} {x : Thrown} {w w₁ w' : World}

theorem done (move : t.begin w = .done v w') (h : v.outcome = o) : Stands t w o w' :=
  ⟨v, .done move, h⟩

theorem become (move : t.begin w = .become t' w₁) (h : Stands t' w₁ o w') : Stands t w o w' := by
  obtain ⟨v, hv, ho⟩ := h
  exact ⟨v, hv.become move, ho⟩

theorem pass (move : t.begin w = .await t' f) (h : Stands t' w (.error x) w') :
    Stands t w (.error x) w' := by
  obtain ⟨v, hv, ho⟩ := h
  exact ⟨v, hv.pass move (Value.isSignal_of_outcome ho), ho⟩

theorem next (move : t.begin w = .await t' f) (h : Stands t' w (.ok u) w₁)
    (h' : Stands (f.next u) w₁ o w') : Stands t w o w' := by
  obtain ⟨v, hv, hu⟩ := h
  obtain ⟨rfl, plain⟩ := Value.outcome_eq_ok_iff.1 hu
  obtain ⟨v', hv', ho⟩ := h'
  exact ⟨v', hv.next move plain hv', ho⟩

theorem enter (ht : t.Clean) (hw : w.Clean) (move : t.begin w = .enter t' w₁)
    (h : Stands t' w₁ o w') : Stands t w o.caught w' := by
  obtain ⟨v, ⟨depth, hrun⟩, rfl⟩ := h
  have hmove := ht.sound hw move
  obtain ⟨hpassable, -⟩ := hrun.sound hmove.1 hmove.2
  exact ⟨v.delivered, .enter move ⟨depth, hrun⟩, Value.outcome_delivered hpassable⟩

/-- A value that comes of a task with clean values in a clean world is clean, and so is the world
after it. -/
theorem clean (h : Stands t w (.ok u) w') (ht : t.Clean) (hw : w.Clean) : u.Clean ∧ w'.Clean := by
  obtain ⟨v, ⟨depth, hrun⟩, hu⟩ := h
  obtain ⟨rfl, plain⟩ := Value.outcome_eq_ok_iff.1 hu
  obtain ⟨hpassable, hw'⟩ := hrun.sound ht hw
  exact ⟨hpassable.clean plain, hw'⟩

end Stands

/-- What comes of a job, the evaluator gives something that stands for it. -/
theorem Evaluates.stands {j : Job} {w w' : World} {o : Outcome} (h : Evaluates j w o w')
    (hj : j.task.Clean) (hw : w.Clean) : Stands j.task w o w' := by
  -- Where a part throws, its signal is handed on; where it does not, its value goes to the frame, and
  -- it is clean, as is the world after it, so that the next part can be looked at.
  induction h with
  | @bound scope text w v found =>
    refine .done rfl ?_
    simp only [World.named, found]
    exact Value.outcome_of_plain (hw.binds.lookup found).isSignal
  | builtin unbound found =>
    refine .done rfl ?_
    simp only [World.named, unbound, found]
    rfl
  | unbound unbound unknown =>
    refine .done rfl ?_
    simp only [World.named, unbound, unknown]
    rfl
  | integer scope n w => exact .done rfl rfl
  | boolean scope b w => exact .done rfl rfl
  | string scope text w => exact .done rfl rfl
  | unary operand ih =>
    refine .next rfl (ih trivial hw) (.done rfl ?_)
    exact Value.outcome_ofResult fun _ => Value.hereditary_clean.unary
  | unaryThrows operand ih => exact .pass rfl (ih trivial hw)
  | binary left right ih ih' =>
    have hleft := ih trivial hw
    obtain ⟨hl, hw₁⟩ := hleft.clean trivial hw
    have hright := ih' trivial hw₁
    obtain ⟨hr, -⟩ := hright.clean trivial hw₁
    refine .next rfl hleft (.next rfl hright (.done rfl ?_))
    exact Value.outcome_ofResult fun _ => Value.hereditary_clean.binary hl hr
  | leftThrows left ih => exact .pass rfl (ih trivial hw)
  | rightThrows left right ih ih' =>
    have hleft := ih trivial hw
    obtain ⟨-, hw₁⟩ := hleft.clean trivial hw
    exact .next rfl hleft (.pass rfl (ih' trivial hw₁))
  | chosen test holds block ih ih' =>
    have htest := ih trivial hw
    obtain ⟨-, hw₁⟩ := htest.clean trivial hw
    refine .next rfl htest (.become ?_ (ih' .null hw₁))
    simp only [Frame.next, Task.begin, Operation.begin, holds, if_true]
    rfl
  | otherwise test fails block ih ih' =>
    have htest := ih trivial hw
    obtain ⟨-, hw₁⟩ := htest.clean trivial hw
    refine .next rfl htest (.become ?_ (ih' .null hw₁))
    simp only [Frame.next, Task.begin, Operation.begin, fails, Bool.false_eq_true, if_false]
    rfl
  | neither test fails ih =>
    refine .next rfl (ih trivial hw) (.done (v := .null) ?_ rfl)
    simp only [Frame.next, Task.begin, Operation.begin, fails, Bool.false_eq_true, if_false]
  | testThrows test ih => exact .pass rfl (ih trivial hw)
  | function scope site parameters body w => exact .done rfl rfl
  | call callee arguments ih ih' =>
    have hcallee := ih trivial hw
    obtain ⟨hf, hw₁⟩ := hcallee.clean trivial hw
    exact .next rfl hcallee (ih' ⟨hf, by simp⟩ hw₁)
  | calleeThrows callee ih => exact .pass rfl (ih trivial hw)
  | argument first others ih ih' =>
    have hfirst := ih trivial hw
    obtain ⟨hv, hw₁⟩ := hfirst.clean trivial hw
    refine .next rfl hfirst (ih' ⟨hj.1, ?_⟩ hw₁)
    exact List.forall_mem_append.2 ⟨hj.2, List.forall_mem_singleton.2 hv⟩
  | argumentThrows first ih => exact .pass rfl (ih trivial hw)
  | noArgument call ih => exact .become rfl (ih hj hw)
  | @apply identity f arguments w w' o arity body ih =>
    have hmove : (Job.call (.function identity f) arguments).task.begin w =
        .enter (.block w.nextScope .null f.body)
          (w.openScope (some f.scope) (f.parameters.zip arguments)) := if_pos arity
    have hsound := hj.sound hw hmove
    exact .enter hj hw hmove (ih .null hsound.2)
  | arity arity => exact .done (if_neg arity) rfl
  | applyBuiltin b arguments w =>
    refine .done rfl ?_
    exact Value.outcome_ofResult fun _ => Value.hereditary_clean.call hj.2 b
  | @notAFunction f arguments w function builtin =>
    refine .done (v := .error (.notAFunction f.type)) ?_ rfl
    cases f with
    | function identity f => exact absurd rfl function
    | builtin b => exact absurd rfl builtin
    | _ => rfl
  | array elements ih => exact .become rfl (ih (List.forall_mem_nil _) hw)
  | element first others ih ih' =>
    have hfirst := ih trivial hw
    obtain ⟨hv, hw₁⟩ := hfirst.clean trivial hw
    refine .next rfl hfirst (ih' ?_ hw₁)
    exact List.forall_mem_append.2 ⟨hj, List.forall_mem_singleton.2 hv⟩
  | elementThrows first ih => exact .pass rfl (ih trivial hw)
  | noElement scope done w => exact .done rfl rfl
  | index collection position ih ih' =>
    have hcollection := ih trivial hw
    obtain ⟨hc, hw₁⟩ := hcollection.clean trivial hw
    refine .next rfl hcollection (.next rfl (ih' trivial hw₁) (.done rfl ?_))
    exact Value.outcome_ofResult fun _ => Value.hereditary_clean.index hc
  | collectionThrows collection ih => exact .pass rfl (ih trivial hw)
  | positionThrows collection position ih ih' =>
    have hcollection := ih trivial hw
    obtain ⟨-, hw₁⟩ := hcollection.clean trivial hw
    exact .next rfl hcollection (.pass rfl (ih' trivial hw₁))
  | hash entries ih => exact .become rfl (ih (List.forall_mem_nil _) hw)
  | entry first hashable second others ih ih' ih'' =>
    have hfirst := ih trivial hw
    obtain ⟨hk, hw₁⟩ := hfirst.clean trivial hw
    have hsecond := ih' trivial hw₁
    obtain ⟨hv, hw₂⟩ := hsecond.clean trivial hw₁
    refine .next rfl hfirst (.next (Operation.begin_file hashable) hsecond (ih'' ?_ hw₂))
    exact Table.Clean.insert hj _ hk hv
  | keyThrows first ih => exact .pass rfl (ih trivial hw)
  | unhashable first unhashable ih =>
    refine .next rfl (ih trivial hw) (.done (Operation.begin_unfiled unhashable) rfl)
  | valueThrows first hashable second ih ih' =>
    have hfirst := ih trivial hw
    obtain ⟨-, hw₁⟩ := hfirst.clean trivial hw
    exact .next rfl hfirst (.pass (Operation.begin_file hashable) (ih' trivial hw₁))
  | noEntry scope table w => exact .done rfl rfl
  | define value ih => exact .next rfl (ih trivial hw) (.done rfl rfl)
  | defineThrows value ih => exact .pass rfl (ih trivial hw)
  | leave value ih => exact .next rfl (ih trivial hw) (.done rfl rfl)
  | leaveThrows value ih => exact .pass rfl (ih trivial hw)
  | expression value ih => exact .become rfl (ih trivial hw)
  | step first others ih ih' =>
    have hfirst := ih trivial hw
    obtain ⟨hv, hw₁⟩ := hfirst.clean trivial hw
    exact .next rfl hfirst (ih' hv hw₁)
  | stepThrows first ih => exact .pass rfl (ih trivial hw)
  | noStep scope last w =>
    have hlast : last.Clean := hj
    exact .done rfl (Value.outcome_of_plain hlast.isSignal)

/-- With some bound on the calls that are active at once, a program comes to an end in a clean world
exactly when it does with exceptions. -/
theorem exists_program_iff_concludes {scope : ScopeId} {program : Program} {w w' : World} {v : Value}
    (hw : w.Clean) :
    (∃ depth, (Eval.program depth scope program).run w = some (v, w')) ↔
      Concludes scope program w v w' := by
  rw [exists_program_iff]
  constructor
  · rintro ⟨u, ⟨depth, hrun⟩, rfl⟩
    have hmeans := hrun.means .null hw
    exact ⟨u.outcome, hmeans, u.result_outcome.symm⟩
  · rintro ⟨o, hevaluates, rfl⟩
    obtain ⟨u, hu, rfl⟩ := hevaluates.stands .null hw
    exact ⟨u, hu, u.result_outcome⟩

/-- In a clean world, a program comes to an end exactly when it does with exceptions, with the same
value and in the same world. It does so with any sufficient bound on the calls that are active at
once, and it can come to no other end. -/
theorem signals_are_exceptions {scope : ScopeId} {program : Program} {w w' : World} {v : Value}
    (hw : w.Clean) :
    ((∃ depth, (Eval.program depth scope program).run w = some (v, w')) ↔
        Concludes scope program w v w') ∧
      (Concludes scope program w v w' →
        (∃ least, ∀ depth ≥ least, (Eval.program depth scope program).run w = some (v, w')) ∧
          ∀ u w₁, Concludes scope program w u w₁ → u = v ∧ w₁ = w') := by
  refine ⟨exists_program_iff_concludes hw, fun h => ?_⟩
  obtain ⟨m, hm⟩ := (exists_program_iff_concludes hw).2 h
  constructor
  · exact ⟨m, fun depth hle => program_mono hm hle⟩
  · intro u w₁ h₁
    obtain ⟨n, hn⟩ := (exists_program_iff_concludes hw).2 h₁
    have hv := program_mono hm (Nat.le_max_left m n)
    have hu := program_mono hn (Nat.le_max_right m n)
    cases hv.symm.trans hu
    exact ⟨rfl, rfl⟩

/-- A `return` out of the elements of an array: no later element is evaluated, so nothing is
written. -/
theorem return_is_exception :
    let elements : List (Expr Site) :=
      [.conditional (.boolean true) [.leave (.integer 2)] none, .call (.name "puts") [.string "b"]]
    let program : Program :=
      [.expression (.call (.function ⟨0, [0]⟩ [] [.expression (.array elements)]) [])]
    let w : World := .initial .unlimited
    ∃ w', w.Clean ∧ (Eval.program 1 globalScope program).run w = some (.integer 2, w') ∧
      Concludes globalScope program w (.integer 2) w' ∧ w'.sink.offered = [] := by
  intro elements program w
  have hw : w.Clean := Session.clean (.start : Session .unlimited _)
  refine ⟨_, hw, rfl, ?_, rfl⟩
  exact (signals_are_exceptions hw).1.1 ⟨1, rfl⟩

end Monkey
