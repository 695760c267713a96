import Monkey.Proofs.Evaluation.Confinement
import Monkey.Proofs.Evaluation.Invariant
import Monkey.Proofs.Evaluation.Orderly
import Monkey.Proofs.Rendering.Marks
import Monkey.Proofs.Rendering.RoundTrip

/-!
# Faults are truthful

When a program that has been read ends in a fault, what the fault says is so: the types in it are those
of values, and of no signals; they are types that the operator, the builtin function or the syntax in
question cannot deal with; and output is only said to be refused if it was refused just before. The
arms of the evaluator that are there for operators and operands that do not occur are never reached.
-/

namespace Monkey

/-- It is the type of something other than a signal. -/
def ValueType.Plain (t : ValueType) : Prop := t ≠ .returned ∧ t ≠ .error

/-- The type of a clean value is none of a signal. -/
theorem Value.Clean.plain {v : Value} (h : v.Clean) : v.type.Plain := by
  cases h <;> exact ⟨ValueType.noConfusion, ValueType.noConfusion⟩

/-- The last piece that the sink was offered was refused, for the given reason, and it was offered
after an earlier world. -/
def World.RefusedSince (w w' : World) (reason : String) : Prop :=
  ∃ earlier piece refusal, w'.sink.offered = piece :: earlier ∧ w.sink.offered <:+ earlier ∧
    w'.sink.judge earlier piece = some refusal ∧ refusal.reason = reason

/-- What a fault says of an evaluation that began in one world and ended with the fault in another one
is so. -/
def Fault.Truthful (w w' : World) : Fault → Prop
  | unaryOperator operator right => operator = .symbol .minus ∧ right ≠ .integer ∧ right.Plain
  | binaryOperator left operator right =>
    left = right ∧ left.Plain ∧ left ≠ .integer ∧ operator ∈ binaryOperators ∧
      (operator = .symbol .equal ∨ operator = .symbol .notEqual → left = .string) ∧
      (left = .string → operator ≠ .symbol .plus)
  | typeMismatch left operator right =>
    left ≠ right ∧ left.Plain ∧ right.Plain ∧
      operator ∈ [.symbol .plus, .symbol .minus, .symbol .asterisk, .symbol .slash, .symbol .less,
        .symbol .greater]
  | divisionByZero => True
  | unbound name => Builtin.ofName? name = none
  | notAFunction got => got ≠ .function ∧ got ≠ .builtin ∧ got.Plain
  | arity expected got => expected ≠ got
  | unsupported builtin got => builtin = .len ∧ got ≠ .string ∧ got ≠ .array ∧ got.Plain
  | wrongType builtin expected got =>
    builtin ∈ [.first, .last, .rest, .push] ∧ expected = .array ∧ got ≠ .array ∧ got.Plain
  | unhashable got => got ≠ .integer ∧ got ≠ .boolean ∧ got ≠ .string ∧ got.Plain
  | notIndexable got => got ≠ .hash ∧ got.Plain
  | output reason => w.RefusedSince w' reason

variable {w w₁ w' : World} {fault : Fault}

/-- A refusal after some world is one after every world before it. -/
theorem World.RefusedSince.of_suffix {reason : String} (h : w₁.RefusedSince w' reason)
    (hsuffix : w.sink.offered <:+ w₁.sink.offered) : w.RefusedSince w' reason := by
  obtain ⟨earlier, piece, refusal, hoffered, hearlier, hjudge, hreason⟩ := h
  exact ⟨earlier, piece, refusal, hoffered, hsuffix.trans hearlier, hjudge, hreason⟩

theorem Fault.Truthful.of_suffix (h : fault.Truthful w₁ w')
    (hsuffix : w.sink.offered <:+ w₁.sink.offered) : fault.Truthful w w' := by
  cases fault with
  | output reason => exact World.RefusedSince.of_suffix h hsuffix
  | _ => exact h

/-- The sink only gets further pieces. -/
theorem World.Evolves.offered {may : ScopeId → String → Prop} (h : w.Evolves may w') :
    w.sink.offered <:+ w'.sink.offered := by
  obtain ⟨pieces, hpieces⟩ := h.sink
  rw [hpieces]
  clear hpieces
  induction pieces using List.reverseRecOn with
  | nil => exact List.suffix_refl _
  | append_singleton pieces piece ih =>
    rw [List.foldl_append]
    exact ih.trans (List.suffix_cons _ _)

namespace Value

theorem truthful_unary {operator : Token} {right : Value}
    (hop : operator ∈ Grammar.unaryOperators) (hr : right.Clean)
    (h : unary operator right = .error fault) : fault.Truthful w w' := by
  simp only [Grammar.unaryOperators, List.mem_cons, List.not_mem_nil, or_false] at hop
  rcases hop with rfl | rfl
  · cases h
  · have hplain := hr.plain
    cases hr with
    | integer n => cases h
    | _ =>
      cases h
      exact ⟨rfl, ValueType.noConfusion, hplain⟩

/-- Between operands of which not both are numbers, and not both texts, a comparison tells truthfully
what it does not support. -/
theorem truthful_comparison {left right : Value} {operator : Token}
    (hop : operator ∈ binaryOperators) (hl : left.Clean) (hr : right.Clean)
    (hnumbers : left.type = right.type → left.type ≠ .integer)
    (htexts : left.type = right.type → left.type ≠ .string)
    (h : comparison operator left right = .error fault) : fault.Truthful w w' := by
  unfold comparison at h
  split at h
  · cases h
  · cases h
  · next hequal hnotEqual =>
    split at h
    · next htype =>
      cases h
      refine ⟨htype, hl.plain, hnumbers htype, hop, ?_, fun hs => absurd hs (htexts htype)⟩
      rintro (rfl | rfl)
      · exact absurd rfl hequal
      · exact absurd rfl hnotEqual
    · next htype =>
      cases h
      refine ⟨htype, hl.plain, hr.plain, ?_⟩
      simp only [binaryOperators, List.mem_cons, List.not_mem_nil, or_false] at hop ⊢
      grind

theorem truthful_arithmetic {operator : Token} {m n : Int64} (hop : operator ∈ binaryOperators)
    (h : arithmetic operator m n = .error fault) : fault.Truthful w w' := by
  simp only [binaryOperators, List.mem_cons, List.not_mem_nil, or_false] at hop
  rcases hop with rfl | rfl | rfl | rfl | rfl | rfl | rfl | rfl
  case inr.inr.inr.inl =>
    simp only [arithmetic] at h
    split at h <;> cases h
    trivial
  all_goals cases h

theorem truthful_joining {operator : Token} {s t : String} (hop : operator ∈ binaryOperators)
    (h : joining operator s t = .error fault) : fault.Truthful w w' := by
  unfold joining at h
  split at h
  · cases h
  · next hplus =>
    cases h
    exact ⟨rfl, ⟨ValueType.noConfusion, ValueType.noConfusion⟩, ValueType.noConfusion, hop,
      fun _ => rfl, fun _ => hplus⟩

/-- An operator between its operands tells truthfully what it does not support. -/
theorem truthful_binary {left right : Value} {operator : Token} (hop : operator ∈ binaryOperators)
    (hl : left.Clean) (hr : right.Clean) (h : binary left operator right = .error fault) :
    fault.Truthful w w' := by
  unfold binary at h
  split at h
  · exact truthful_arithmetic hop h
  · exact truthful_joining hop h
  · next hnumbers htexts =>
    refine truthful_comparison hop hl hr (fun htype hinteger => ?_) (fun htype hstring => ?_) h
    · rw [hinteger] at htype
      cases hl <;> cases hinteger
      cases hr <;> cases htype
      exact hnumbers _ _ rfl rfl
    · rw [hstring] at htype
      cases hl <;> cases hstring
      cases hr <;> cases htype
      exact htexts _ _ rfl rfl

/-- Only numbers, truth values and texts can be keys. -/
theorem Clean.unhashable {v : Value} (h : v.Clean) (hkey : v.key? = none) :
    (Fault.unhashable v.type).Truthful w w' := by
  have hplain := h.plain
  cases h with
  | integer n => cases hkey
  | boolean b => cases hkey
  | string text => cases hkey
  | _ => exact ⟨ValueType.noConfusion, ValueType.noConfusion, ValueType.noConfusion, hplain⟩

theorem truthful_index {collection position : Value} (hc : collection.Clean) (hp : position.Clean)
    (h : index collection position = .error fault) : fault.Truthful w w' := by
  have hplain := hc.plain
  cases hc with
  | array identity helements =>
    cases hp with
    | integer i => cases h
    | _ =>
      cases h
      exact ⟨ValueType.noConfusion, hplain⟩
  | hash identity hkeys hvalues =>
    simp only [index] at h
    split at h
    · cases h
    · next hkey =>
      cases h
      exact hp.unhashable hkey
  | _ =>
    cases h
    exact ⟨ValueType.noConfusion, hplain⟩

end Value

namespace Builtin

/-- A fault of two steps is a fault of one of them. -/
theorem error_of_bind_eq_error {α β : Type} {x : Except Fault α} {f : α → Except Fault β}
    (h : x >>= f = .error fault) : x = .error fault ∨ ∃ a, x = .ok a ∧ f a = .error fault := by
  cases x with
  | ok a => exact .inr ⟨a, rfl, h⟩
  | error other =>
    cases h
    exact .inl rfl

theorem truthful_only {arguments : List Value} (h : only arguments = .error fault) :
    fault.Truthful w w' := by
  unfold only at h
  split at h
  · cases h
  · next hone =>
    cases h
    intro hlength
    obtain ⟨v, rfl⟩ := List.length_eq_one_iff.1 hlength.symm
    exact hone v rfl

theorem truthful_elements {b : Builtin} {v : Value} (hb : b ∈ [first, last, rest, push])
    (hv : v.Clean) (h : elements b v = .error fault) : fault.Truthful w w' := by
  have hplain := hv.plain
  cases hv with
  | array identity helements => cases h
  | _ =>
    cases h
    exact ⟨hb, rfl, ValueType.noConfusion, hplain⟩

theorem truthful_length {v : Value} (hv : v.Clean) (h : length v = .error fault) :
    fault.Truthful w w' := by
  have hplain := hv.plain
  cases hv with
  | string text => cases h
  | array identity helements => cases h
  | _ =>
    cases h
    exact ⟨rfl, ValueType.noConfusion, ValueType.noConfusion, hplain⟩

theorem truthful_only_elements {b : Builtin} {arguments : List Value}
    (hb : b ∈ [first, last, rest, push]) (ha : ∀ v ∈ arguments, v.Clean)
    (h : only arguments >>= elements b = .error fault) : fault.Truthful w w' := by
  rcases error_of_bind_eq_error h with h | ⟨v, hv, h⟩
  · exact truthful_only h
  · exact truthful_elements hb (ha v (mem_of_only hv)) h

theorem truthful_pushed {arguments : List Value} (ha : ∀ v ∈ arguments, v.Clean)
    (h : pushed arguments = .error fault) : fault.Truthful w w' := by
  unfold pushed at h
  split at h
  · next array value =>
    rcases error_of_bind_eq_error h with h | ⟨vs, -, h⟩
    · exact truthful_elements (by decide) (ha array List.mem_cons_self) h
    · cases h
  · next htwo =>
    cases h
    intro hlength
    obtain ⟨u, v, rfl⟩ := List.length_eq_two.1 hlength.symm
    exact htwo u v rfl

/-- Writing lines ends with the refusal that it tells. -/
theorem truthful_writeLines {arguments : List Value}
    (h : (writeLines arguments w).1 = .error fault) :
    fault.Truthful w (writeLines arguments w).2 := by
  induction arguments generalizing w with
  | nil => cases h
  | cons v vs ih =>
    rw [writeLines] at h ⊢
    cases hrefusal : w.sink.refusal? (line v) with
    | some refusal =>
      rw [hrefusal] at h
      cases h
      exact ⟨w.sink.offered, line v, refusal, rfl, List.suffix_refl _, hrefusal, rfl⟩
    | none =>
      rw [hrefusal] at h
      exact (ih h).of_suffix (List.suffix_cons _ _)

/-- A builtin function tells truthfully what it cannot deal with. -/
theorem truthful_call (b : Builtin) {arguments : List Value} (ha : ∀ v ∈ arguments, v.Clean)
    (h : (b.call arguments w).1 = .error fault) : fault.Truthful w (b.call arguments w).2 := by
  cases b with
  | len =>
    rcases error_of_bind_eq_error h with h | ⟨v, hv, h⟩
    · exact truthful_only h
    · exact truthful_length (ha v (mem_of_only hv)) h
  | first =>
    rcases error_of_bind_eq_error h with h | ⟨v, hv, h⟩
    · exact truthful_only h
    rcases error_of_bind_eq_error h with h | ⟨vs, -, h⟩
    · exact truthful_elements (by decide) (ha v (mem_of_only hv)) h
    · cases h
  | last =>
    rcases error_of_bind_eq_error h with h | ⟨v, hv, h⟩
    · exact truthful_only h
    rcases error_of_bind_eq_error h with h | ⟨vs, -, h⟩
    · exact truthful_elements (by decide) (ha v (mem_of_only hv)) h
    · cases h
  | rest =>
    rw [call] at h
    split at h
    · next other hother =>
      cases h
      exact truthful_only_elements (by decide) ha hother
    · cases h
    · cases h
  | push =>
    rw [call] at h
    split at h
    · next other hother =>
      cases h
      exact truthful_pushed ha hother
    · cases h
  | puts => exact truthful_writeLines h

end Builtin

/-- If a task is done with a fault, the fault is truthful. -/
def Move.Truthful (w : World) : Move → Prop
  | done v w' => ∀ fault, v = .error fault → fault.Truthful w w'
  | _ => True

theorem Value.truthful_ofResult {r : Except Fault Value} (hok : ∀ v, r = .ok v → v.Clean)
    (herror : ∀ fault, r = .error fault → fault.Truthful w w') :
    (Move.done (ofResult r) w').Truthful w := by
  rintro fault h
  cases r with
  | ok v =>
    have hv : v = .error fault := h
    cases hv ▸ hok v rfl
  | error other =>
    cases h
    exact herror fault rfl

theorem Value.Clean.truthful {v : Value} (h : v.Clean) : (Move.done v w').Truthful w := by
  rintro fault rfl
  cases h

theorem Operation.truthful_begin {o : Operation} (ho : o.Clean) (hs : o.OperatorKnown) :
    (o.begin w).Truthful w := by
  have hP := Value.hereditary_clean
  cases o with
  | unary operator right =>
    exact Value.truthful_ofResult (fun _ => hP.unary) fun _ => Value.truthful_unary hs ho
  | binary left operator right =>
    exact Value.truthful_ofResult (fun _ => hP.binary ho.1 ho.2)
      fun _ => Value.truthful_binary hs ho.1 ho.2
  | index collection position =>
    exact Value.truthful_ofResult (fun _ => hP.index ho.1)
      fun _ => Value.truthful_index ho.1 ho.2
  | branch scope test chosen other =>
    rcases begin_branch scope test chosen other w with hbegin | ⟨block, -, hbegin⟩
    · rw [hbegin]
      exact Value.Clean.null.truthful
    · rw [hbegin]
      trivial
  | call callee arguments =>
    have hplain := ho.1.plain
    cases callee with
    | function identity f =>
      by_cases hlength : arguments.length = f.parameters.length
      · simp only [begin, hlength, if_true]
        trivial
      · simp only [begin, hlength, if_false]
        rintro _ ⟨⟩
        exact Ne.symm hlength
    | builtin b =>
      exact Value.truthful_ofResult (fun _ => hP.call ho.2 b) fun _ => b.truthful_call ho.2
    | _ =>
      rintro _ ⟨⟩
      exact ⟨ValueType.noConfusion, ValueType.noConfusion, hplain⟩
  | bind scope name value => exact Value.Clean.null.truthful
  | file scope table key value pairs =>
    rw [begin]
    cases hkey : key.key? with
    | none =>
      rintro _ ⟨⟩
      exact ho.2.unhashable hkey
    | some hashKey => trivial
  | leave value => rintro _ ⟨⟩

theorem World.truthful_named (hw : w.Clean) (scope : ScopeId) (text : String) :
    (Move.done (w.named scope text) w').Truthful w := by
  unfold World.named
  split
  · next value h => exact Value.Clean.truthful (hw.binds.lookup h)
  · split
    · rintro _ ⟨⟩
    · next hunknown =>
      rintro _ ⟨⟩
      exact hunknown

/-- A fault that ends a task at once is truthful. -/
theorem Task.truthful_begin {t : Task} (ht : t.Clean) (hs : t.OperatorKnown) (hw : w.Clean) :
    (t.begin w).Truthful w := by
  cases t with
  | expression scope e =>
    cases e with
    | name text => exact World.truthful_named hw scope text
    | integer n => exact (Value.Clean.integer n).truthful
    | boolean b => exact (Value.Clean.boolean b).truthful
    | string text => exact (Value.Clean.string text).truthful
    | function site parameters body => exact (Value.Clean.function _ _).truthful
    | _ => trivial
  | arguments scope callee done es => cases es <;> trivial
  | elements scope done es =>
    cases es with
    | nil => rintro _ ⟨⟩
    | cons e es => trivial
  | entries scope table pairs =>
    cases pairs with
    | nil => rintro _ ⟨⟩
    | cons pair pairs => trivial
  | statement scope s => cases s <;> trivial
  | block scope last ss =>
    cases ss with
    | nil => exact Value.Clean.truthful ht
    | cons s ss => trivial
  | operate o => exact Operation.truthful_begin ht hs
  | _ => trivial

/-- A fault is not brought by a `return`: it is what was come to before anything is delivered. -/
theorem Value.Passable.eq_of_delivered {v : Value} (h : v.Passable)
    (hfault : v.delivered = .error fault) : v = .error fault := by
  cases h with
  | plain h => cases h <;> cases hfault
  | fault f => exact hfault
  | returned h => cases h <;> cases hfault

/-- A fault that a task comes to is truthful, however far from the task it arises. -/
theorem Runs.truthful {depth : Nat} {t : Task} {v : Value} (h : Runs depth t w v w') (ht : t.Clean)
    (hw : w.Clean) (hs : t.OperatorKnown)
    (hk : t.Keeps (fun _ => Value.Writable) (fun _ _ => True) Expr.WellFormed w.scopes.size)
    (hb : w.Keeps fun _ => Value.Writable) : ∀ fault, v = .error fault → fault.Truthful w w' := by
  induction h with
  | @done depth t w w' v move =>
    have hmove := Task.truthful_begin ht hs hw
    rw [move] at hmove
    exact hmove
  | @become depth t t' w w₁ w' v move _ ih =>
    obtain ⟨ht', hw₁⟩ := ht.sound hw move
    obtain ⟨hk', hb₁, -⟩ := hk.begin lasting_writable hb move
    have hwithin := t.within_begin w
    rw [move] at hwithin
    obtain ⟨rfl, -⟩ := hwithin
    exact ih ht' hw (hs.begin hk.code move) hk' hb
  | pass move _ _ ih =>
    obtain ⟨ht', -⟩ := ht.sound hw move
    obtain ⟨hk', -⟩ := hk.begin lasting_writable hb move
    obtain ⟨hs', -⟩ := hs.begin hk.code move
    exact ih ht' hw hs' hk' hb
  | next move first plain _ ih ih' =>
    obtain ⟨ht', hf⟩ := ht.sound hw move
    obtain ⟨hk', hg⟩ := hk.begin lasting_writable hb move
    obtain ⟨hs', hknown⟩ := hs.begin hk.code move
    obtain ⟨hu, hw₁⟩ := first.sound ht' hw
    obtain ⟨hu', hb₁⟩ := first.keeps lasting_writable hk' hb
    have hnext := (hg.mono lasting_writable first.evolves.scopes).next lasting_writable hu'
    intro fault hv
    exact (ih' (hf.next (hu.clean plain)) hw₁ (hknown.next _) hnext hb₁ fault hv).of_suffix
      first.evolves.offered
  | @enter depth t t' w w₁ w' v move body ih =>
    obtain ⟨ht', hw₁⟩ := ht.sound hw move
    obtain ⟨hk', hb₁, -⟩ := hk.begin lasting_writable hb move
    have hwithin := t.within_begin w
    rw [move] at hwithin
    obtain ⟨hv, -⟩ := body.sound ht' hw₁
    intro fault hfault
    exact (ih ht' hw₁ (hs.begin hk.code move) hk' hb₁ fault (hv.eq_of_delivered hfault)).of_suffix
      hwithin.1.offered

/-- The worlds that source texts lead to that are read and run one after another. -/
inductive Transcript (sink : Sink) : World → Prop where
  /-- Before the first text. -/
  | start : Transcript sink (.initial sink)
  /-- A text is read, and its program is run to its end. -/
  | run {w w' : World} {source : String} {tree : Tree} {depth : Nat} {scope : ScopeId} {v : Value}
      (h : Transcript sink w) (read : parse source = .ok tree)
      (result : (Eval.program depth scope (w.enrol tree).1).run (w.enrol tree).2 = some (v, w')) :
      Transcript sink w'

/-- Running texts makes a session. -/
theorem Transcript.session {sink : Sink} (h : Transcript sink w) : Session sink w := by
  induction h with
  | start => exact .start
  | run _ _ result ih => exact (ih.enrol _).run result

/-- A program that has been read begins with everything kept. -/
theorem Machine.keeps_enrol {R : Nat → Value → Prop} (hR : Lasting R (fun _ _ => True) Expr.WellFormed)
    {source : String} {tree : Tree} (read : parse source = .ok tree) (hw : w.Keeps R) (scope : ScopeId) :
    (start scope (w.enrol tree).1 (w.enrol tree).2).Keeps R (fun _ _ => True) Expr.WellFormed :=
  keeps_start hR ((Grammar.wellFormed_of_parse read).place w.nextProgram).values trivial (hw.congr rfl)

/-- All values that are bound in the course of such a session have the properties that last. -/
theorem Transcript.keeps {R : Nat → Value → Prop} (hR : Lasting R (fun _ _ => True) Expr.WellFormed)
    {sink : Sink} (h : Transcript sink w) : w.Keeps R := by
  induction h with
  | start => exact World.binds_initial _ sink
  | run _ read result ih =>
    exact ((Machine.keeps_enrol hR read ih _).steps hR (Machine.steps_of_program result)).world

/-- Whatever comes of a source text, the session of read texts goes on. -/
theorem Transcript.interpret {sink : Sink} (h : Transcript sink w) (depth : Nat) (scope : ScopeId)
    (source : String) : Transcript sink (w.interpret depth scope source).2 := by
  unfold World.interpret
  split
  · exact h
  · next tree read =>
    have hrun : ∀ v w', (Eval.program depth scope (w.enrol tree).1).run (w.enrol tree).2 =
        some (v, w') → Transcript sink w' := fun _ _ => h.run read
    generalize w.enrol tree = enrolled at hrun ⊢
    obtain ⟨program, w₁⟩ := enrolled
    simp only
    split
    · next value after hresult => exact hrun value after hresult
    · exact h

/-- Whenever source texts are read and run one after another in one scope that is empty at first, every
fault that one of them ends in is truthful. -/
theorem faults_are_truthful {sink : Sink} (h : Transcript sink w) {source : String} {tree : Tree}
    (read : parse source = .ok tree) {depth : Nat} {scope : ScopeId}
    (result : (Eval.program depth scope (w.enrol tree).1).run (w.enrol tree).2 =
      some (.error fault, w')) :
    fault.Truthful w w' := by
  obtain ⟨u, hrun, hu⟩ := program_eq_some_iff.1 result
  have hw : (w.enrol tree).2.Clean := h.session.clean.binds.congr rfl
  have hstart := Machine.keeps_enrol lasting_writable read (h.keeps lasting_writable) scope
  obtain ⟨hpassable, -⟩ := hrun.sound .null hw
  exact hrun.truthful .null hw trivial (hstart.task _ rfl) hstart.world fault
    (hpassable.eq_of_delivered hu.symm)

/-- In a session with a sink that refuses everything, a first text defines a name and a second one writes
its value: the fault of the second says that this was refused. -/
theorem refusal_is_truthful :
    let define : Tree := [.define "x" (.boolean true)]
    let write : Tree := [.expression (.call (.name "puts") [.name "x"])]
    let closed : Sink := ⟨.empty, [], fun _ _ => some ⟨0, "closed"⟩⟩
    ∃ w w', Transcript closed w ∧ parse "let x = true" = .ok define ∧
      parse "puts(x)" = .ok write ∧
      (Eval.program 0 globalScope (w.enrol write).1).run (w.enrol write).2 =
        some (.error (.output "closed"), w') ∧
      (Fault.output "closed").Truthful w w' := by
  intro define write closed
  have hx : IsName "x" := isName_of_small (by decide) (by simp) fun k => by cases k <;> decide
  have hputs : IsName "puts" := isName_of_small (by decide) (by simp) fun k => by cases k <;> decide
  have hdefine : WellFormed define :=
    ⟨List.forall_mem_singleton.2 hx, List.forall_mem_singleton.2 (.boolean true)⟩
  have hwrite : WellFormed write :=
    ⟨List.forall_mem_singleton.2 trivial, List.forall_mem_singleton.2
      (.call (.name hputs) (List.forall_mem_singleton.2 (.name hx)))⟩
  have read : parse "let x = true" = .ok define := @parse_renderBlock_of_wellFormed define hdefine
  have read' : parse "puts(x)" = .ok write := @parse_renderBlock_of_wellFormed write hwrite
  let w : World := (((World.initial closed).enrol define).2).define globalScope "x" (.boolean true)
  have h : Transcript closed w := @Transcript.run closed _ w _ _ 0 globalScope .null .start read rfl
  have writes : (w.enrol write).2.Finds "puts" globalScope none := .nowhere rfl rfl
  have bound : (w.enrol write).2.Finds "x" globalScope (some (.boolean true)) := .here rfl
  have hrun : Runs 0 (.block globalScope .null (w.enrol write).1) (w.enrol write).2
      (.error (.output "closed")) ((w.enrol write).2.write (Builtin.line (.boolean true))) :=
    .pass rfl (.become rfl (.next rfl (runs_builtin writes rfl) rfl (.next rfl (runs_bound bound) rfl
      (.become rfl (.done rfl))))) rfl
  have result := program_eq_some_iff.2 ⟨_, hrun, rfl⟩
  exact ⟨w, _, h, read, read', result, faults_are_truthful h read' result⟩

end Monkey
