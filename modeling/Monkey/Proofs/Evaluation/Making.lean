import Monkey.Proofs.Evaluation.Confinement
import Monkey.Proofs.Evaluation.Course

/-!
# What is made, and when

Arrays, hashes and functions are made by array, hash and function literals, and arrays by the builtin
functions `rest` and `push` too. Every step of a machine either makes one of these, with an identity that
was not used before, or everything that is there after it was there before it, or has no identity.
-/

namespace Monkey

/-- What a task makes, when it makes an array, a hash or a function. -/
inductive Task.Makes (w : World) : Task → Value → Prop where
  /-- An array literal makes an array. -/
  | array (scope : ScopeId) (elements : List Value) :
      Makes w (.elements scope elements []) (w.newArray elements).1
  /-- A hash literal makes a hash. -/
  | hash (scope : ScopeId) (table : Table (Value × Value)) :
      Makes w (.entries scope table []) (w.newHash table).1
  /-- A function literal makes a function. -/
  | function (scope : ScopeId) (site : Site) (parameters : List String) (body : List (Stmt Site)) :
      Makes w (.expression scope (.function site parameters body))
        (w.newFunction ⟨parameters, body, site, scope⟩).1
  /-- The rest of an array that is not empty is an array. -/
  | rest {arguments others : List Value} {first : Value}
      (elements : Builtin.only arguments >>= Builtin.elements .rest = .ok (first :: others)) :
      Makes w (.operate (.call (.builtin .rest) arguments)) (w.newArray others).1
  /-- An array with a further element is an array. -/
  | push {arguments elements : List Value} (pushed : Builtin.pushed arguments = .ok elements) :
      Makes w (.operate (.call (.builtin .push) arguments)) (w.newArray elements).1

namespace Value

variable {u v : Value}

/-- A value without parts: a number, a truth value, a text, `null`, a builtin function or a fault. -/
def Atom (v : Value) : Prop := v.type ∉ [.array, .hash, .function, .returned]

theorem Atom.eq_of_part (h : v.Atom) (hpart : Part u v) : u = v := by
  cases hpart with
  | self => rfl
  | _ => simp [Atom, type] at h

theorem Atom.identity?_eq (h : v.Atom) : v.identity? = none := by
  cases v <;> first | rfl | simp [Atom, type] at h

theorem atom_of_unary {operator : Token} (h : unary operator u = .ok v) : v.Atom := by
  unfold unary at h
  split at h <;> cases h <;> simp [Atom, type]

theorem atom_of_binary {operator : Token} {left right : Value} (h : binary left operator right = .ok v) :
    v.Atom := by
  unfold binary at h
  split at h
  · unfold arithmetic at h
    repeat' split at h
    all_goals cases h
    all_goals simp [Atom, type]
  · unfold joining at h
    split at h <;> cases h
    simp [Atom, type]
  · unfold comparison at h
    repeat' split at h
    all_goals cases h
    all_goals simp [Atom, type]

/-- What may be missing is `null`, or it is there. -/
theorem atom_or_mem_getD (o : Option Value) : (o.getD .null).Atom ∨ o.getD .null ∈ o := by
  cases o with
  | none => exact .inl (by simp [Atom, type])
  | some v => exact .inr rfl

/-- Indexing finds a part of the collection, or `null`. -/
theorem atom_or_part_of_index {collection position : Value} (h : index collection position = .ok v) :
    v.Atom ∨ Part v collection := by
  unfold index at h
  split at h
  · next identity elements i =>
    cases h
    unfold elementAt
    split
    · exact (atom_or_mem_getD _).imp_right fun hu => .element (List.mem_of_getElem? hu) .self
    · exact .inl (by simp [Atom, type])
  · next identity entries position =>
    split at h
    · cases h
      refine (atom_or_mem_getD _).imp_right fun hu => ?_
      obtain ⟨e, he, heq⟩ := Option.map_eq_some_iff.1 hu
      obtain ⟨k, hk⟩ := Table.mem_of_find? he
      exact heq ▸ .entry hk .self
    · cases h
  · cases h

end Value

namespace Builtin

variable {arguments : List Value} {u v : Value} {vs : List Value} {w : World}

/-- The elements of an argument are parts of it. -/
theorem part_of_mem_elements {b : Builtin} (h : elements b v = .ok vs) (hu : u ∈ vs) :
    Value.Part u v := by
  obtain ⟨identity, rfl⟩ := eq_array_of_elements h
  exact .element hu .self

theorem part_of_mem_only_elements {b : Builtin} (h : only arguments >>= elements b = .ok vs)
    (hu : u ∈ vs) : ∃ a ∈ arguments, Value.Part u a := by
  obtain ⟨a, ha, hvs⟩ := exists_of_bind_eq_ok h
  exact ⟨a, mem_of_only ha, part_of_mem_elements hvs hu⟩

theorem part_of_mem_pushed (h : pushed arguments = .ok vs) (hu : u ∈ vs) :
    ∃ a ∈ arguments, Value.Part u a := by
  unfold pushed at h
  split at h
  · next array value =>
    obtain ⟨us, hus, hvs⟩ := exists_of_bind_eq_ok h
    cases hvs
    rcases List.mem_append.1 hu with hu | hu
    · exact ⟨array, List.mem_cons_self, part_of_mem_elements hus hu⟩
    · rw [List.mem_singleton] at hu
      exact ⟨value, by simp, hu ▸ .self⟩
  · cases h

theorem atom_of_length (h : length u = .ok v) : v.Atom := by
  unfold length at h
  split at h <;> cases h <;> simp [Value.Atom, Value.type]

theorem atom_of_writeLines (h : (writeLines arguments w).1 = .ok v) : v.Atom := by
  induction arguments generalizing w with
  | nil =>
    cases h
    simp [Value.Atom, Value.type]
  | cons u us ih =>
    rw [writeLines] at h
    split at h
    · cases h
    · exact ih h

/-- A builtin function gives a value without parts, a part of an argument, or an array that it makes. -/
theorem result_of_call {b : Builtin} (h : (b.call arguments w).1 = .ok v) :
    v.Atom ∨ (∃ a ∈ arguments, Value.Part v a) ∨
      (Task.operate (.call (.builtin b) arguments)).Makes w v := by
  cases b with
  | len =>
    obtain ⟨u, -, hlength⟩ := exists_of_bind_eq_ok h
    exact .inl (atom_of_length hlength)
  | first =>
    obtain ⟨a, ha, h⟩ := exists_of_bind_eq_ok h
    obtain ⟨us, hus, h⟩ := exists_of_bind_eq_ok h
    cases h
    refine (Value.atom_or_mem_getD _).imp_right fun hu => .inl ?_
    exact ⟨a, mem_of_only ha, part_of_mem_elements hus (List.mem_of_head? hu)⟩
  | last =>
    obtain ⟨a, ha, h⟩ := exists_of_bind_eq_ok h
    obtain ⟨us, hus, h⟩ := exists_of_bind_eq_ok h
    cases h
    refine (Value.atom_or_mem_getD _).imp_right fun hu => .inl ?_
    exact ⟨a, mem_of_only ha, part_of_mem_elements hus (List.mem_of_getLast? hu)⟩
  | rest =>
    rw [call] at h
    split at h
    · cases h
    · cases h
      exact .inl (by simp [Value.Atom, Value.type])
    · next first others helements =>
      cases h
      exact .inr (.inr (.rest helements))
  | push =>
    rw [call] at h
    split at h
    · cases h
    · next vs hpushed =>
      cases h
      exact .inr (.inr (.push hpushed))
  | puts => exact .inl (atom_of_writeLines h)

end Builtin

namespace Task.Makes

variable {w : World} {t : Task} {u v : Value}

/-- What is made has the identity that comes next, and the task is done with it. -/
theorem begin (h : t.Makes w v) :
    v.identity? = some w.nextIdentity ∧ t.begin w = .done v w.takeIdentity.2 := by
  cases h with
  | rest helements =>
    refine ⟨rfl, ?_⟩
    simp only [Task.begin, Operation.begin, Builtin.call, helements]
    rfl
  | push hpushed =>
    refine ⟨rfl, ?_⟩
    simp only [Task.begin, Operation.begin, Builtin.call, hpushed]
    rfl
  | _ => exact ⟨rfl, rfl⟩

/-- A task makes one value at most. -/
theorem unique (h : t.Makes w u) (h' : t.Makes w v) : u = v :=
  (Move.done.inj (h.begin.2.symm.trans h'.begin.2)).1

/-- What is made consists of what the task begins with. -/
theorem part (h : t.Makes w v) (hpart : Value.Part u v) : u = v ∨ ∃ x ∈ t.held, Value.Part u x := by
  cases h with
  | array scope elements =>
    cases hpart with
    | self => exact .inl rfl
    | element mem hpart => exact .inr ⟨_, mem, hpart⟩
  | hash scope table =>
    cases hpart with
    | self => exact .inl rfl
    | @key _ _ e mem hpart => exact .inr ⟨_, Table.mem_filed.2 ⟨e, mem, .inl rfl⟩, hpart⟩
    | @entry _ _ e mem hpart => exact .inr ⟨_, Table.mem_filed.2 ⟨e, mem, .inr rfl⟩, hpart⟩
  | function scope site parameters body => exact .inl hpart.eq_function
  | rest helements =>
    cases hpart with
    | self => exact .inl rfl
    | element mem hpart =>
      obtain ⟨a, ha, hx⟩ := Builtin.part_of_mem_only_elements helements (List.mem_cons_of_mem _ mem)
      exact .inr ⟨a, List.mem_cons_of_mem _ ha, hpart.trans hx⟩
  | push hpushed =>
    cases hpart with
    | self => exact .inl rfl
    | element mem hpart =>
      obtain ⟨a, ha, hx⟩ := Builtin.part_of_mem_pushed hpushed mem
      exact .inr ⟨a, List.mem_cons_of_mem _ ha, hpart.trans hx⟩

end Task.Makes

/-! ## Where values come from -/

/-- Whatever a task leads to has the property in all its parts. -/
def Move.Brings (P : Value → Prop) : Move → Prop
  | done v w => v.Throughout P ∧ w.Binds (Value.Throughout P)
  | become t w => (∀ u ∈ t.held, u.Throughout P) ∧ w.Binds (Value.Throughout P)
  | await t f => (∀ u ∈ t.held, u.Throughout P) ∧ ∀ u ∈ f.held, u.Throughout P
  | enter t w => (∀ u ∈ t.held, u.Throughout P) ∧ w.Binds (Value.Throughout P)

section

variable {P : Value → Prop} {w : World} {v : Value}

theorem Table.throughout_filed_insert {table : Table (Value × Value)} {k : Value} (key : HashKey)
    (h : ∀ u ∈ Table.filed table, u.Throughout P) (hk : k.Throughout P) (hv : v.Throughout P) :
    ∀ u ∈ Table.filed (Table.insert key (k, v) table), u.Throughout P := by
  intro u hu
  obtain ⟨e, he, hu⟩ := Table.mem_filed.1 hu
  rcases Table.mem_insert_key he with rfl | he
  · rcases hu with rfl | rfl
    · exact hk
    · exact hv
  · exact h u (Table.mem_filed.2 ⟨e, he, hu⟩)

/-- A value that comes to a frame is added to what the frame keeps. -/
theorem Frame.throughout_next {f : Frame} (hf : ∀ u ∈ f.held, u.Throughout P) (hv : v.Throughout P) :
    ∀ u ∈ (f.next v).held, u.Throughout P := by
  cases f with
  | right l operator =>
    exact List.forall_mem_cons.2 ⟨hf l List.mem_cons_self, List.forall_mem_singleton.2 hv⟩
  | callee scope es => exact List.forall_mem_singleton.2 hv
  | argument scope callee done es =>
    obtain ⟨hcallee, hdone⟩ := List.forall_mem_cons.1 hf
    exact List.forall_mem_cons.2 ⟨hcallee,
      List.forall_mem_append.2 ⟨hdone, List.forall_mem_singleton.2 hv⟩⟩
  | element scope done es =>
    exact List.forall_mem_append.2 ⟨hf, List.forall_mem_singleton.2 hv⟩
  | position c =>
    exact List.forall_mem_cons.2 ⟨hf c List.mem_cons_self, List.forall_mem_singleton.2 hv⟩
  | key scope table value pairs => exact List.forall_mem_cons.2 ⟨hv, hf⟩
  | entry scope table hashKey k pairs =>
    obtain ⟨hk, htable⟩ := List.forall_mem_cons.1 hf
    exact Table.throughout_filed_insert hashKey htable hk hv
  | _ => exact List.forall_mem_singleton.2 hv

variable (hP : ∀ v : Value, v.identity? = none → P v)

include hP

theorem Value.Atom.throughout (h : v.Atom) : v.Throughout P :=
  Value.throughout_of_atom (fun _ => h.eq_of_part) (hP v h.identity?_eq)

theorem Value.throughout_ofResult {r : Except Fault Value} (h : ∀ v, r = .ok v → v.Throughout P) :
    (Value.ofResult r).Throughout P := by
  cases r with
  | ok v => exact h v rfl
  | error fault => exact Value.Atom.throughout hP (by simp [Value.ofResult, Value.Atom, Value.type])

theorem World.throughout_named (hw : w.Binds (Value.Throughout P)) (scope : ScopeId) (text : String) :
    (w.named scope text).Throughout P := by
  unfold World.named
  split
  · next value h => exact hw.lookup h
  · split <;> exact Value.Atom.throughout hP (by simp [Value.Atom, Value.type])

theorem Move.brings_expression (hw : w.Binds (Value.Throughout P)) {scope : ScopeId} {e : Expr Site}
    (hmade : ∀ v, (Task.expression scope e).Makes w v → v.Throughout P) :
    (Move.expression w scope e).Brings P := by
  cases e with
  | name text => exact ⟨World.throughout_named hP hw scope text, hw⟩
  | integer _ | boolean _ | string _ =>
    exact ⟨Value.Atom.throughout hP (by simp [Value.Atom, Value.type]), hw⟩
  | function site parameters body => exact ⟨hmade _ (.function scope site parameters body), hw.congr rfl⟩
  | array elements => exact ⟨List.forall_mem_nil _, hw⟩
  | hash pairs => exact ⟨List.forall_mem_nil _, hw⟩
  | _ => exact ⟨List.forall_mem_nil _, List.forall_mem_nil _⟩

theorem Operation.brings (hw : w.Binds (Value.Throughout P)) {o : Operation}
    (ho : ∀ u ∈ o.held, u.Throughout P)
    (hmade : ∀ v, (Task.operate o).Makes w v → v.Throughout P) : (o.begin w).Brings P := by
  have hatom {v : Value} (h : v.Atom) : v.Throughout P := h.throughout hP
  have hnull : Value.null.Throughout P := hatom (by simp [Value.Atom, Value.type])
  have herror (fault : Fault) : (Value.error fault).Throughout P :=
    hatom (by simp [Value.Atom, Value.type])
  have hblock (scope : ScopeId) (ss : List (Stmt Site)) :
      ∀ u ∈ (Task.block scope .null ss).held, u.Throughout P := List.forall_mem_singleton.2 hnull
  cases o with
  | unary operator right =>
    exact ⟨Value.throughout_ofResult hP fun v h => hatom (Value.atom_of_unary h), hw⟩
  | binary left operator right =>
    exact ⟨Value.throughout_ofResult hP fun v h => hatom (Value.atom_of_binary h), hw⟩
  | index collection position =>
    refine ⟨Value.throughout_ofResult hP fun v h => ?_, hw⟩
    rcases Value.atom_or_part_of_index h with h | h
    · exact hatom h
    · exact fun u hu => ho collection List.mem_cons_self u (hu.trans h)
  | branch scope test chosen other =>
    rcases begin_branch scope test chosen other w with hbegin | ⟨block, -, hbegin⟩
    · rw [hbegin]
      exact ⟨hnull, hw⟩
    · rw [hbegin]
      exact ⟨hblock scope block, hw⟩
  | call callee arguments =>
    obtain ⟨-, harguments⟩ := List.forall_mem_cons.1 ho
    cases callee with
    | function identity f =>
      by_cases hlength : arguments.length = f.parameters.length
      · simp only [begin, hlength, if_true]
        exact ⟨hblock w.nextScope f.body,
          hw.openScope _ fun p hp => harguments p.2 (List.of_mem_zip hp).2⟩
      · simp only [begin, hlength, if_false]
        exact ⟨herror _, hw⟩
    | builtin b =>
      refine ⟨Value.throughout_ofResult hP fun v h => ?_, hw.congr (b.scopes_call arguments w)⟩
      rcases Builtin.result_of_call h with h | ⟨a, ha, h⟩ | h
      · exact hatom h
      · exact fun u hu => harguments a ha u (hu.trans h)
      · exact hmade v h
    | _ => exact ⟨herror _, hw⟩
  | bind scope name value => exact ⟨hnull, hw.define scope name (ho value List.mem_cons_self)⟩
  | file scope table key value pairs =>
    rw [begin]
    cases key.key? with
    | none => exact ⟨herror _, hw⟩
    | some hashKey => exact ⟨List.forall_mem_nil _, ho⟩
  | leave value =>
    exact ⟨Value.throughout_returned.2 ⟨hP _ rfl, ho value List.mem_cons_self⟩, hw⟩

/-- What a task leads to has a property in all parts if what it begins with has it, what has no identity
has it, and what the task makes has it. -/
theorem Task.brings (hw : w.Binds (Value.Throughout P)) {t : Task}
    (ht : ∀ u ∈ t.held, u.Throughout P) (hmade : ∀ v, t.Makes w v → P v) {move : Move}
    (h : t.begin w = move) : move.Brings P := by
  subst h
  have hnew (v : Value) (h : t.Makes w v) : v.Throughout P := by
    intro u hu
    rcases h.part hu with rfl | ⟨x, hx, hu⟩
    · exact hmade u h
    · exact ht x hx u hu
  cases t with
  | expression scope e => exact Move.brings_expression hP hw hnew
  | right scope left operator e => exact ⟨List.forall_mem_nil _, ht⟩
  | position scope collection e => exact ⟨List.forall_mem_nil _, ht⟩
  | arguments scope callee done es =>
    cases es with
    | nil => exact ⟨ht, hw⟩
    | cons e es => exact ⟨List.forall_mem_nil _, ht⟩
  | elements scope done es =>
    cases es with
    | nil => exact ⟨hnew _ (.array scope done), hw.congr rfl⟩
    | cons e es => exact ⟨List.forall_mem_nil _, ht⟩
  | entries scope table pairs =>
    cases pairs with
    | nil => exact ⟨hnew _ (.hash scope table), hw.congr rfl⟩
    | cons pair pairs => exact ⟨List.forall_mem_nil _, ht⟩
  | statement scope s =>
    cases s with
    | expression value => exact ⟨List.forall_mem_nil _, hw⟩
    | _ => exact ⟨List.forall_mem_nil _, List.forall_mem_nil _⟩
  | block scope last ss =>
    cases ss with
    | nil => exact ⟨ht last List.mem_cons_self, hw⟩
    | cons s ss => exact ⟨List.forall_mem_nil _, List.forall_mem_nil _⟩
  | operate o => exact Operation.brings hP hw ht hnew

end

namespace Machine

variable {m m' : Machine} {v : Value}

/-- A step gives no identity away twice. -/
theorem nextIdentity_step (h : m.step = some m') :
    m.world.nextIdentity ≤ m'.world.nextIdentity := by
  rcases world_of_step h with hworld | ⟨t, -, hworld⟩
  · rw [hworld]
  · rw [hworld]
    exact (t.within_begin m.world).identities

/-- The machine is about to make the value. -/
def Makes (m : Machine) (v : Value) : Prop := ∃ t, m.control = .task t ∧ t.Makes m.world v

theorem Makes.identity? (h : m.Makes v) : v.identity? = some m.world.nextIdentity := by
  obtain ⟨t, -, hmakes⟩ := h
  exact hmakes.begin.1

theorem Makes.unique {u : Value} (h : m.Makes u) (h' : m.Makes v) : u = v := by
  obtain ⟨t, ht, hu⟩ := h
  obtain ⟨t', ht', hv⟩ := h'
  cases ht.symm.trans ht'
  exact hu.unique hv

/-- Once a value is made, its identity is used. -/
theorem Makes.nextIdentity_step (h : m.Makes v) (hstep : m.step = some m') :
    m'.world.nextIdentity = m.world.nextIdentity + 1 := by
  obtain ⟨control, levels, w⟩ := m
  obtain ⟨t, rfl, hmakes⟩ := h
  cases (step_done hmakes.begin.2).symm.trans hstep
  rfl

/-- What makes a value is not idle. -/
theorem Makes.step_ne_none (h : m.Makes v) : m.step ≠ none := by
  obtain ⟨control, levels, w⟩ := m
  obtain ⟨t, rfl, hmakes⟩ := h
  rw [step_done hmakes.begin.2]
  exact Option.some_ne_none _

/-- Everything that a state contains has the property. -/
structure Throughout (P : Value → Prop) (m : Machine) : Prop where
  /-- What is bound has it in all its parts. -/
  world : m.world.Binds (Value.Throughout P)
  /-- What frames keep has it. -/
  levels : ∀ f, Level.frame f ∈ m.levels → ∀ u ∈ f.held, u.Throughout P
  /-- What the task begins with has it. -/
  task : ∀ t, m.control = .task t → ∀ u ∈ t.held, u.Throughout P
  /-- The value has it. -/
  value : ∀ v, m.control = .value v → v.Throughout P

section

variable {P : Value → Prop} {t : Task} {levels : List Level} {w : World}

theorem throughout_iff : m.Throughout P ↔ ∀ v, m.Contains v → P v := by
  constructor
  · intro h v hv
    cases hv with
    | task control mem part => exact h.task _ control _ mem v part
    | value control part => exact h.value _ control v part
    | frame level mem part => exact h.levels _ level _ mem v part
    | bound scope binding part => exact h.world _ scope _ binding v part
  · intro h
    exact ⟨fun s hs b hb v hv => h v (.bound hs hb hv), fun f hf u hu v hv => h v (.frame hf hu hv),
      fun t ht u hu v hv => h v (.task ht hu hv), fun u hu v hv => h v (.value hu hv)⟩

theorem Throughout.of_task (ht : ∀ u ∈ t.held, u.Throughout P)
    (hl : ∀ f, Level.frame f ∈ levels → ∀ u ∈ f.held, u.Throughout P)
    (hw : w.Binds (Value.Throughout P)) : Throughout P ⟨.task t, levels, w⟩ where
  world := hw
  levels := hl
  task := by
    rintro _ ⟨⟩
    exact ht
  value := by rintro _ ⟨⟩

theorem Throughout.of_value (hv : v.Throughout P)
    (hl : ∀ f, Level.frame f ∈ levels → ∀ u ∈ f.held, u.Throughout P)
    (hw : w.Binds (Value.Throughout P)) : Throughout P ⟨.value v, levels, w⟩ where
  world := hw
  levels := hl
  task := by rintro _ ⟨⟩
  value := by
    rintro _ ⟨⟩
    exact hv

/-- What a step leads to has a property if what was there before it has it, what has no identity has it,
and what the step makes has it. -/
theorem Throughout.step (hm : m.Throughout P) (hP : ∀ v : Value, v.identity? = none → P v)
    (hmade : ∀ v, m.Makes v → P v) (h : m.step = some m') : m'.Throughout P := by
  have hbrings (t : Task) (ht : m.control = .task t) {move : Move} (hmove : t.begin m.world = move) :
      move.Brings P :=
    Task.brings hP hm.world (hm.task t ht) (fun v hv => hmade v ⟨t, ht, hv⟩) hmove
  have htail {level : Level} {levels : List Level}
      (h : ∀ f, Level.frame f ∈ level :: levels → ∀ u ∈ f.held, u.Throughout P) :
      ∀ f, Level.frame f ∈ levels → ∀ u ∈ f.held, u.Throughout P :=
    fun f hf => h f (List.mem_cons_of_mem _ hf)
  cases turn_of_step h with
  | done move =>
    obtain ⟨hv, hw⟩ := hbrings _ rfl move
    exact .of_value hv hm.levels hw
  | become move =>
    obtain ⟨ht, hw⟩ := hbrings _ rfl move
    exact .of_task ht hm.levels hw
  | await move =>
    obtain ⟨ht, hf⟩ := hbrings _ rfl move
    refine .of_task ht (fun g hg => ?_) hm.world
    rcases List.mem_cons.1 hg with hg | hg
    · cases hg
      exact hf
    · exact hm.levels g hg
  | enter move =>
    obtain ⟨ht, hw⟩ := hbrings _ rfl move
    refine .of_task ht (fun g hg => ?_) hw
    rcases List.mem_cons.1 hg with hg | hg
    · cases hg
    · exact hm.levels g hg
  | pass signal => exact .of_value (hm.value _ rfl) (htail hm.levels) hm.world
  | next plain =>
    have hf := hm.levels _ List.mem_cons_self
    exact .of_task (Frame.throughout_next hf (hm.value _ rfl)) (htail hm.levels) hm.world
  | leave => exact .of_value (hm.value _ rfl).delivered (htail hm.levels) hm.world

end

/-- Whatever is there after a step was there before it, or it has no identity, or the step has made it. -/
theorem contains_of_step (h : m.step = some m') (hv : m'.Contains v) :
    m.Contains v ∨ v.identity? = none ∨ m.Makes v := by
  have hm : m.Throughout fun u => m.Contains u ∨ u.identity? = none ∨ m.Makes u :=
    throughout_iff.2 fun u hu => .inl hu
  exact throughout_iff.1 (hm.step (fun u hu => .inr (.inl hu)) (fun u hu => .inr (.inr hu)) h) v hv

end Machine

end Monkey
