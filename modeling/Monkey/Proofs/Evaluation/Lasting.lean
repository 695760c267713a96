import Monkey.Proofs.Evaluation.Reachable
import Monkey.Proofs.Evaluation.Stable

/-!
# Lasting properties

What every state of a machine has in it are values, scopes and pieces of program: in the task, in the
frames that wait, and in what is bound. A property of values lasts if evaluation cannot come to a value
without it, given that the scopes are admitted and that the pieces of program are of some sort that
passes from an expression to its parts. A step then leads from a state with lasting properties to such a
state, so every state of a run has them. A property can depend on how many scopes there are.
-/

namespace Monkey

namespace Value

/-- All parts of a value meet a condition. -/
def Throughout (R : Value → Prop) (v : Value) : Prop := ∀ u, Part u v → R u

variable {R : Value → Prop} {v : Value}

/-- A value without further parts has to meet the condition itself. -/
theorem throughout_of_atom (h : ∀ u, Part u v → u = v) (hv : R v) : v.Throughout R :=
  fun u hu => h u hu ▸ hv

theorem throughout_array {identity : Identity} {elements : List Value} :
    (array identity elements).Throughout R ↔
      R (.array identity elements) ∧ ∀ v ∈ elements, v.Throughout R := by
  constructor
  · exact fun h => ⟨h _ .self, fun v hv u hu => h u (.element hv hu)⟩
  · rintro ⟨hself, helements⟩ u hu
    cases hu with
    | self => exact hself
    | element mem hu => exact helements _ mem u hu

theorem throughout_hash {identity : Identity} {entries : Table (Value × Value)} :
    (hash identity entries).Throughout R ↔
      R (.hash identity entries) ∧ ∀ e ∈ entries, e.2.1.Throughout R ∧ e.2.2.Throughout R := by
  constructor
  · exact fun h =>
      ⟨h _ .self, fun e he => ⟨fun u hu => h u (.key he hu), fun u hu => h u (.entry he hu)⟩⟩
  · rintro ⟨hself, hentries⟩ u hu
    cases hu with
    | self => exact hself
    | key mem hu => exact (hentries _ mem).1 u hu
    | entry mem hu => exact (hentries _ mem).2 u hu

theorem throughout_returned :
    (returned v).Throughout R ↔ R (.returned v) ∧ v.Throughout R := by
  constructor
  · exact fun h => ⟨h _ .self, fun u hu => h u (.returned hu)⟩
  · rintro ⟨hself, hv⟩ u hu
    cases hu with
    | self => exact hself
    | returned hu => exact hv u hu

end Value

/-- A condition on values, for every number of scopes, that evaluation does not break: in admitted
scopes, and in programs whose expressions are of some sort, all values meet it in all their parts. -/
structure Lasting (R : Nat → Value → Prop) (Q : Nat → ScopeId → Prop) (S : Expr Site → Prop) : Prop where
  /-- It is a condition on texts, hashes and functions only. -/
  plain : ∀ n v, v.type ∉ [.string, .hash, .function] → R n v
  /-- Texts meet it that are joined from texts that do. -/
  joined : ∀ n s t, R n (.string s) → R n (.string t) → R n (.string (s ++ t))
  /-- The texts of the program meet it. -/
  string : ∀ n text, S (.string text) → R n (.string text)
  /-- Functions meet it that are made in an admitted scope. -/
  function : ∀ n identity site parameters body scope, S (.function site parameters body) → Q n scope →
    R n (.function identity ⟨parameters, body, site, scope⟩)
  /-- The body of a function that meets it can be run. -/
  closure : ∀ n identity f, R n (.function identity f) → ∀ s ∈ f.body, S s.value
  /-- Hashes without entries meet it. -/
  empty : ∀ n identity, R n (.hash identity [])
  /-- A further entry does no harm to a hash. -/
  insert : ∀ n identity table key k v, R n (.hash identity table) → k.key? = some key →
    R n (.hash identity (Table.insert key (k, v) table))
  /-- It does not matter which hash it is. -/
  renewed : ∀ n identity other table, R n (.hash identity table) → R n (.hash other table)
  /-- Further scopes do no harm to a value. -/
  later : ∀ m n v, R m v → m ≤ n → R n v
  /-- Further scopes do no harm to a scope that is admitted. -/
  admitted : ∀ m n scope, Q m scope → m ≤ n → Q n scope
  /-- The scope that is opened next is admitted. -/
  opened : ∀ n, Q (n + 1) n
  /-- Parts of an expression are of the sort that it is of. -/
  parts : ∀ e, S e → ∀ d ∈ e.children, S d

namespace Lasting

variable {R : Nat → Value → Prop} {Q : Nat → ScopeId → Prop} {S : Expr Site → Prop}
  (hR : Lasting R Q S) {m n : Nat} {v k : Value} {table : Table (Value × Value)}

include hR

theorem atom (n : Nat) (h : ∀ u, Value.Part u v → u = v)
    (htype : v.type ∉ [.string, .hash, .function]) : v.Throughout (R n) :=
  Value.throughout_of_atom h (hR.plain n v htype)

theorem hereditary (n : Nat) : Value.Hereditary (Value.Throughout (R n)) where
  integer i := hR.atom n (by rintro _ ⟨⟩; rfl) (by simp [Value.type])
  boolean b := hR.atom n (by rintro _ ⟨⟩; rfl) (by simp [Value.type])
  null := hR.atom n (by rintro _ ⟨⟩; rfl) (by simp [Value.type])
  builtin b := hR.atom n (by rintro _ ⟨⟩; rfl) (by simp [Value.type])
  joined s t hs ht := Value.throughout_of_atom (by rintro _ ⟨⟩; rfl)
    (hR.joined n s t (hs _ .self) (ht _ .self))
  array identity elements := Value.throughout_array.trans
    (and_iff_right (hR.plain n (.array identity elements) (by simp [Value.type])))
  entry identity entries h e he := ((Value.throughout_hash.1 h).2 e he).2

theorem mono (h : v.Throughout (R m)) (hle : m ≤ n) : v.Throughout (R n) :=
  fun u hu => hR.later m n u (h u hu) hle

theorem error (n : Nat) (fault : Fault) : (Value.error fault).Throughout (R n) :=
  hR.atom n (by rintro _ ⟨⟩; rfl) (by simp [Value.type])

theorem text (n : Nat) {text : String} (h : S (.string text)) : (Value.string text).Throughout (R n) :=
  Value.throughout_of_atom (by rintro _ ⟨⟩; rfl) (hR.string n text h)

theorem made {scope : ScopeId} {site : Site} {parameters : List String} {body : List (Stmt Site)}
    (identity : Identity) (h : S (.function site parameters body)) (hscope : Q n scope) :
    (Value.function identity ⟨parameters, body, site, scope⟩).Throughout (R n) :=
  Value.throughout_of_atom (by rintro _ ⟨⟩; rfl)
    (hR.function n identity site parameters body scope h hscope)

theorem hash (identity : Identity) : (Value.hash identity []).Throughout (R n) :=
  Value.throughout_hash.2 ⟨hR.empty n identity, List.forall_mem_nil _⟩

theorem filed {identity : Identity} {key : HashKey} (h : (Value.hash identity table).Throughout (R n))
    (hk : k.Throughout (R n)) (hkey : k.key? = some key) (hv : v.Throughout (R n)) :
    (Value.hash identity (Table.insert key (k, v) table)).Throughout (R n) := by
  rw [Value.throughout_hash] at h ⊢
  refine ⟨hR.insert n identity table key k v h.1 hkey, fun e he => ?_⟩
  rcases Table.mem_insert_key he with rfl | he
  · exact ⟨hk, hv⟩
  · exact h.2 e he

theorem anew {identity : Identity} (other : Identity)
    (h : (Value.hash identity table).Throughout (R n)) : (Value.hash other table).Throughout (R n) := by
  rw [Value.throughout_hash] at h ⊢
  exact ⟨hR.renewed n identity other table h.1, h.2⟩

theorem returned (h : v.Throughout (R n)) : (Value.returned v).Throughout (R n) :=
  Value.throughout_returned.2 ⟨hR.plain n (.returned v) (by simp [Value.type]), h⟩

/-- Two conditions last together, if one of them asks no more of the program than the other. -/
theorem and {R' : Nat → Value → Prop} {S' : Expr Site → Prop} (hR' : Lasting R' Q S')
    (hS : ∀ e, S' e → S e) : Lasting (fun n v => R n v ∧ R' n v) Q S' where
  plain n v htype := ⟨hR.plain n v htype, hR'.plain n v htype⟩
  joined n s t hs ht := ⟨hR.joined n s t hs.1 ht.1, hR'.joined n s t hs.2 ht.2⟩
  string n text h := ⟨hR.string n text (hS _ h), hR'.string n text h⟩
  function n identity site parameters body scope h hscope :=
    ⟨hR.function n identity site parameters body scope (hS _ h) hscope,
      hR'.function n identity site parameters body scope h hscope⟩
  closure n identity f h := hR'.closure n identity f h.2
  empty n identity := ⟨hR.empty n identity, hR'.empty n identity⟩
  insert n identity table key k v h hkey :=
    ⟨hR.insert n identity table key k v h.1 hkey, hR'.insert n identity table key k v h.2 hkey⟩
  renewed n identity other table h :=
    ⟨hR.renewed n identity other table h.1, hR'.renewed n identity other table h.2⟩
  later m n v h hle := ⟨hR.later m n v h.1 hle, hR'.later m n v h.2 hle⟩
  admitted := hR'.admitted
  opened := hR'.opened
  parts := hR'.parts

end Lasting

/-- All values that are bound have the property. -/
def World.Keeps (R : Nat → Value → Prop) (w : World) : Prop :=
  w.Binds (Value.Throughout (R w.scopes.size))

section

variable (R : Nat → Value → Prop) (Q : Nat → ScopeId → Prop) (S : Expr Site → Prop) (n : Nat)

/-- Whatever a task begins with is kept. -/
def Task.Keeps (t : Task) : Prop := Kept (Value.Throughout (R n)) (Q n) S t.values t.scope? t.code

/-- Whatever a frame keeps is kept, and it is filed. -/
def Frame.Keeps (f : Frame) : Prop := Kept (Value.Throughout (R n)) (Q n) S f.values f.scope? f.code ∧ f.Filed

/-- However a task goes on, everything is kept, and no scope is lost. -/
def Move.Keeps : Move → Prop
  | done v w => v.Throughout (R w.scopes.size) ∧ w.Keeps R ∧ n ≤ w.scopes.size
  | become t w => t.Keeps R Q S w.scopes.size ∧ w.Keeps R ∧ n ≤ w.scopes.size
  | await t f => t.Keeps R Q S n ∧ f.Keeps R Q S n
  | enter t w => t.Keeps R Q S w.scopes.size ∧ w.Keeps R ∧ n ≤ w.scopes.size

end

variable {R : Nat → Value → Prop} {Q : Nat → ScopeId → Prop} {S : Expr Site → Prop} {m n : Nat}
  {w w' : World} {t : Task} {f : Frame} {v : Value}

theorem Kept.mono (hR : Lasting R Q S) {values : List Value} {scope? : Option ScopeId}
    {code : List (Expr Site)} (h : Kept (Value.Throughout (R m)) (Q m) S values scope? code) (hle : m ≤ n) :
    Kept (Value.Throughout (R n)) (Q n) S values scope? code where
  values v hv := hR.mono (h.values v hv) hle
  scope s hs := hR.admitted m n s (h.scope s hs) hle
  code := h.code

theorem Frame.Keeps.mono (hR : Lasting R Q S) (h : f.Keeps R Q S m) (hle : m ≤ n) : f.Keeps R Q S n :=
  ⟨h.1.mono hR hle, h.2⟩

theorem World.Keeps.binds (hR : Lasting R Q S) (h : w.Keeps R) (hle : w.scopes.size ≤ n) :
    w.Binds (Value.Throughout (R n)) := fun s hs b hb => hR.mono (h s hs b hb) hle

/-- The properties are stable, as long as no scope is opened; what a call leads to has them too. -/
theorem Lasting.stable (hR : Lasting R Q S) (n : Nat) :
    Stable (Value.Throughout (R n)) (Q n) S True (fun w => w.scopes.size = n ∧ w.Keeps R)
      fun t w => t.Keeps R Q S w.scopes.size ∧ w.Keeps R ∧ n ≤ w.scopes.size where
  hereditary := hR.hereditary n
  string text h := hR.text n h
  error := hR.error n
  returned v h := hR.returned h
  empty identity := hR.hash identity
  filed identity table key k v h hk hkey hv := hR.filed h hk hkey hv
  renewed identity other table h := hR.anew other h
  function identity site parameters body scope h hscope := hR.made identity h hscope
  call _ _ _ := trivial
  parts := hR.parts
  named := by
    rintro w scope text ⟨rfl, hw⟩ -
    unfold World.named
    split
    · next value h => exact hw.lookup h
    · split
      · exact (hR.hereditary _).builtin _
      · exact hR.error _ _
  define := by
    rintro w scope name v ⟨rfl, hw⟩ - hv
    have hsize : (w.define scope name v).scopes.size = w.scopes.size := by simp [World.define]
    refine ⟨hsize, ?_⟩
    unfold World.Keeps
    rw [hsize]
    exact hw.define scope name hv
  congr := by
    rintro w w' ⟨rfl, hw⟩ hscopes
    refine ⟨by rw [hscopes], ?_⟩
    unfold World.Keeps
    rw [hscopes]
    exact hw.congr hscopes
  enter := by
    rintro w identity f arguments ⟨rfl, hw⟩ - hcallee harguments
    have hbody := hR.closure _ _ _ (hcallee _ .self)
    have hsize : (w.openScope (some f.scope) (f.parameters.zip arguments)).scopes.size =
        w.scopes.size + 1 := by simp [World.openScope]
    have hgrows : w.scopes.size ≤ w.scopes.size + 1 := Nat.le_succ _
    refine ⟨⟨List.forall_mem_singleton.2 (hR.hereditary _).null, ?_, List.forall_mem_map.2 hbody⟩,
      ?_, hsize ▸ hgrows⟩
    · rintro _ ⟨⟩
      exact hsize ▸ hR.opened _
    · unfold World.Keeps
      rw [hsize]
      exact (hw.binds hR hgrows).openScope _ fun p hp =>
        hR.mono (harguments p.2 (List.of_mem_zip hp).2) hgrows

/-- A value that comes to a frame is kept with what the frame keeps. -/
theorem Frame.Keeps.next (hR : Lasting R Q S) (h : f.Keeps R Q S n) (hv : v.Throughout (R n)) :
    (f.next v).Keeps R Q S n :=
  ((hR.stable n).next ⟨h, fun _ => trivial⟩ hv).1

theorem Value.Throughout.delivered {P : Value → Prop} (h : v.Throughout P) :
    v.delivered.Throughout P := by
  cases v with
  | returned v => exact (throughout_returned.1 h).2
  | _ => exact h

/-- However a task goes on that begins with something kept, everything is kept. -/
theorem Task.Keeps.begin (hR : Lasting R Q S) (hw : w.Keeps R) (ht : t.Keeps R Q S w.scopes.size)
    {move : Move} (h : t.begin w = move) : move.Keeps R Q S w.scopes.size := by
  have hmeets := (hR.stable w.scopes.size).begin ⟨rfl, hw⟩ ⟨ht, fun _ => trivial⟩
  rw [h] at hmeets
  cases move with
  | done v w' =>
    obtain ⟨hv, hsize, hw'⟩ := hmeets
    exact ⟨hsize ▸ hv, hw', Nat.le_of_eq hsize.symm⟩
  | become t' w' =>
    obtain ⟨ht', hsize, hw'⟩ := hmeets
    exact ⟨hsize ▸ ht'.1, hw', Nat.le_of_eq hsize.symm⟩
  | await t' f => exact ⟨hmeets.1.1, hmeets.2.1⟩
  | enter t' w' => exact hmeets

namespace Machine

/-- Everything in a state of the machine is kept. -/
structure Keeps (R : Nat → Value → Prop) (Q : Nat → ScopeId → Prop) (S : Expr Site → Prop)
    (m : Machine) : Prop where
  /-- What is bound has the property. -/
  world : m.world.Keeps R
  /-- What frames keep is kept. -/
  levels : ∀ f, Level.frame f ∈ m.levels → f.Keeps R Q S m.world.scopes.size
  /-- What the task begins with is kept. -/
  task : ∀ t, m.control = .task t → t.Keeps R Q S m.world.scopes.size
  /-- The value has the property. -/
  value : ∀ v, m.control = .value v → v.Throughout (R m.world.scopes.size)

variable {m m' : Machine} {levels : List Level}

theorem Keeps.of_task (ht : t.Keeps R Q S w.scopes.size)
    (hl : ∀ f, Level.frame f ∈ levels → f.Keeps R Q S w.scopes.size) (hw : w.Keeps R) :
    Keeps R Q S ⟨.task t, levels, w⟩ where
  world := hw
  levels := hl
  task := by
    rintro _ ⟨⟩
    exact ht
  value := by rintro _ ⟨⟩

theorem Keeps.of_value (hv : v.Throughout (R w.scopes.size))
    (hl : ∀ f, Level.frame f ∈ levels → f.Keeps R Q S w.scopes.size) (hw : w.Keeps R) :
    Keeps R Q S ⟨.value v, levels, w⟩ where
  world := hw
  levels := hl
  task := by rintro _ ⟨⟩
  value := by
    rintro _ ⟨⟩
    exact hv

/-- A step keeps everything, and it loses no scope. -/
theorem Keeps.step (hR : Lasting R Q S) (hm : m.Keeps R Q S) (h : m.step = some m') :
    m'.Keeps R Q S ∧ m.world.scopes.size ≤ m'.world.scopes.size := by
  have htail {level : Level} {levels : List Level} {n : Nat}
      (h : ∀ f, Level.frame f ∈ level :: levels → f.Keeps R Q S n) :
      ∀ f, Level.frame f ∈ levels → f.Keeps R Q S n := fun f hf => h f (List.mem_cons_of_mem _ hf)
  cases turn_of_step h with
  | done move =>
    obtain ⟨hv, hw, hle⟩ := (hm.task _ rfl).begin hR hm.world move
    exact ⟨.of_value hv (fun f hf => (hm.levels f hf).mono hR hle) hw, hle⟩
  | become move =>
    obtain ⟨ht, hw, hle⟩ := (hm.task _ rfl).begin hR hm.world move
    exact ⟨.of_task ht (fun f hf => (hm.levels f hf).mono hR hle) hw, hle⟩
  | await move =>
    obtain ⟨ht, hf⟩ := (hm.task _ rfl).begin hR hm.world move
    refine ⟨.of_task ht (fun g hg => ?_) hm.world, Nat.le_refl _⟩
    rcases List.mem_cons.1 hg with hg | hg
    · cases hg
      exact hf
    · exact hm.levels g hg
  | enter move =>
    obtain ⟨ht, hw, hle⟩ := (hm.task _ rfl).begin hR hm.world move
    refine ⟨.of_task ht (fun g hg => ?_) hw, hle⟩
    rcases List.mem_cons.1 hg with hg | hg
    · cases hg
    · exact (hm.levels g hg).mono hR hle
  | pass signal => exact ⟨.of_value (hm.value _ rfl) (htail hm.levels) hm.world, Nat.le_refl _⟩
  | next plain =>
    have hf := hm.levels _ List.mem_cons_self
    exact ⟨.of_task (hf.next hR (hm.value _ rfl)) (htail hm.levels) hm.world, Nat.le_refl _⟩
  | leave =>
    exact ⟨.of_value (hm.value _ rfl).delivered (htail hm.levels) hm.world, Nat.le_refl _⟩

/-- Every state that is come to keeps what the first one keeps. -/
theorem Keeps.steps (hR : Lasting R Q S) (hm : m.Keeps R Q S) (h : Steps m m') : m'.Keeps R Q S :=
  h.invariant (fun _ _ hm hstep => (hm.step hR hstep).1) hm

/-- A program whose expressions are of the sort begins with everything kept, in an admitted scope. -/
theorem keeps_start (hR : Lasting R Q S) {program : Program} (hprogram : ∀ s ∈ program, S s.value)
    {scope : ScopeId} (hscope : Q w.scopes.size scope) (hw : w.Keeps R) :
    (start scope program w).Keeps R Q S := by
  refine .of_task ⟨List.forall_mem_singleton.2 (hR.hereditary _).null, ?_,
    List.forall_mem_map.2 hprogram⟩ (by simp) hw
  rintro _ ⟨⟩
  exact hscope

end Machine

/-- What a task comes to is kept. -/
theorem Runs.keeps (hR : Lasting R Q S) {depth : Nat} (h : Runs depth t w v w')
    (ht : t.Keeps R Q S w.scopes.size) (hw : w.Keeps R) :
    v.Throughout (R w'.scopes.size) ∧ w'.Keeps R := by
  have hstart : Machine.Keeps R Q S ⟨.task t, [], w⟩ := .of_task ht (by simp) hw
  have hend := hstart.steps hR (Machine.steps_of_runs h [])
  exact ⟨hend.value v rfl, hend.world⟩

end Monkey
