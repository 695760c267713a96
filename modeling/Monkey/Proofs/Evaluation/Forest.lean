import Monkey.Proofs.Evaluation.Chronicle

/-!
# The forest of scopes

The scope around a scope is older than it, and it is never another one. So scopes form a forest: from each
of them outwards there are finitely many, and a search for a name comes to an end, although it only ever
goes from one scope to the next. What is found is what the name was bound to last in the nearest scope that
knows it. The steps of a machine only add to the history of the scopes, so this is so at every moment of a
run, in the scope of a call as in all others.
-/

namespace Monkey

variable {w w' : World} {log later : Log}

namespace World.Records

/-- Whatever is done, the scope around a scope is older. -/
theorem lt_of_outer (h : w.Records log) {scope outer : ScopeId} (hscope : scope < w.scopes.size)
    (houter : w.outer? scope = some outer) : outer < scope :=
  h.outer scope outer ((h.link scope hscope).symm.trans houter)

variable {scope : ScopeId} {chain : List ScopeId}

/-- No scope outwards from a scope is younger. -/
theorem le_of_mem_chain (h : w.Records log) (hscope : scope < w.scopes.size)
    (hchain : w.Chain scope chain) : ∀ s ∈ chain, s ≤ scope := by
  induction hchain with
  | last _ => exact List.forall_mem_singleton.2 (Nat.le_refl _)
  | cons houter _ ih =>
    have hlt := h.lt_of_outer hscope houter
    refine List.forall_mem_cons.2 ⟨Nat.le_refl _, fun s hs => ?_⟩
    exact Nat.le_trans (ih (Nat.lt_trans hlt hscope) s hs) (Nat.le_of_lt hlt)

/-- The scopes are older and older. -/
theorem pairwise_chain (h : w.Records log) (hscope : scope < w.scopes.size)
    (hchain : w.Chain scope chain) : chain.Pairwise (· > ·) := by
  induction hchain with
  | last _ => exact List.pairwise_singleton _ _
  | cons houter hrest ih =>
    have hlt := h.lt_of_outer hscope houter
    have hold := Nat.lt_trans hlt hscope
    refine List.pairwise_cons.2 ⟨fun s hs => ?_, ih hold⟩
    exact Nat.lt_of_le_of_lt (h.le_of_mem_chain hold hrest s hs) hlt

/-- From every scope outwards the scopes come to an end. -/
theorem exists_chain (h : w.Records log) (hscope : scope < w.scopes.size) :
    ∃ chain, w.Chain scope chain := by
  induction scope using Nat.strongRecOn with
  | ind scope ih =>
    cases houter : w.outer? scope with
    | none => exact ⟨[scope], .last houter⟩
    | some outer =>
      have hlt := h.lt_of_outer hscope houter
      obtain ⟨chain, hchain⟩ := ih outer hlt (Nat.lt_trans hlt hscope)
      exact ⟨scope :: chain, .cons houter hchain⟩

/-- A scope lies one deeper than the scope around it. -/
theorem depth (h : w.Records log) (hscope : scope < w.scopes.size) :
    w.depth scope = ((w.outer? scope).map w.depth).getD 0 + 1 := by
  obtain ⟨chain, hchain⟩ := h.exists_chain hscope
  rw [hchain.depth]
  cases hchain with
  | last hlast => rw [hlast]; rfl
  | cons houter hrest =>
    rw [houter, Option.map_some, Option.getD_some, hrest.depth]
    rfl

/-- A name is looked for in the history of each scope. -/
theorem lookup (h : w.Records log) (hscope : scope < w.scopes.size) (hchain : w.Chain scope chain)
    (name : String) : w.lookup scope name = chain.findSome? fun s => Log.latest? name s log := by
  rw [hchain.lookup]
  refine findSome?_congr fun s hs => h.binding s ?_ name
  exact Nat.lt_of_le_of_lt (h.le_of_mem_chain hscope hchain s hs) hscope

/-- A name has the value that it was bound to last in the nearest scope in which it was bound. -/
theorem lookup_eq_some_iff (h : w.Records log) (hscope : scope < w.scopes.size)
    (hchain : w.Chain scope chain) {name : String} {value : Value} :
    w.lookup scope name = some value ↔
      ∃ near s far, chain = near ++ s :: far ∧
        (∀ other ∈ near, ∀ u, .bound other name u ∉ log) ∧ Log.Since name s value log := by
  rw [h.lookup hscope hchain, List.findSome?_eq_some_iff]
  simp only [Log.latest?_eq_some_iff, Log.latest?_eq_none_iff]
  constructor
  · rintro ⟨near, s, far, hsplit, hvalue, hnear⟩
    exact ⟨near, s, far, hsplit, hnear, hvalue⟩
  · rintro ⟨near, s, far, hsplit, hnear, hvalue⟩
    exact ⟨near, s, far, hsplit, hvalue, hnear⟩

/-- A name has no value if it was bound in no scope outwards. -/
theorem lookup_eq_none_iff (h : w.Records log) (hscope : scope < w.scopes.size)
    (hchain : w.Chain scope chain) {name : String} :
    w.lookup scope name = none ↔ ∀ s ∈ chain, ∀ u, .bound s name u ∉ log := by
  rw [h.lookup hscope hchain, List.findSome?_eq_none_iff]
  simp only [Log.latest?_eq_none_iff]

/-- What is done later does not change which scope is around a scope. -/
theorem outer_later (h : w.Records log) (h' : w'.Records (later ++ log))
    (hscope : scope < w.scopes.size) :
    scope < w'.scopes.size ∧ w'.outer? scope = w.outer? scope := by
  have hlogged : scope < Log.scopes log := h.size ▸ hscope
  have hscope' : scope < w'.scopes.size :=
    h'.size ▸ Nat.lt_of_lt_of_le hlogged (Log.scopes_append later log)
  exact ⟨hscope', by rw [h'.link scope hscope', h.link scope hscope, Log.outer?_append later hlogged]⟩

/-- Nor does it change which scopes are further out. -/
theorem chain_later (h : w.Records log) (h' : w'.Records (later ++ log))
    (hscope : scope < w.scopes.size) (hchain : w.Chain scope chain) : w'.Chain scope chain :=
  hchain.congr fun s hs =>
    (h.outer_later h' (Nat.lt_of_le_of_lt (h.le_of_mem_chain hscope hchain s hs) hscope)).2

end World.Records

/-- Binding other names leaves the value of a name. -/
theorem Bindings.lookup_bindAll_other {name : String} {pairs : List (String × Value)}
    (h : ∀ p ∈ pairs, p.1 ≠ name) (bindings : Bindings) :
    (bindings.bindAll pairs).lookup name = bindings.lookup name := by
  induction pairs generalizing bindings with
  | nil => rfl
  | cons p pairs ih =>
    rw [List.forall_mem_cons] at h
    rw [bindAll, List.foldl_cons]
    exact (ih h.2 _).trans ((lookup_bind _ _ _ _).trans (if_neg fun heq => h.1 heq.symm))

/-- Of several values that are bound to a name in turn, it has the last one. -/
theorem Bindings.lookup_bindAll_zip {name : String} {i : Nat} {names : List String}
    {values : List Value} (hlength : values.length = names.length) (hname : names[i]? = some name)
    (hlast : ∀ j > i, names[j]? ≠ some name) (bindings : Bindings) :
    (bindings.bindAll (names.zip values)).lookup name = values[i]? := by
  induction names generalizing i values bindings with
  | nil => cases hname
  | cons x names ih =>
    cases values with
    | nil => cases hlength
    | cons v values =>
      rw [List.zip_cons_cons, bindAll, List.foldl_cons]
      cases i with
      | zero =>
        obtain rfl : x = name := Option.some.inj hname
        have hother : ∀ p ∈ names.zip values, p.1 ≠ x := by
          rintro p hp rfl
          obtain ⟨j, hj⟩ := List.mem_iff_getElem?.1 (List.of_mem_zip hp).1
          exact hlast (j + 1) (Nat.succ_pos j) hj
        refine (lookup_bindAll_other hother _).trans ?_
        rw [lookup_bind, if_pos rfl, List.getElem?_cons_zero]
      | succ i =>
        rw [List.getElem?_cons_succ]
        exact ih (Nat.succ.inj hlength) hname
          (fun j hj => hlast (j + 1) (Nat.succ_lt_succ hj)) _

namespace World.Records

variable {f : Closure} {arguments : List Value}

/-- From the scope of a call one sees what it binds, and then what one sees from the scope of the
function. -/
theorem lookup_openScope (h : w.Records log) {around : ScopeId} (hscope : around < w.scopes.size)
    (pairs : List (String × Value)) (name : String) :
    (w.openScope (some around) pairs).lookup w.nextScope name =
      ((Bindings.bindAll [] pairs).lookup name).or (w.lookup around name) := by
  obtain ⟨chain, hchain⟩ := h.exists_chain hscope
  have hold : ∀ s ∈ chain, s < w.scopes.size := fun s hs =>
    Nat.lt_of_le_of_lt (h.le_of_mem_chain hscope hchain s hs) hscope
  have hrest : (w.openScope (some around) pairs).Chain around chain :=
    hchain.congr fun s hs => w.outer?_openScope_old _ _ (hold s hs)
  have hnew : (w.openScope (some around) pairs).Chain w.nextScope (w.nextScope :: chain) :=
    .cons (w.outer?_openScope_new _ _) hrest
  rw [hnew.lookup, List.findSome?_cons, w.binding?_openScope_new]
  cases (Bindings.bindAll [] pairs).lookup name with
  | some value => rfl
  | none =>
    rw [Option.none_or, hchain.lookup]
    exact findSome?_congr fun s hs => w.binding?_openScope_old _ _ name (hold s hs)

end World.Records

namespace Value

/-- Functions are made in scopes that exist. -/
theorem lasting_rooted : Lasting Rooted (fun n scope => scope < n) fun _ => True where
  plain n v htype := by
    cases v with
    | function identity f => simp [type] at htype
    | _ => trivial
  joined _ _ _ _ _ := trivial
  string _ _ _ := trivial
  function _ _ _ _ _ _ _ hscope := hscope
  closure _ _ _ _ _ _ := trivial
  empty _ _ := trivial
  insert _ _ _ _ _ _ _ _ := trivial
  renewed _ _ _ _ _ := trivial
  later _ _ _ h hle := h.later hle
  admitted _ _ _ h hle := Nat.lt_of_lt_of_le h hle
  opened n := Nat.lt_succ_self n
  parts _ _ _ _ := trivial

/-- A function knows only the scope that it was made in. -/
theorem within_function {n : Nat} {identity : Identity} {f : Closure} :
    (function identity f).Within n ↔ f.scope < n :=
  ⟨fun h => h _ .self, fun h => throughout_of_atom (fun _ => Part.eq_function) h⟩

end Value

/-- A task refers only to scopes that exist when there are so many. -/
def Task.Within (n : Nat) (t : Task) : Prop :=
  t.Keeps Value.Rooted (fun n scope => scope < n) (fun _ => True) n

/-- A state of a machine refers only to scopes that exist. -/
def Machine.Within (m : Machine) : Prop :=
  m.Keeps Value.Rooted (fun n scope => scope < n) fun _ => True

/-- What an operation does to the scopes. -/
def Operation.events (w : World) : Operation → Log
  | bind scope name value => [.bound scope name value]
  | call (.function _ f) arguments =>
    if arguments.length = f.parameters.length then
      Log.entered w.nextScope f.scope (f.parameters.zip arguments)
    else []
  | _ => []

/-- What a task does to the scopes when it begins. -/
def Task.events (w : World) : Task → Log
  | operate o => o.events w
  | _ => []

/-- However a task goes on, the world that it goes on in has the history. -/
def Move.Chronicled (w : World) (log : Log) : Move → Prop
  | done _ w' => Chronicle w' log
  | become _ w' => Chronicle w' log
  | await _ _ => Chronicle w log
  | enter _ w' => Chronicle w' log

variable {t : Task} {o : Operation}

theorem Chronicle.operation (h : Chronicle w log) (ht : (Task.operate o).Within w.scopes.size) :
    (o.begin w).Chronicled w (o.events w ++ log) := by
  cases o with
  | unary operator right => exact h
  | binary left operator right => exact h
  | index collection position => exact h
  | branch scope test chosen other =>
    rcases Operation.begin_branch scope test chosen other w with hbegin | ⟨block, -, hbegin⟩
    · rw [hbegin]
      exact h
    · rw [hbegin]
      exact h
  | call callee arguments =>
    cases callee with
    | function identity f =>
      rw [Operation.begin, Operation.events]
      split
      · have hscope : f.scope < w.scopes.size :=
          Value.within_function.1 (ht.values _ List.mem_cons_self)
        exact h.entered hscope fun p hp =>
          ht.values p.2 (List.mem_cons_of_mem _ (List.of_mem_zip hp).2)
      · exact h
    | builtin b => exact h.idle (b.scopes_call arguments w)
    | _ => exact h
  | bind scope name value =>
    exact h.binds (ht.scope scope rfl) name (ht.values value List.mem_cons_self)
  | file scope table key value pairs =>
    rw [Operation.begin]
    split <;> exact h
  | leave value => exact h

/-- A task adds to the history what it does to the scopes. -/
theorem Chronicle.task (h : Chronicle w log) (ht : t.Within w.scopes.size) :
    (t.begin w).Chronicled w (t.events w ++ log) := by
  cases t with
  | expression scope e => cases e <;> exact h.idle rfl
  | arguments scope callee done es => cases es <;> exact h
  | elements scope done es => cases es <;> exact h.idle rfl
  | entries scope table pairs => cases pairs <;> exact h.idle rfl
  | statement scope s => cases s <;> exact h
  | block scope last ss => cases ss <;> exact h
  | operate o => exact h.operation ht
  | _ => exact h

namespace Machine

/-- What the next step does to the scopes. -/
def events (m : Machine) : Log :=
  match m.control with
  | .task t => t.events m.world
  | .value _ => []

/-- Some steps of a machine do something to the scopes. -/
inductive Tells (m : Machine) : Log → Machine → Prop where
  /-- There is no step. -/
  | refl : Tells m [] m
  /-- There is a further step. -/
  | tail {log : Log} {m₁ m₂ : Machine} (h : Tells m log m₁) (step : m₁.step = some m₂) :
      Tells m (m₁.events ++ log) m₂

variable {m m' : Machine}

/-- Whatever a machine comes to, its steps tell what they do. -/
theorem exists_tells (h : Steps m m') : ∃ log, Tells m log m' := by
  induction h with
  | refl => exact ⟨[], .refl⟩
  | tail _ hstep ih =>
    obtain ⟨log, hlog⟩ := ih
    exact ⟨_, hlog.tail hstep⟩

end Machine

variable {m m' : Machine}

/-- A step adds to the history what it does to the scopes. -/
theorem Chronicle.step (h : Chronicle m.world log) (hm : m.Within) (hstep : m.step = some m') :
    Chronicle m'.world (m.events ++ log) := by
  cases Machine.turn_of_step hstep with
  | @done t levels w w' v move =>
    have hmove := h.task (hm.task t rfl)
    rwa [move] at hmove
  | @become t t' levels w w' move =>
    have hmove := h.task (hm.task t rfl)
    rwa [move] at hmove
  | @await t t' f levels w move =>
    have hmove := h.task (hm.task t rfl)
    rwa [move] at hmove
  | @enter t t' levels w w' move =>
    have hmove := h.task (hm.task t rfl)
    rwa [move] at hmove
  | pass signal => exact h
  | next plain => exact h
  | leave => exact h

/-- The steps of a machine add to the history what they do to the scopes. -/
theorem Chronicle.tells (h : Chronicle m.world log) (hm : m.Within) (htells : m.Tells later m') :
    Chronicle m'.world (later ++ log) ∧ m'.Within := by
  induction htells with
  | refl => exact ⟨h, hm⟩
  | tail _ hstep ih =>
    obtain ⟨hworld, hkeeps⟩ := ih
    refine ⟨?_, (hkeeps.step Value.lasting_rooted hstep).1⟩
    rw [List.append_assoc]
    exact hworld.step hkeeps hstep

/-- A call of a function, as far as scopes matter: before the body is run, a scope has been opened in
the scope of the function, and the parameters have been bound in it. -/
structure World.Calls (w : World) (log : Log) (f : Closure) (arguments : List Value) (w₁ : World) :
    Prop where
  /-- This is all that has been done. -/
  history : Chronicle w₁ (Log.entered w.nextScope f.scope (f.parameters.zip arguments) ++ log)
  /-- A parameter has the argument at its last position, whatever it means elsewhere. -/
  parameter : ∀ (i : Nat) (name : String), f.parameters[i]? = some name → (∀ j > i, f.parameters[j]? ≠ some name) →
    w₁.lookup w.nextScope name = arguments[i]?
  /-- Any other name has the value that it has in the scope of the function. -/
  other : ∀ name ∉ f.parameters, w₁.lookup w.nextScope name = w.lookup f.scope name
  /-- The body is run in the new scope. -/
  body : ∀ depth identity,
    (Eval.apply (depth + 1) (.function identity f) arguments).run w =
      ((Eval.block (Eval.apply depth) w.nextScope .null f.body).run w₁).map fun p =>
        (p.1.delivered, p.2)

/-- The scopes of a world with a history form a forest, in which names have the nearest and latest
values. -/
structure World.Forest (w : World) (log : Log) : Prop where
  /-- The scopes are numbered in the order in which they were opened. -/
  size : w.scopes.size = Log.scopes log
  /-- A scope is opened in one that is older, if in any. -/
  older : ∀ scope outer, Log.outer? scope log = some outer → outer < scope
  /-- Around a scope is the one that it was opened in. -/
  link : ∀ scope < w.scopes.size, w.outer? scope = Log.outer? scope log
  /-- Nothing that is done later puts another one around it. -/
  permanent : ∀ later w', Chronicle w' (later ++ log) → ∀ scope < w.scopes.size,
    Log.outer? scope (later ++ log) = Log.outer? scope log ∧ w'.outer? scope = w.outer? scope
  /-- From every scope outwards the scopes come to an end, in one way only, and none comes twice. -/
  chain : ∀ scope < w.scopes.size, ∃ chain, w.Chain scope chain ∧ chain.Pairwise (· > ·) ∧
    ∀ other, w.Chain scope other → other = chain
  /-- So every search ends, and its result is what the name means. -/
  search : ∀ scope < w.scopes.size, ∀ name, w.search scope name = some (w.lookup scope name)
  /-- Counting the scopes ends too: there is one more than from the scope around, or just one. -/
  depth : ∀ scope < w.scopes.size, w.count scope = some (w.depth scope) ∧
    w.depth scope = ((w.outer? scope).map w.depth).getD 0 + 1
  /-- A name has the value that it was bound to last in the nearest scope in which it was bound. -/
  found : ∀ scope < w.scopes.size, ∀ chain, w.Chain scope chain → ∀ name value,
    w.lookup scope name = some value ↔
      ∃ near s far, chain = near ++ s :: far ∧
        (∀ other ∈ near, ∀ u, .bound other name u ∉ log) ∧ Log.Since name s value log
  /-- A name has no value if it was bound in none of the scopes outwards. -/
  unfound : ∀ scope < w.scopes.size, ∀ chain, w.Chain scope chain → ∀ name,
    w.lookup scope name = none ↔ ∀ s ∈ chain, ∀ u, .bound s name u ∉ log
  /-- A name stands for its value, or else for the builtin function of that name. -/
  named : ∀ scope name, w.named scope name =
    ((w.lookup scope name).or ((Builtin.ofName? name).map .builtin)).getD (.error (.unbound name))
  /-- The evaluator gives what a name stands for. -/
  evaluated : ∀ apply scope name,
    (Eval.expression apply scope (.name name)).run w = some (w.named scope name, w)
  /-- So does a machine that is at a name. -/
  stepped : ∀ levels scope name,
    Machine.step ⟨.task (.expression scope (.name name)), levels, w⟩ =
      some ⟨.value (w.named scope name), levels, w⟩
  /-- A call binds its arguments in a scope of its own. -/
  call : ∀ (f : Closure) (arguments : List Value), f.scope < w.scopes.size →
    arguments.length = f.parameters.length → (∀ v ∈ arguments, v.Within w.scopes.size) →
      w.Calls log f arguments (w.openScope (some f.scope) (f.parameters.zip arguments))
  /-- A program that is run in a scope begins in a state that refers only to scopes that exist. -/
  program : ∀ scope < w.scopes.size, ∀ program, (Machine.start scope program w).Within
  /-- So does a call. -/
  application : ∀ identity (f : Closure) (arguments : List Value), f.scope < w.scopes.size →
    (∀ v ∈ arguments, v.Within w.scopes.size) →
      (Machine.mk (.task (.operate (.call (.function identity f) arguments))) [] w).Within
  /-- At every moment of a run, the history is continued by what the steps have done so far. -/
  moment : ∀ (m : Machine) later m', m.world = w → m.Within → m.Tells later m' →
    Chronicle m'.world (later ++ log)
  /-- What an application does to the scopes is what the steps of its run do. -/
  applied : ∀ depth identity (f : Closure) (arguments : List Value) v w', f.scope < w.scopes.size →
    (∀ u ∈ arguments, u.Within w.scopes.size) →
      (Eval.apply depth (.function identity f) arguments).run w = some (v, w') →
        ∃ later, Machine.Tells ⟨.task (.operate (.call (.function identity f) arguments)), [], w⟩
          later ⟨.value v, [], w'⟩ ∧ Chronicle w' (later ++ log) ∧ v.Within w'.scopes.size
  /-- A function that was made in a scope finds what names are bound to later in that scope and further
  out. -/
  captured : ∀ later w', Chronicle w' (later ++ log) → ∀ f : Closure, f.scope < w.scopes.size →
    ∀ near s far, w.Chain f.scope (near ++ s :: far) → ∀ name ∉ f.parameters, ∀ value,
      (∀ other ∈ near, ∀ u, .bound other name u ∉ later ++ log) → Log.Since name s value later →
        ∀ arguments : List Value,
          (w'.openScope (some f.scope) (f.parameters.zip arguments)).lookup w'.nextScope name =
            some value

/-- What comes after the last binding still does when what came before is seen too. -/
theorem Log.Since.append {name : String} {scope : ScopeId} {value : Value}
    (h : Log.Since name scope value later) (log : Log) :
    Log.Since name scope value (later ++ log) := by
  obtain ⟨last, earlier, rfl, hlast⟩ := h
  exact ⟨last, earlier ++ log, by rw [List.append_assoc, List.cons_append], hlast⟩

variable {f : Closure} {arguments : List Value}

/-- In the scope of a call, a name that is no parameter means what it means where the function was
made. -/
theorem World.Records.lookup_other (h : w.Records log) (hscope : f.scope < w.scopes.size)
    {name : String} (hname : name ∉ f.parameters) :
    (w.openScope (some f.scope) (f.parameters.zip arguments)).lookup w.nextScope name =
      w.lookup f.scope name := by
  have hother : ∀ p ∈ f.parameters.zip arguments, p.1 ≠ name := by
    rintro p hp rfl
    exact hname (List.of_mem_zip hp).1
  rw [h.lookup_openScope hscope, Bindings.lookup_bindAll_other hother]
  rfl

theorem Chronicle.calls (h : Chronicle w log) (hscope : f.scope < w.scopes.size)
    (hlength : arguments.length = f.parameters.length)
    (hwithin : ∀ v ∈ arguments, v.Within w.scopes.size) :
    w.Calls log f arguments (w.openScope (some f.scope) (f.parameters.zip arguments)) where
  history := h.entered hscope fun p hp => hwithin p.2 (List.of_mem_zip hp).2
  parameter i name hname hlast := by
    rw [h.records.lookup_openScope hscope, Bindings.lookup_bindAll_zip hlength hname hlast]
    have hi : i < arguments.length := hlength ▸ (List.getElem?_eq_some_iff.1 hname).1
    rw [List.getElem?_eq_getElem hi]
    rfl
  other name hname := h.records.lookup_other hscope hname
  body depth identity := by
    have hbegin : (Task.operate (.call (.function identity f) arguments)).begin w =
        .enter (.block w.nextScope .null f.body)
          (w.openScope (some f.scope) (f.parameters.zip arguments)) := if_pos hlength
    have hrun := Task.run_eq (depth + 1) (.operate (.call (.function identity f) arguments)) w
    rwa [hbegin] at hrun

theorem Chronicle.within_start (h : Chronicle w log) {scope : ScopeId}
    (hscope : scope < w.scopes.size) (program : Program) :
    (Machine.start scope program w).Within :=
  Machine.keeps_start Value.lasting_rooted (fun _ _ => trivial) hscope h.records.within

theorem Chronicle.within_call (h : Chronicle w log) (identity : Identity)
    (hscope : f.scope < w.scopes.size) (hwithin : ∀ u ∈ arguments, u.Within w.scopes.size) :
    (Machine.mk (.task (.operate (.call (.function identity f) arguments))) [] w).Within := by
  refine .of_task ⟨List.forall_mem_cons.2 ⟨Value.within_function.2 hscope, hwithin⟩, ?_,
    fun _ _ => trivial⟩ (by simp) h.records.within
  rintro _ ⟨⟩

/-- An application does to the scopes what the steps of its run do. -/
theorem Chronicle.applied (h : Chronicle w log) {depth : Nat} {identity : Identity} {v : Value}
    (hscope : f.scope < w.scopes.size) (hwithin : ∀ u ∈ arguments, u.Within w.scopes.size)
    (hrun : (Eval.apply depth (.function identity f) arguments).run w = some (v, w')) :
    ∃ later, Machine.Tells ⟨.task (.operate (.call (.function identity f) arguments)), [], w⟩
      later ⟨.value v, [], w'⟩ ∧ Chronicle w' (later ++ log) ∧ v.Within w'.scopes.size := by
  have hruns : Runs depth (.operate (.call (.function identity f) arguments)) w v w' :=
    runs_iff.2 hrun
  obtain ⟨later, htells⟩ := Machine.exists_tells (Machine.steps_of_runs hruns [])
  obtain ⟨hworld, hend⟩ := h.tells (h.within_call identity hscope hwithin) htells
  exact ⟨later, htells, hworld, hend.value v rfl⟩

/-- Whatever is done to scopes, by hand or by evaluation, they form a forest, and a name has the value
that it was bound to last in the nearest scope in which it was bound. -/
theorem scopes_form_forest (h : Chronicle w log) : w.Forest log where
  size := h.records.size
  older := h.records.outer
  link := h.records.link
  permanent later w' h' scope hscope :=
    ⟨Log.outer?_append later (h.records.size ▸ hscope), (h.records.outer_later h'.records hscope).2⟩
  chain scope hscope := by
    obtain ⟨chain, hchain⟩ := h.records.exists_chain hscope
    exact ⟨chain, hchain, h.records.pairwise_chain hscope hchain, fun _ hother => hother.unique hchain⟩
  search scope hscope name := by
    obtain ⟨chain, hchain⟩ := h.records.exists_chain hscope
    rw [hchain.search, hchain.lookup]
  depth scope hscope := by
    obtain ⟨chain, hchain⟩ := h.records.exists_chain hscope
    exact ⟨by rw [hchain.count, hchain.depth], h.records.depth hscope⟩
  found _ hscope _ hchain _ _ := h.records.lookup_eq_some_iff hscope hchain
  unfound _ hscope _ hchain _ := h.records.lookup_eq_none_iff hscope hchain
  named scope name := by
    rw [World.named]
    cases w.lookup scope name with
    | some value => rfl
    | none => cases Builtin.ofName? name <;> rfl
  evaluated apply scope name := by
    rw [Eval.expression, Eval.run_name]
  stepped levels scope name := Machine.step_done rfl
  call _ _ hscope hlength hwithin := h.calls hscope hlength hwithin
  program _ hscope program := h.within_start hscope program
  application identity _ _ hscope hwithin := h.within_call identity hscope hwithin
  moment m later m' hworld hkeeps htells := (Chronicle.tells (hworld ▸ h) hkeeps htells).1
  applied _ _ _ _ _ _ hscope hwithin hrun := h.applied hscope hwithin hrun
  captured later w' h' f hscope near s far hchain name hname value hnear hlast arguments := by
    obtain ⟨hscope', -⟩ := h.records.outer_later h'.records hscope
    have hlater := h.records.chain_later h'.records hscope hchain
    rw [h'.records.lookup_other hscope' hname, h'.records.lookup_eq_some_iff hscope' hlater]
    exact ⟨near, s, far, rfl, hnear, hlast.append log⟩

/-- A world with a scope inside the first one. A name was bound in the first scope before the other one
was opened, and again after that. -/
def World.rebound : World :=
  (((initial .unlimited).define 0 "x" (.integer 1)).openScope (some 0) []).define 0 "x" (.integer 2)

/-- The history of that world. -/
def Log.rebound : Log :=
  [.bound 0 "x" (.integer 2), .opened (some 0), .bound 0 "x" (.integer 1), .opened none]

/-- Two scopes, each around the other one. -/
def World.ring : World := ⟨#[⟨[], some 1⟩, ⟨[], some 0⟩], 0, 0, .unlimited⟩

/-- From the inner scope, the name has its later value, and in the scope of a call of a function that was
made there it has that value too. Of two parameters of one name, the last one counts. No history leads to
scopes around each other, where a search has no end. -/
theorem rebound_name_in_forest :
    let f : Closure := ⟨["y", "y"], [.expression (.name "x")], ⟨0, []⟩, 1⟩
    let arguments : List Value := [.integer 3, .integer 4]
    let called := World.rebound.openScope (some 1) [("y", .integer 3), ("y", .integer 4)]
    Chronicle .rebound .rebound ∧ World.rebound.search 1 "x" = some (some (.integer 2)) ∧
      World.rebound.count 1 = some 2 ∧
      f.scope < World.rebound.scopes.size ∧ arguments.length = f.parameters.length ∧
      (∀ v ∈ arguments, v.Within World.rebound.scopes.size) ∧
      called.lookup 2 "y" = some (.integer 4) ∧ called.lookup 2 "x" = some (.integer 2) ∧
      World.ring.search 0 "x" = none ∧ ∀ log, ¬ Chronicle .ring log := by
  intro f arguments called
  have hwithin (n : Nat) (i : Int64) : (Value.integer i).Within n :=
    (Value.lasting_rooted.hereditary n).integer i
  have h : Chronicle .rebound .rebound :=
    ((((Chronicle.start .unlimited).opens none (by simp)).binds (by decide) "x" (hwithin _ 1)).opens
      (some 0) (by decide)).binds (by decide) "x" (hwithin _ 2)
  have hforest := scopes_form_forest h
  have hinner : 1 < World.rebound.scopes.size := by decide
  have hchain : World.rebound.Chain 1 [1, 0] := .cons rfl (.last rfl)
  have hvalue : World.rebound.lookup 1 "x" = some (.integer 2) := by
    refine (hforest.found 1 hinner _ hchain "x" _).2 ⟨[1], 0, [], rfl, ?_, [], _, rfl, ?_⟩
    · simp [Log.rebound]
    · simp
  have harguments : ∀ v ∈ arguments, v.Within World.rebound.scopes.size := by
    simp [arguments, hwithin]
  have hdepth : World.rebound.depth 1 = 2 := by
    have hfirst : World.rebound.depth 0 = 1 := (hforest.depth 0 (by decide)).2
    exact (hforest.depth 1 hinner).2.trans (congrArg (· + 1) hfirst)
  have hcall := hforest.call f arguments hinner rfl harguments
  have hring : World.ring.search 0 "x" = none := by
    refine World.search_eq_none (P := fun s => s = 0 ∨ s = 1) (.inl rfl) ?_ ?_
    · rintro s (rfl | rfl) <;> rfl
    · rintro s (rfl | rfl)
      · exact ⟨1, rfl, .inr rfl⟩
      · exact ⟨0, rfl, .inl rfl⟩
  refine ⟨h, by rw [hforest.search 1 hinner, hvalue], by rw [(hforest.depth 1 hinner).1, hdepth],
    hinner, rfl, harguments, hcall.parameter 1 "y" rfl ?_, (hcall.other "x" (by decide)).trans hvalue,
    hring, fun log hlog => ?_⟩
  · intro j hj
    have hnone : f.parameters[j]? = none := List.getElem?_eq_none hj
    simp [hnone]
  · cases hring.symm.trans ((scopes_form_forest hlog).search 0 (by decide) "x")

end Monkey
