import Monkey.Proofs.Evaluation.Correspondence

/-!
# Tasks under other names

Two tasks correspond when they are of one form and deal in one syntax, with values and scopes that
correspond. They then go on in the same way: one move of the one is answered by one move of the other,
and what follows corresponds again. By induction on a run, the other task has a run as well.
-/

namespace Monkey

variable (ρ : Renaming)

/-- Operations of one form, on values that correspond. -/
inductive Operation.Renamed : Operation → Operation → Prop where
  | unary (operator : Token) {v u : Value} (right : v.Renamed ρ u) :
      Operation.Renamed (.unary operator v) (.unary operator u)
  | binary (operator : Token) {v u x y : Value} (left : v.Renamed ρ u) (right : x.Renamed ρ y) :
      Operation.Renamed (.binary v operator x) (.binary u operator y)
  | index {c d p q : Value} (collection : c.Renamed ρ d) (position : p.Renamed ρ q) :
      Operation.Renamed (.index c p) (.index d q)
  | branch {a b : ScopeId} {v u : Value} (chosen : List (Stmt Site))
      (other : Option (List (Stmt Site))) (scope : ρ.scopes a b) (test : v.Renamed ρ u) :
      Operation.Renamed (.branch a v chosen other) (.branch b u chosen other)
  | call {f g : Value} {vs us : List Value} (callee : f.Renamed ρ g)
      (arguments : List.Forall₂ (Value.Renamed ρ) vs us) :
      Operation.Renamed (.call f vs) (.call g us)
  | bind {a b : ScopeId} (name : String) {v u : Value} (scope : ρ.scopes a b)
      (value : v.Renamed ρ u) : Operation.Renamed (.bind a name v) (.bind b name u)
  | file {a b : ScopeId} {t t' : Table (Value × Value)} {k l : Value} (value : Expr Site)
      (pairs : List (Expr Site × Expr Site)) (scope : ρ.scopes a b) (table : Table.Renamed ρ t t')
      (key : k.Renamed ρ l) :
      Operation.Renamed (.file a t k value pairs) (.file b t' l value pairs)
  | leave {v u : Value} (value : v.Renamed ρ u) : Operation.Renamed (.leave v) (.leave u)

/-- Tasks of one form, on one syntax. -/
inductive Task.Renamed : Task → Task → Prop where
  | expression {a b : ScopeId} (e : Expr Site) (scope : ρ.scopes a b) :
      Task.Renamed (.expression a e) (.expression b e)
  | right {a b : ScopeId} {v u : Value} (operator : Token) (e : Expr Site) (scope : ρ.scopes a b)
      (left : v.Renamed ρ u) : Task.Renamed (.right a v operator e) (.right b u operator e)
  | position {a b : ScopeId} {c d : Value} (e : Expr Site) (scope : ρ.scopes a b)
      (collection : c.Renamed ρ d) : Task.Renamed (.position a c e) (.position b d e)
  | arguments {a b : ScopeId} {f g : Value} {vs us : List Value} (es : List (Expr Site))
      (scope : ρ.scopes a b) (callee : f.Renamed ρ g)
      (done : List.Forall₂ (Value.Renamed ρ) vs us) :
      Task.Renamed (.arguments a f vs es) (.arguments b g us es)
  | elements {a b : ScopeId} {vs us : List Value} (es : List (Expr Site)) (scope : ρ.scopes a b)
      (done : List.Forall₂ (Value.Renamed ρ) vs us) :
      Task.Renamed (.elements a vs es) (.elements b us es)
  | entries {a b : ScopeId} {t t' : Table (Value × Value)} (pairs : List (Expr Site × Expr Site))
      (scope : ρ.scopes a b) (table : Table.Renamed ρ t t') :
      Task.Renamed (.entries a t pairs) (.entries b t' pairs)
  | statement {a b : ScopeId} (s : Stmt Site) (scope : ρ.scopes a b) :
      Task.Renamed (.statement a s) (.statement b s)
  | block {a b : ScopeId} {v u : Value} (ss : List (Stmt Site)) (scope : ρ.scopes a b)
      (last : v.Renamed ρ u) : Task.Renamed (.block a v ss) (.block b u ss)
  | operate {o o' : Operation} (operation : o.Renamed ρ o') :
      Task.Renamed (.operate o) (.operate o')

/-- Frames of one form, on one syntax. -/
inductive Frame.Renamed : Frame → Frame → Prop where
  | unary (operator : Token) : Frame.Renamed (.unary operator) (.unary operator)
  | left {a b : ScopeId} (operator : Token) (e : Expr Site) (scope : ρ.scopes a b) :
      Frame.Renamed (.left a operator e) (.left b operator e)
  | right {v u : Value} (operator : Token) (left : v.Renamed ρ u) :
      Frame.Renamed (.right v operator) (.right u operator)
  | test {a b : ScopeId} (chosen : List (Stmt Site)) (other : Option (List (Stmt Site)))
      (scope : ρ.scopes a b) : Frame.Renamed (.test a chosen other) (.test b chosen other)
  | callee {a b : ScopeId} (es : List (Expr Site)) (scope : ρ.scopes a b) :
      Frame.Renamed (.callee a es) (.callee b es)
  | argument {a b : ScopeId} {f g : Value} {vs us : List Value} (es : List (Expr Site))
      (scope : ρ.scopes a b) (callee : f.Renamed ρ g)
      (done : List.Forall₂ (Value.Renamed ρ) vs us) :
      Frame.Renamed (.argument a f vs es) (.argument b g us es)
  | element {a b : ScopeId} {vs us : List Value} (es : List (Expr Site)) (scope : ρ.scopes a b)
      (done : List.Forall₂ (Value.Renamed ρ) vs us) :
      Frame.Renamed (.element a vs es) (.element b us es)
  | collection {a b : ScopeId} (e : Expr Site) (scope : ρ.scopes a b) :
      Frame.Renamed (.collection a e) (.collection b e)
  | position {c d : Value} (collection : c.Renamed ρ d) :
      Frame.Renamed (.position c) (.position d)
  | key {a b : ScopeId} {t t' : Table (Value × Value)} (value : Expr Site)
      (pairs : List (Expr Site × Expr Site)) (scope : ρ.scopes a b)
      (table : Table.Renamed ρ t t') :
      Frame.Renamed (.key a t value pairs) (.key b t' value pairs)
  | entry {a b : ScopeId} {t t' : Table (Value × Value)} {k l : Value} (hashKey : HashKey)
      (pairs : List (Expr Site × Expr Site)) (scope : ρ.scopes a b)
      (table : Table.Renamed ρ t t') (key : k.Renamed ρ l) :
      Frame.Renamed (.entry a t hashKey k pairs) (.entry b t' hashKey l pairs)
  | statement {a b : ScopeId} (ss : List (Stmt Site)) (scope : ρ.scopes a b) :
      Frame.Renamed (.statement a ss) (.statement b ss)
  | define {a b : ScopeId} (name : String) (scope : ρ.scopes a b) :
      Frame.Renamed (.define a name) (.define b name)
  | leave : Frame.Renamed .leave .leave

variable {ρ} {σ : Renaming} {w w' x x' : World}

theorem Frame.Renamed.mono {f g : Frame} (h : f.Renamed ρ g) (hle : ρ ≤ σ) : f.Renamed σ g := by
  have hscope : ∀ {a b}, ρ.scopes a b → σ.scopes a b := hle.1 _ _
  have hvalues : ∀ {vs us}, List.Forall₂ (Value.Renamed ρ) vs us →
      List.Forall₂ (Value.Renamed σ) vs us := fun hvs => hvs.imp fun _ _ hvu => hvu.mono hle
  have htable : ∀ {t t'}, Table.Renamed ρ t t' → Table.Renamed σ t t' :=
    fun ht => ht.imp fun _ _ hed => hed.mono hle
  cases h with
  | unary operator => exact .unary operator
  | left operator e scope => exact .left operator e (hscope scope)
  | right operator left => exact .right operator (left.mono hle)
  | test chosen other scope => exact .test chosen other (hscope scope)
  | callee es scope => exact .callee es (hscope scope)
  | argument es scope callee done =>
    exact .argument es (hscope scope) (callee.mono hle) (hvalues done)
  | element es scope done => exact .element es (hscope scope) (hvalues done)
  | collection e scope => exact .collection e (hscope scope)
  | position collection => exact .position (collection.mono hle)
  | key value pairs scope table => exact .key value pairs (hscope scope) (htable table)
  | entry hashKey pairs scope table key =>
    exact .entry hashKey pairs (hscope scope) (htable table) (key.mono hle)
  | statement ss scope => exact .statement ss (hscope scope)
  | define name scope => exact .define name (hscope scope)
  | leave => exact .leave

/-- Frames that correspond go on alike with values that do. -/
theorem Frame.Renamed.next {f g : Frame} (h : f.Renamed ρ g) {v u : Value} (hvu : v.Renamed ρ u) :
    (f.next v).Renamed ρ (g.next u) := by
  cases h with
  | unary operator => exact .operate (.unary operator hvu)
  | left operator e scope => exact .right operator e scope hvu
  | right operator left => exact .operate (.binary operator left hvu)
  | test chosen other scope => exact .operate (.branch chosen other scope hvu)
  | callee es scope => exact .arguments es scope hvu .nil
  | argument es scope callee done =>
    exact .arguments es scope callee (List.rel_append done (.cons hvu .nil))
  | element es scope done => exact .elements es scope (List.rel_append done (.cons hvu .nil))
  | collection e scope => exact .position e scope hvu
  | position collection => exact .operate (.index collection hvu)
  | key value pairs scope table => exact .operate (.file value pairs scope table hvu)
  | entry hashKey pairs scope table key =>
    exact .entries pairs scope (table.insert hashKey key hvu)
  | statement ss scope => exact .block ss scope hvu
  | define name scope => exact .operate (.bind name scope hvu)
  | leave => exact .operate (.leave hvu)

variable (ρ w w')

/-- Moves of one kind that lead from worlds that correspond to worlds that do. -/
inductive Move.Renamed : Move → Move → Prop where
  | done {σ : Renaming} {v u : Value} {x x' : World} (value : v.Renamed σ u)
      (leads : ρ.Leads w w' σ x x') : Move.Renamed (.done v x) (.done u x')
  | become {t t' : Task} (task : t.Renamed ρ t') : Move.Renamed (.become t w) (.become t' w')
  | await {t t' : Task} {f g : Frame} (task : t.Renamed ρ t') (frame : f.Renamed ρ g) :
      Move.Renamed (.await t f) (.await t' g)
  | enter {σ : Renaming} {t t' : Task} {x x' : World} (task : t.Renamed σ t')
      (leads : ρ.Leads w w' σ x x') : Move.Renamed (.enter t x) (.enter t' x')

variable {ρ w w'}

/-- A value that is there at once, in the world as it is. -/
theorem Move.renamed_done (h : ρ.Relates w w') {v u : Value} (hvu : v.Renamed ρ u) :
    Move.Renamed ρ w w' (.done v w) (.done u w') := .done hvu (.refl h)

theorem Move.renamed_expression (h : ρ.Relates w w') {a b : ScopeId} (hab : ρ.scopes a b)
    (e : Expr Site) : Move.Renamed ρ w w' (expression w a e) (expression w' b e) := by
  cases e with
  | name text => exact renamed_done h (h.named hab text)
  | integer n => exact renamed_done h (.integer n)
  | boolean b => exact renamed_done h (.boolean b)
  | string text => exact renamed_done h (.string text)
  | unary operator operand => exact .await (.expression _ hab) (.unary operator)
  | binary left operator right => exact .await (.expression _ hab) (.left operator right hab)
  | conditional test chosen other => exact .await (.expression _ hab) (.test chosen other hab)
  | function site parameters body =>
    obtain ⟨σ, hleads, hnew⟩ := h.newFunction hab parameters body site
    exact .done hnew hleads
  | call callee arguments => exact .await (.expression _ hab) (.callee arguments hab)
  | array elements => exact .become (.elements elements hab .nil)
  | index collection position => exact .await (.expression _ hab) (.collection position hab)
  | hash pairs => exact .become (.entries pairs hab .nil)

/-- Names are paired with arguments that correspond. -/
theorem forall₂_zip {R : Value → Value → Prop} (names : List String) {vs us : List Value}
    (h : List.Forall₂ R vs us) :
    List.Forall₂ (fun p q => p.1 = q.1 ∧ R p.2 q.2) (names.zip vs) (names.zip us) := by
  induction names generalizing vs us with
  | nil => exact .nil
  | cons name names ih =>
    cases h with
    | nil => exact .nil
    | cons hvu h => exact .cons ⟨rfl, hvu⟩ (ih h)

/-- A function is entered in both worlds, or the count of the arguments is wrong in both. -/
theorem Operation.renamed_call (h : ρ.Relates w w') {f g : Value} {vs us : List Value}
    (callee : f.Renamed ρ g) (arguments : List.Forall₂ (Value.Renamed ρ) vs us) :
    Move.Renamed ρ w w' ((call f vs).begin w) ((call g us).begin w') := by
  cases callee with
  | @function i j f scope identity captured =>
    simp only [begin, ← arguments.length_eq]
    split
    · have hpairs := forall₂_zip f.parameters arguments
      have hleads := h.openScope captured hpairs
      have hnew : (ρ.withScope w.nextScope w'.nextScope).scopes w.nextScope w'.nextScope :=
        .inr ⟨rfl, rfl⟩
      exact .enter (.block f.body hnew .null) hleads
    · exact Move.renamed_done h (.error _)
  | builtin b =>
    obtain ⟨σ, hleads, hresult⟩ := b.leads_call arguments h
    exact .done hresult.ofResult hleads
  | _ => exact Move.renamed_done h (.error _)

theorem Operation.renamed_begin (h : ρ.Relates w w') {o o' : Operation} (ho : o.Renamed ρ o') :
    Move.Renamed ρ w w' (o.begin w) (o'.begin w') := by
  cases ho with
  | unary operator right => exact Move.renamed_done h (right.unary operator).ofResult
  | binary operator left right =>
    exact Move.renamed_done h (left.binary h.identitiesUnique right operator).ofResult
  | index collection position => exact Move.renamed_done h (collection.index position).ofResult
  | branch chosen other scope test =>
    simp only [begin, ← test.truthy_eq]
    split
    · exact .become (.block chosen scope .null)
    · cases other with
      | none => exact Move.renamed_done h .null
      | some statements => exact .become (.block statements scope .null)
  | call callee arguments => exact renamed_call h callee arguments
  | bind name scope value => exact .done .null (h.define scope name value)
  | @file a b t t' k l value pairs scope table key =>
    simp only [begin, ← key.key?_eq, ← key.type_eq]
    cases k.key? with
    | none => exact Move.renamed_done h (.error _)
    | some hashKey => exact .await (.expression value scope) (.entry hashKey pairs scope table key)
  | leave value => exact Move.renamed_done h (.returned value)

/-- Tasks that correspond go on alike. -/
theorem Task.renamed_begin (h : ρ.Relates w w') {t t' : Task} (ht : t.Renamed ρ t') :
    Move.Renamed ρ w w' (t.begin w) (t'.begin w') := by
  cases ht with
  | expression e scope => exact Move.renamed_expression h scope e
  | right operator e scope left => exact .await (.expression e scope) (.right operator left)
  | position e scope collection => exact .await (.expression e scope) (.position collection)
  | arguments es scope callee done =>
    cases es with
    | nil => exact .become (.operate (.call callee done))
    | cons e es => exact .await (.expression e scope) (.argument es scope callee done)
  | elements es scope done =>
    cases es with
    | nil =>
      obtain ⟨σ, hleads, hnew⟩ := h.newArray done
      exact .done hnew hleads
    | cons e es => exact .await (.expression e scope) (.element es scope done)
  | entries pairs scope table =>
    cases pairs with
    | nil =>
      obtain ⟨σ, hleads, hnew⟩ := h.newHash table
      exact .done hnew hleads
    | cons pair pairs =>
      exact .await (.expression pair.1 scope) (.key pair.2 pairs scope table)
  | statement s scope =>
    cases s with
    | define name value => exact .await (.expression value scope) (.define name scope)
    | leave value => exact .await (.expression value scope) .leave
    | expression value => exact .become (.expression value scope)
  | block ss scope last =>
    cases ss with
    | nil => exact Move.renamed_done h last
    | cons s ss => exact .await (.statement s scope) (.statement ss scope)
  | operate operation => exact Operation.renamed_begin h operation

/-- The move of a task is answered by one of the task that corresponds. -/
theorem Task.Renamed.exists_move {t t' : Task} (ht : t.Renamed ρ t') (h : ρ.Relates w w') {m : Move}
    (move : t.begin w = m) : ∃ m', t'.begin w' = m' ∧ Move.Renamed ρ w w' m m' :=
  ⟨_, rfl, move ▸ Task.renamed_begin h ht⟩

/-- A task that corresponds to one with a value has a value as well, with as many calls active at once,
and what there is in the end corresponds. -/
theorem Runs.renamed {depth : Nat} {t t' : Task} {v : Value} (hrun : Runs depth t w v x)
    (h : ρ.Relates w w') (ht : t.Renamed ρ t') :
    ∃ σ u x', Runs depth t' w' u x' ∧ v.Renamed σ u ∧ ρ.Leads w w' σ x x' := by
  induction hrun generalizing ρ w' t' with
  | done move =>
    obtain ⟨m', move', hmove⟩ := ht.exists_move h move
    cases hmove with
    | done value leads => exact ⟨_, _, _, .done move', value, leads⟩
  | become move _ ih =>
    obtain ⟨m', move', hmove⟩ := ht.exists_move h move
    cases hmove with
    | become task =>
      obtain ⟨σ, u, x', hrun', hvu, hleads⟩ := ih h task
      exact ⟨σ, u, x', .become move' hrun', hvu, hleads⟩
  | pass move _ signal ih =>
    obtain ⟨m', move', hmove⟩ := ht.exists_move h move
    cases hmove with
    | await task frame =>
      obtain ⟨σ, u, x', hrun', hvu, hleads⟩ := ih h task
      exact ⟨σ, u, x', .pass move' hrun' (hvu.isSignal_eq ▸ signal), hvu, hleads⟩
  | next move _ plain _ ih ih' =>
    obtain ⟨m', move', hmove⟩ := ht.exists_move h move
    cases hmove with
    | await task frame =>
      obtain ⟨σ, v', x', hfirst, hvalue, hleads⟩ := ih h task
      obtain ⟨τ, u, y', hrest, hvu, hleads'⟩ :=
        ih' hleads.related ((frame.mono hleads.grown.le).next hvalue)
      exact ⟨τ, u, y', .next move' hfirst (hvalue.isSignal_eq ▸ plain) hrest, hvu,
        hleads.trans hleads'⟩
  | enter move _ ih =>
    obtain ⟨m', move', hmove⟩ := ht.exists_move h move
    cases hmove with
    | enter task leads =>
      -- The names of the scope that is opened are there before the body is run.
      obtain ⟨σ, u, x', hrun', hvu, hleads⟩ := ih leads.related task
      exact ⟨σ, u.delivered, x', .enter move' hrun', hvu.delivered, leads.trans hleads⟩

end Monkey
