import Monkey.Proofs.Evaluation.Moments
import Monkey.Proofs.Rendering.Marks

/-!
# Nodes of programs

A path leads from the top of a tree to a node, by the position of each node under the one above it. In a
numbered program, a function literal is marked with its own number and path, so different literals of the
programs of a course have different marks, and the literals that are evaluated and the functions that are
made in a course are those of its programs.
-/

namespace Monkey

variable {μ ν : Type}

/-- Something that stands in a tree. -/
inductive Node (μ : Type) where
  /-- An expression. -/
  | expression (e : Expr μ)
  /-- A statement. -/
  | statement (s : Stmt μ)
  /-- A block, or the whole tree. -/
  | block (ss : List (Stmt μ))

/-- What is done to the members of a list, counted from some position on, is done to each of them at its
own position. -/
theorem getElem?_of_counted {α β : Type} (counted : Nat → List α → List β) (one : Nat → α → β)
    (nil : ∀ position, counted position [] = [])
    (cons : ∀ position x xs,
      counted position (x :: xs) = one position x :: counted (position + 1) xs)
    (xs : List α) (position i : Nat) :
    (counted position xs)[i]? = (xs[i]?).map fun x => one (position + i) x := by
  induction xs generalizing position i with
  | nil => rw [nil, List.getElem?_nil, List.getElem?_nil, Option.map_none]
  | cons x xs ih =>
    rw [cons]
    cases i with
    | zero => rfl
    | succ i =>
      rw [List.getElem?_cons_succ, List.getElem?_cons_succ, ih, Nat.add_right_comm, Nat.add_assoc]

namespace Node

/-- The nodes right below a node, each at its position. -/
def below : Node μ → List (Node μ)
  | expression (.unary _ operand) => [expression operand]
  | expression (.binary left _ right) => [expression left, expression right]
  | expression (.conditional test chosen other) =>
    expression test :: block chosen :: (other.map block).toList
  | expression (.function _ _ body) => body.map statement
  | expression (.call callee arguments) => expression callee :: arguments.map expression
  | expression (.array elements) => elements.map expression
  | expression (.index collection position) => [expression collection, expression position]
  | expression (.hash pairs) => (inPairs pairs).map expression
  | expression _ => []
  | statement s => [expression s.value]
  | block ss => ss.map statement

/-- The node that a path leads to. -/
def at? : Node μ → List Nat → Option (Node μ)
  | node, [] => some node
  | node, i :: path => (node.below[i]?).bind fun next => next.at? path

/-- The same node with other marks. -/
def remark (f : List Nat → μ → ν) (path : List Nat) : Node μ → Node ν
  | expression e => expression (e.remark f path)
  | statement s => statement (s.remark f path)
  | block ss => block (remarkBlock f path 0 ss)

/-- A path can be walked in two parts. -/
theorem at?_append (node : Node μ) (path further : List Nat) :
    node.at? (path ++ further) = (node.at? path).bind fun next => next.at? further := by
  induction path generalizing node with
  | nil => rfl
  | cons i path ih =>
    rw [List.cons_append, at?, at?, Option.bind_assoc]
    exact congrArg _ (funext fun next => ih next)

section

variable (f : List Nat → μ → ν) (path : List Nat)

theorem getElem?_remarkExpressions (es : List (Expr μ)) (position i : Nat) :
    (remarkExpressions f path position es)[i]? =
      (es[i]?).map fun e => e.remark f ((position + i) :: path) :=
  getElem?_of_counted (remarkExpressions f path) (fun n e => e.remark f (n :: path))
    (fun _ => by rw [remarkExpressions]) (fun _ _ _ => by rw [remarkExpressions]) es position i

theorem getElem?_remarkBlock (ss : List (Stmt μ)) (position i : Nat) :
    (remarkBlock f path position ss)[i]? =
      (ss[i]?).map fun s => s.remark f ((position + i) :: path) :=
  getElem?_of_counted (remarkBlock f path) (fun n s => s.remark f (n :: path))
    (fun _ => by rw [remarkBlock]) (fun _ _ _ => by rw [remarkBlock]) ss position i

/-- Pairs take two positions each, as if their keys and values stood in one list. -/
theorem inPairs_remarkPairs (pairs : List (Expr μ × Expr μ)) (position : Nat) :
    inPairs (remarkPairs f path position pairs) =
      remarkExpressions f path position (inPairs pairs) := by
  induction pairs generalizing position with
  | nil => rfl
  | cons pair pairs ih =>
    have hcons (p : Expr ν × Expr ν) (ps : List (Expr ν × Expr ν)) :
        inPairs (p :: ps) = p.1 :: p.2 :: inPairs ps := rfl
    rw [remarkPairs, hcons, ih]
    rfl

/-- Other marks are those of the same positions. -/
theorem getElem?_below_remark (node : Node μ) (i : Nat) :
    (node.remark f path).below[i]? = (node.below[i]?).map (remark f (i :: path)) := by
  cases node with
  | statement s =>
    cases i with
    | zero => simp [remark, below, Stmt.value_remark]
    | succ i => rfl
  | block ss =>
    simp only [remark, below, List.getElem?_map, getElem?_remarkBlock, Nat.zero_add, Option.map_map]
    rfl
  | expression e =>
    cases e with
    | unary operator operand =>
      rw [remark, Expr.remark]
      rcases i with _ | i <;> rfl
    | binary left operator right =>
      rw [remark, Expr.remark]
      rcases i with _ | _ | i <;> rfl
    | conditional test chosen other =>
      rw [remark, Expr.remark]
      cases other with
      | none =>
        rw [remarkOtherwise]
        rcases i with _ | _ | i <;> rfl
      | some block =>
        rw [remarkOtherwise]
        rcases i with _ | _ | _ | i <;> rfl
    | function mark parameters body =>
      rw [remark, Expr.remark]
      simp only [below, List.getElem?_map, getElem?_remarkBlock, Nat.zero_add, Option.map_map]
      rfl
    | call callee arguments =>
      rw [remark, Expr.remark]
      cases i with
      | zero => rfl
      | succ i =>
        simp only [below, List.getElem?_cons_succ, List.getElem?_map, getElem?_remarkExpressions,
          Option.map_map, Nat.add_comm 1 i]
        rfl
    | array elements =>
      rw [remark, Expr.remark]
      simp only [below, List.getElem?_map, getElem?_remarkExpressions, Nat.zero_add, Option.map_map]
      rfl
    | index collection position =>
      rw [remark, Expr.remark]
      rcases i with _ | _ | i <;> rfl
    | hash pairs =>
      rw [remark, Expr.remark]
      simp only [below, inPairs_remarkPairs, List.getElem?_map, getElem?_remarkExpressions,
        Nat.zero_add, Option.map_map]
      rfl
    | _ =>
      rw [remark, Expr.remark]
      rfl

/-- What a path leads to when marks are replaced is what it led to before, with other marks. -/
theorem at?_remark (node : Node μ) (further : List Nat) :
    (node.remark f path).at? further =
      (node.at? further).map (remark f (further.reverse ++ path)) := by
  induction further generalizing node path with
  | nil => rfl
  | cons i further ih =>
    rw [at?, at?, getElem?_below_remark, List.reverse_cons, List.append_assoc]
    cases node.below[i]? with
    | none => rfl
    | some next => exact ih (i :: path) next

end

/-- In a numbered program, a function literal is marked with its number and its path. -/
theorem mark_of_at?_place {n : Nat} {tree : List (Stmt μ)} {path : List Nat} {site : Site}
    {parameters : List String} {body : List (Stmt Site)}
    (h : (block (place n tree)).at? path = some (expression (.function site parameters body))) :
    site = ⟨n, path.reverse⟩ := by
  have hplace : block (place n tree) = (block tree).remark (fun path _ => ⟨n, path⟩) [] := rfl
  rw [hplace, at?_remark, List.append_nil] at h
  obtain ⟨node, -, hnode⟩ := Option.map_eq_some_iff.1 h
  cases node with
  | expression e =>
    have he := expression.inj hnode
    cases e with
    | function mark names statements =>
      rw [Expr.remark] at he
      exact (Expr.function.inj he).1.symm
    | _ =>
      rw [Expr.remark] at he
      cases he
  | statement s => cases hnode
  | block ss => cases hnode

theorem exists_at?_trans {node next last : Node μ} (h : ∃ path, node.at? path = some next)
    (h' : ∃ path, next.at? path = some last) : ∃ path, node.at? path = some last := by
  obtain ⟨path, hpath⟩ := h
  obtain ⟨further, hfurther⟩ := h'
  exact ⟨path ++ further, by rw [at?_append, hpath]; exact hfurther⟩

/-- A node right below another one is found at its position. -/
theorem exists_at?_of_below {node next : Node μ} (h : next ∈ node.below) :
    ∃ path, node.at? path = some next := by
  obtain ⟨i, hi⟩ := List.getElem?_of_mem h
  exact ⟨[i], by rw [at?, hi]; rfl⟩

/-- The expression of a statement below a node is found. -/
theorem exists_at?_value {node : Node μ} {s : Stmt μ} (h : statement s ∈ node.below) :
    ∃ path, node.at? path = some (expression s.value) :=
  exists_at?_trans (exists_at?_of_below h) (exists_at?_of_below List.mem_cons_self)

/-- The expressions that an expression is made of are found below it. -/
theorem exists_at?_of_mem_children {e d : Expr μ} (h : d ∈ e.children) :
    ∃ path, (expression e).at? path = some (expression d) := by
  cases e with
  | conditional test chosen other =>
    have hblock {ss : List (Stmt μ)} (hss : block ss ∈ (expression (.conditional test chosen other)).below)
        (hd : d ∈ ss.map Stmt.value) :
        ∃ path, (expression (.conditional test chosen other)).at? path = some (expression d) := by
      obtain ⟨s, hs, rfl⟩ := List.mem_map.1 hd
      exact exists_at?_trans (exists_at?_of_below hss) (exists_at?_value (List.mem_map_of_mem hs))
    rcases List.mem_cons.1 h with rfl | h
    · exact exists_at?_of_below List.mem_cons_self
    rcases List.mem_append.1 h with h | h
    · exact hblock (List.mem_cons_of_mem _ List.mem_cons_self) h
    · cases other with
      | none => cases h
      | some ss => exact hblock (by simp [below]) h
  | function mark parameters body =>
    obtain ⟨s, hs, rfl⟩ := List.mem_map.1 h
    exact exists_at?_value (List.mem_map_of_mem hs)
  | call callee arguments =>
    refine exists_at?_of_below ?_
    rcases List.mem_cons.1 h with rfl | h
    · exact List.mem_cons_self
    · exact List.mem_cons_of_mem _ (List.mem_map_of_mem h)
  | array elements => exact exists_at?_of_below (List.mem_map_of_mem h)
  | hash pairs => exact exists_at?_of_below (List.mem_map_of_mem h)
  | unary operator operand => exact exists_at?_of_below (by simpa [below, Expr.children] using h)
  | binary left operator right => exact exists_at?_of_below (by simpa [below, Expr.children] using h)
  | index collection position =>
    exact exists_at?_of_below (by simpa [below, Expr.children] using h)
  | _ => cases h

end Node

/-! ## Programs by their numbers -/

/-- The expression stands at the site in one of the programs, each of which has its number. -/
def StandsAt (programs : List Program) (site : Site) (e : Expr Site) : Prop :=
  ∃ program, programs[site.program]? = some program ∧
    (Node.block program).at? site.path.reverse = some (.expression e)

variable {programs : List Program} {site : Site} {d e : Expr Site}

/-- At a site, one expression stands. -/
theorem StandsAt.unique (h : StandsAt programs site d) (h' : StandsAt programs site e) : d = e := by
  obtain ⟨p, hp, hd⟩ := h
  obtain ⟨q, hq, he⟩ := h'
  cases hp.symm.trans hq
  exact Node.expression.inj (Option.some.inj (hd.symm.trans he))

/-- What a path from the top of a program leads to stands at a site. -/
theorem exists_standsAt {program : Program} (mem : program ∈ programs) {path : List Nat}
    (h : (Node.block program).at? path = some (.expression e)) : ∃ site, StandsAt programs site e := by
  obtain ⟨n, hn⟩ := List.getElem?_of_mem mem
  exact ⟨⟨n, path.reverse⟩, program, hn, by rwa [List.reverse_reverse]⟩

/-- What an expression is made of stands in the programs if the expression does. -/
theorem StandsAt.child (h : StandsAt programs site e) (hd : d ∈ e.children) :
    ∃ other, StandsAt programs other d := by
  obtain ⟨program, hprogram, he⟩ := h
  obtain ⟨path, hpath⟩ := Node.exists_at?_trans ⟨_, he⟩ (Node.exists_at?_of_mem_children hd)
  exact exists_standsAt (List.mem_of_getElem? hprogram) hpath

/-- The statements of a program stand in it. -/
theorem exists_standsAt_value {program : Program} (mem : program ∈ programs) {s : Stmt Site}
    (hs : s ∈ program) : ∃ site, StandsAt programs site s.value := by
  have hbelow : Node.statement s ∈ (Node.block program).below := List.mem_map_of_mem hs
  obtain ⟨path, hpath⟩ := Node.exists_at?_value hbelow
  exact exists_standsAt mem hpath

/-- A function literal is marked with the site at which it stands. -/
theorem StandsAt.mark_eq (placed : Numbered programs) {mark : Site} {parameters : List String}
    {body : List (Stmt Site)} (h : StandsAt programs site (.function mark parameters body)) :
    mark = site := by
  obtain ⟨program, hprogram, hat⟩ := h
  obtain ⟨tree, rfl⟩ := placed _ program hprogram
  rw [Node.mark_of_at?_place hat, List.reverse_reverse]

/-- A function was made from the literal that stands at its site. -/
def Value.FromLiteral (programs : List Program) : Value → Prop
  | function _ f => StandsAt programs f.site (.function f.site f.parameters f.body)
  | _ => True

/-- Functions stay those of the literals in the programs. -/
theorem lasting_fromLiteral (placed : Numbered programs) :
    Lasting (fun _ => Value.FromLiteral programs) (fun _ _ => True)
      fun e => ∃ site, StandsAt programs site e where
  plain n v htype := by
    cases v with
    | function identity f => simp [Value.type] at htype
    | _ => trivial
  joined n s t hs ht := trivial
  string n text h := trivial
  function n identity site parameters body scope h _ := by
    obtain ⟨place, hplace⟩ := h
    cases hplace.mark_eq placed
    exact hplace
  closure n identity f h s hs := StandsAt.child h (List.mem_map_of_mem hs)
  empty n identity := trivial
  insert n identity table key k v h hkey := trivial
  renewed n identity other table h := trivial
  later m n v h hle := by
    cases v <;> exact h
  admitted m n scope h hle := trivial
  opened n := trivial
  parts e h d hd := by
    obtain ⟨site, hsite⟩ := h
    exact hsite.child hd

namespace Course

variable {sink : Sink} {past : List Machine} {m : Machine}

/-- In a course, everything that is evaluated stands in the programs, and functions come from their
literals. -/
theorem keeps_fromLiteral (h : Course sink programs past m) :
    ∀ x ∈ past ++ [m], x.Keeps (fun _ => Value.FromLiteral programs) (fun _ _ => True)
      fun e => ∃ site, StandsAt programs site e :=
  h.keeps (lasting_fromLiteral h.placed.2) fun _ hprogram _ hs => exists_standsAt_value hprogram hs

/-- A function that occurs in a course was made from a literal of its programs. -/
theorem standsAt (h : Course sink programs past m) {i : Identity} {f : Closure}
    (hf : OccursIn (past ++ [m]) (.function i f)) :
    StandsAt programs f.site (.function f.site f.parameters f.body) := by
  obtain ⟨x, hx, hcontains⟩ := hf
  exact (h.keeps_fromLiteral x hx).has hcontains.has

end Course

end Monkey
