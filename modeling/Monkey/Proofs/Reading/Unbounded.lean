import Monkey.Proofs.Reading.Forward

/-!
# Reading without bounds

The reader of programs as it would be if nothing bounded its loops and the nesting of its expressions:
its steps are those of the bounded reader, but each of them may go on without end, and then there is
nothing. What the steps are is the least solution of their equations, so there is a result only if it is
found after finitely many of them.

Expressions, lists of different items, blocks and statements are all read in terms of each other. A list
is read in one way, whatever its items are.

The bounds of the reader are never what it stops at: from a cursor with no more tokens left than the bounds
allow for, both readers do the same, step by step.
-/

namespace Monkey.Reader

/-- A step of reading that may go on without end. -/
abbrev Unbounded := ExceptT Diagnostic (StateT Cursor Option)

/-- What a list can consist of. -/
inductive Item where
  /-- Parameters. -/
  | name
  /-- Elements or arguments. -/
  | expression
  /-- The entries of a hash. -/
  | pair

/-- What the items of a list are read to. -/
abbrev Item.Result : Item → Type
  | name => String
  | expression => Expr Unit
  | pair => Expr Unit × Expr Unit

/-- What there is to be read. -/
inductive Goal where
  /-- An expression up to the first operator that binds no more tightly than the given degree. -/
  | expression (p : Precedence)
  /-- What continues the given expression, as long as it binds more tightly than the given degree. -/
  | extended (p : Precedence) (left : Expr Unit)
  /-- The given expression continued by the current token. -/
  | continued (left : Expr Unit)
  /-- The expression that the current token begins. -/
  | operand
  /-- A condition in parentheses, a block, and perhaps another one. -/
  | conditional
  /-- The second block of a conditional, if the upcoming word announces one. -/
  | otherwise
  /-- Parameters in parentheses and a block. -/
  | function
  /-- An item of a list. -/
  | item (i : Item)
  /-- Further items, each after a comma. -/
  | furtherItems (i : Item)
  /-- Items with commas between them, from the opening token up to the closing one. -/
  | items (close : Symbol) (i : Item)
  /-- A block, from its opening brace to its closing one. -/
  | block
  /-- Statements up to the closing brace. -/
  | blockItems
  /-- A statement, or nothing if it cannot be read; the diagnostic is noted. -/
  | recorded
  /-- A statement, with the semicolon that can follow it. -/
  | statement
  /-- Statements up to the end of the stream. -/
  | programItems

namespace Goal

/-- What something is read to. -/
abbrev Result : Goal → Type
  | expression _ | extended _ _ | continued _ | operand | conditional | function => Expr Unit
  | otherwise => Option Tree
  | item i => i.Result
  | furtherItems i | items _ i => List i.Result
  | block | blockItems | programItems => Tree
  | recorded => Option (Stmt Unit)
  | statement => Stmt Unit

/-- A step that comes to its end. -/
def once {α : Type} (r : Reader α) : Unbounded α := fun c => some (outcome r c)

/-- Reads something. -/
def read : (g : Goal) → Unbounded g.Result
  | expression p => do
    let first ← operand |>.read
    extended p first |>.read
  | extended p left => do
    if p < .ofKind (← once upcoming).value.kind then
      once advance
      let longer ← continued left |>.read
      extended p longer |>.read
    else
      return left
  | continued left => do
    match (← once current).value with
    | .symbol .leftParen => return .call left (← items .rightParen .expression |>.read)
    | .symbol .leftBracket =>
      once advance
      let position ← expression .lowest |>.read
      once (expect (.symbol .rightBracket))
      return .index left position
    | operator =>
      once advance
      return .binary left operator (← expression (.ofKind operator.kind) |>.read)
  | operand => do
    let here ← once current
    match here.value with
    | .name text => return .name text
    | .integer digits => once (integer digits)
    | .string text => return .string text
    | .keyword .trueWord => return .boolean true
    | .keyword .falseWord => return .boolean false
    | .keyword .ifWord => conditional |>.read
    | .keyword .fnWord => function |>.read
    | .symbol .bang =>
      once advance
      return .unary (.symbol .bang) (← expression .unary |>.read)
    | .symbol .minus =>
      once advance
      return .unary (.symbol .minus) (← expression .unary |>.read)
    | .symbol .leftParen =>
      once advance
      let result ← expression .lowest |>.read
      once (expect (.symbol .rightParen))
      return result
    | .symbol .leftBracket => return .array (← items .rightBracket .expression |>.read)
    | .symbol .leftBrace => return .hash (← items .rightBrace .pair |>.read)
    | _ => throw (.noOperand here)
  | conditional => do
    once (expect (.symbol .leftParen))
    once advance
    let test ← expression .lowest |>.read
    once (expect (.symbol .rightParen))
    once (expect (.symbol .leftBrace))
    let chosen ← block |>.read
    return .conditional test chosen (← otherwise |>.read)
  | otherwise => do
    if ← once (sees (.keyword .elseWord)) then
      once advance
      once (expect (.symbol .leftBrace))
      return some (← block |>.read)
    else
      return none
  | function => do
    once (expect (.symbol .leftParen))
    let parameters ← items .rightParen .name |>.read
    once (expect (.symbol .leftBrace))
    return .function () parameters (← block |>.read)
  | item .name => once currentName
  | item .expression => expression .lowest |>.read
  | item .pair => do
    let key ← expression .lowest |>.read
    once (expect (.symbol .colon))
    once advance
    return (key, ← expression .lowest |>.read)
  | furtherItems i => do
    if ← once (sees (.symbol .comma)) then
      once advance
      once advance
      let first ← item i |>.read
      return first :: (← furtherItems i |>.read)
    else
      return []
  | items close i => do
    if ← once (sees (.symbol close)) then
      once advance
      return []
    once advance
    let first ← item i |>.read
    let others ← furtherItems i |>.read
    once (expect (.symbol close))
    return first :: others
  | block => do
    once advance
    blockItems |>.read
  | blockItems => do
    let here ← once current
    if here.value = .symbol .rightBrace then
      return []
    else if here.value = .finish then
      throw (.expected (.symbol .rightBrace) here)
    else
      let first ← recorded |>.read
      once advance
      let others ← blockItems |>.read
      return first.toList ++ others
  | recorded =>
    (do
      match ← (statement |>.read).run with
      | .ok result => return .ok (some result)
      | .error d =>
        modify (·.note d)
        return .ok none : StateT Cursor Option (Except Diagnostic (Option (Stmt Unit))))
  | statement => do
    match (← once current).value with
    | .keyword .letWord =>
      once (expect .name)
      let name ← once currentName
      once (expect (.symbol .assign))
      once advance
      let value ← expression .lowest |>.read
      once (skip (.symbol .semicolon))
      return .define name value
    | .keyword .returnWord =>
      once advance
      let value ← expression .lowest |>.read
      once (skip (.symbol .semicolon))
      return .leave value
    | _ =>
      let value ← expression .lowest |>.read
      once (skip (.symbol .semicolon))
      return .expression value
  | programItems => do
    if (← once current).value = .finish then
      return []
    else
      let first ← recorded |>.read
      once advance
      let others ← programItems |>.read
      return first.toList ++ others
partial_fixpoint

end Goal

variable {α β : Type}

/-- What a step gives from a cursor, and where it stops, if it does. -/
def outcome? (u : Unbounded α) (c : Cursor) : Option (Except Diagnostic α × Cursor) := u.run.run c

/-- The outcome of one step after another. -/
theorem outcome?_bind (u : Unbounded α) (f : α → Unbounded β) (c : Cursor) :
    outcome? (u >>= f) c = (outcome? u c).bind fun
      | (.ok a, d) => outcome? (f a) d
      | (.error e, d) => some (.error e, d) := by
  unfold outcome?
  simp only [ExceptT.run_bind, StateT.run_bind]
  rcases u.run.run c with _ | ⟨_ | _, _⟩ <;> rfl

theorem outcome?_current_bind (f : Spanned Token → Unbounded α) (c : Cursor) :
    outcome? (Goal.once current >>= f) c = outcome? (f c.current) c := rfl

theorem outcome?_upcoming_bind (f : Spanned Token → Unbounded α) (c : Cursor) :
    outcome? (Goal.once upcoming >>= f) c = outcome? (f c.upcoming) c := rfl

/-- Two steps do the same if their first ones do and what follows does. -/
theorem outcome?_bind_eq {u : Unbounded α} {r : Reader α} {f : α → Unbounded β} {g : α → Reader β}
    {c : Cursor} (hu : outcome? u c = some (outcome r c))
    (hf : ∀ a d, outcome r c = (.ok a, d) → outcome? (f a) d = some (outcome (g a) d)) :
    outcome? (u >>= f) c = some (outcome (r >>= g) c) := by
  rw [outcome?_bind, outcome_bind, hu, Option.bind_some]
  rcases h : outcome r c with ⟨e | a, d⟩
  · rfl
  · exact hf a d h

/-- From every cursor with at most the given number of tokens left, the unbounded step comes to its end,
and it does what the bounded one does. -/
class Ends (n : Nat) (u : Unbounded α) (r : Reader α) : Prop where
  /-- The two steps do the same. -/
  outcome_eq : ∀ c : Cursor, c.Proper → c.pending.length ≤ n → outcome? u c = some (outcome r c)

theorem Ends.of_le {m n : Nat} {u : Unbounded α} {r : Reader α} (h : Ends n u r) (hm : m ≤ n) :
    Ends m u r := ⟨fun c hc hlen => h.outcome_eq c hc (Nat.le_trans hlen hm)⟩

section Steps

variable {n : Nat}

instance (r : Reader α) : Ends n (Goal.once r) r := ⟨fun _ _ _ => rfl⟩

instance (a : α) : Ends n (pure a) (pure a) := ⟨fun _ _ _ => rfl⟩

instance (e : Diagnostic) : Ends n (throw e : Unbounded α) (throw e) := ⟨fun _ _ _ => rfl⟩

/-- One step after another comes to its end if each of them does. -/
theorem ends_bind {u : Unbounded α} {r : Reader α} {f : α → Unbounded β} {g : α → Reader β}
    [Forward r] (hu : Ends n u r) (hf : ∀ a, Ends n (f a) (g a)) : Ends n (u >>= f) (r >>= g) where
  outcome_eq c hc hlen := by
    refine outcome?_bind_eq (hu.outcome_eq c hc hlen) fun a d hd => ?_
    have hl := Forward.leadsTo hd
    exact (hf a).outcome_eq d (hc.of_leadsTo hl) (Nat.le_trans hl.pending.length_le hlen)

instance (priority := low) {u : Unbounded α} {r : Reader α} {f : α → Unbounded β} {g : α → Reader β}
    [Forward r] [hu : Ends n u r] [hf : ∀ a, Ends n (f a) (g a)] : Ends n (u >>= f) (r >>= g) :=
  ends_bind hu hf

/-- What follows on the next token has one token fewer before it. -/
instance {f : Unit → Unbounded β} {g : Unit → Reader β} [hf : Ends n (f ()) (g ())] :
    Ends (n + 1) (Goal.once advance >>= f) (advance >>= g) where
  outcome_eq c hc hlen := by
    refine hf.outcome_eq c.next hc.next ?_
    rw [Cursor.length_pending_next]
    omega

instance {kind : Kind} {f : Unit → Unbounded β} {g : Unit → Reader β} [hf : Ends n (f ()) (g ())] :
    Ends (n + 1) (Goal.once (expect kind) >>= f) (expect kind >>= g) where
  outcome_eq c hc hlen := by
    refine outcome?_bind_eq rfl fun a d hd => ?_
    rw [outcome_expect] at hd
    split at hd <;> cases hd
    refine hf.outcome_eq _ hc.next ?_
    rw [Cursor.length_pending_next]
    omega

instance {p : Prop} [Decidable p] {u v : Unbounded α} {r s : Reader α} [hu : Ends n u r]
    [hv : Ends n v s] : Ends n (if p then u else v) (if p then r else s) := by
  split
  · exact hu
  · exact hv

/-- A loop of the bounded reader has as many rounds as there are tokens left; something can follow it. -/
instance {u : Unbounded α} {r : Nat → Reader α} {f : α → Unbounded β} {g : α → Reader β}
    [∀ bound, Forward (r bound)] [hu : Ends n u (remaining >>= r)] [hf : ∀ a, Ends n (f a) (g a)] :
    Ends n (u >>= f) (remaining >>= fun bound => r bound >>= g) where
  outcome_eq c hc hlen := by
    have h : Ends n (u >>= f) ((remaining >>= r) >>= g) := inferInstance
    rw [h.outcome_eq c hc hlen, bind_assoc]

end Steps

section Lists

variable {n : Nat} {i : Item} {item : Reader i.Result} [Forward item]
  [hitem : Ends n (Goal.item i).read item]

/-- At the end of the stream there is no further item. -/
theorem outcome?_furtherItems (bound : Nat) {c : Cursor} (hc : c.Proper) (hlen : c.pending.length ≤ n)
    (hbound : c.pending.length ≤ bound) :
    outcome? (Goal.furtherItems i).read c = some (outcome (furtherItems item bound) c) := by
  induction bound generalizing c with
  | zero =>
    obtain ⟨_, _, _, rfl⟩ := hc.eq_of_length_le_zero hbound
    rw [Goal.read]
    rfl
  | succ bound ih =>
    rw [Goal.read, furtherItems]
    refine outcome?_bind_eq rfl ?_
    rintro seen _ ⟨⟩
    split
    · have hshort : c.next.next.pending.length ≤ c.pending.length - 1 := by
        rw [Cursor.length_pending_next, Cursor.length_pending_next]
        omega
      refine outcome?_bind_eq rfl ?_
      rintro _ _ ⟨⟩
      refine outcome?_bind_eq rfl ?_
      rintro _ _ ⟨⟩
      refine outcome?_bind_eq (hitem.outcome_eq c.next.next hc.next.next (by omega)) fun first d hd => ?_
      have hl := Forward.leadsTo hd
      have hd' : d.pending.length ≤ c.next.next.pending.length := hl.pending.length_le
      refine outcome?_bind_eq (ih (hc.next.next.of_leadsTo hl) (by omega) (by omega)) ?_
      intro _ _ _
      rfl
    · rfl

instance : Ends n (Goal.furtherItems i).read (remaining >>= furtherItems item) :=
  ⟨fun _ hc hlen => outcome?_furtherItems _ hc hlen (Nat.le_refl _)⟩

/-- The items of a list stand behind its opening token. -/
theorem ends_items (close : Symbol) : Ends (n + 1) (Goal.items close i).read (items close item) := by
  rw [Goal.read]
  unfold items
  infer_instance

end Lists

section Inner

variable {n : Nat} {inner : Inner} [∀ p, Forward (inner p)]
  [hinner : ∀ p, Ends n (Goal.expression p).read (inner p)]

omit hinner [∀ p, Forward (inner p)] in
instance : Ends n (Goal.item .name).read currentName := by
  rw [Goal.read]
  infer_instance

instance : Ends n (Goal.item .expression).read (inner .lowest) := by
  rw [Goal.read]
  infer_instance

instance : Ends n (Goal.item .pair).read (keyed inner) := by
  rw [Goal.read]
  unfold keyed
  infer_instance

instance (close : Symbol) :
    Ends (n + 1) (Goal.items close .expression).read (items close (inner .lowest)) := ends_items close

instance (close : Symbol) : Ends (n + 1) (Goal.items close .pair).read (items close (keyed inner)) :=
  ends_items close

omit hinner [∀ p, Forward (inner p)] in
/-- A list of parameters contains no expressions. -/
instance (close : Symbol) : Ends n (Goal.items close .name).read (items close currentName) :=
  (ends_items close).of_le (Nat.le_succ n)

instance : Ends n Goal.statement.read (statement inner) := by
  rw [Goal.read]
  unfold statement define leave bare
  refine ends_bind inferInstance fun t => ?_
  generalize t.value = v
  cases v with
  | keyword k =>
    cases k with
    | letWord =>
      -- The two steps up to the name by hand: all five at once are too many for one search.
      refine ends_bind inferInstance fun _ => ends_bind inferInstance fun _ => ?_
      infer_instance
    | _ => infer_instance
  | _ => infer_instance

instance : Ends n Goal.recorded.read (liftM (noting (statement inner))) where
  outcome_eq c hc hlen := by
    have hs : Ends n Goal.statement.read (statement inner) := inferInstance
    have ho := hs.outcome_eq c hc hlen
    rw [Goal.read, outcome_lift, outcome_noting]
    unfold outcome? ExceptT.run at ho ⊢
    rw [StateT.run_bind, ho]
    rcases outcome (statement inner) c with ⟨_ | _, _⟩ <;> rfl

/-- A round of a loop over statements, and what follows it, does what the bounded reader does if the rest
of the loop does. -/
theorem outcome?_round {loop : Unbounded Tree} {rest : Reader Tree} {c : Cursor} (hc : c.Proper)
    (hlen : c.pending.length ≤ n) (hne : c.pending ≠ [])
    (hrest : ∀ d : Cursor, d.Proper → d.pending.length < c.pending.length →
      outcome? loop d = some (outcome rest d)) :
    outcome? (do
        let first ← Goal.recorded.read
        Goal.once advance
        let others ← loop
        return first.toList ++ others) c =
      some (outcome (do
        let first ← liftM (noting (statement inner))
        advance
        let others ← rest
        return first.toList ++ others) c) := by
  have hrecorded : Ends n Goal.recorded.read (liftM (noting (statement inner))) := inferInstance
  refine outcome?_bind_eq (hrecorded.outcome_eq c hc hlen) fun first d hd => ?_
  have hl := Forward.leadsTo hd
  refine outcome?_bind_eq rfl ?_
  rintro _ _ ⟨⟩
  refine outcome?_bind_eq (hrest d.next (hc.of_leadsTo (hl.trans d.leadsTo_next)) ?_) ?_
  · have hshort : d.pending.length ≤ c.pending.length := hl.pending.length_le
    have hpos := List.length_pos_iff.2 hne
    rw [Cursor.length_pending_next]
    omega
  · intro _ _ _
    rfl

/-- Statements are read to the end of the block, or to that of the stream, which is reported. -/
theorem outcome?_blockItems (bound : Nat) {c : Cursor} (hc : c.Proper) (hlen : c.pending.length ≤ n)
    (hbound : c.pending.length ≤ bound) :
    outcome? Goal.blockItems.read c = some (outcome (blockItems inner bound) c) := by
  induction bound generalizing c with
  | zero =>
    obtain ⟨_, _, _, rfl⟩ := hc.eq_of_length_le_zero hbound
    rw [Goal.read]
    rfl
  | succ bound ih =>
    rw [Goal.read, blockItems]
    refine outcome?_bind_eq rfl ?_
    rintro _ _ ⟨⟩
    split
    · rfl
    split
    · rfl
    · next hfinish =>
      refine outcome?_round hc hlen (mt hc.current_eq_finish_iff.2 hfinish) fun d hd hshort => ?_
      exact ih hd (by omega) (by omega)

instance : Ends n Goal.blockItems.read (remaining >>= blockItems inner) :=
  ⟨fun _ hc hlen => outcome?_blockItems _ hc hlen (Nat.le_refl _)⟩

instance : Ends n Goal.block.read (block inner) := by
  rw [Goal.read]
  unfold block
  infer_instance

instance : Ends n Goal.otherwise.read (otherwise inner) := by
  rw [Goal.read]
  unfold otherwise
  infer_instance

instance : Ends (n + 1) Goal.conditional.read (conditional inner) := by
  rw [Goal.read]
  unfold conditional
  refine ends_bind inferInstance fun _ => ?_
  infer_instance

instance : Ends (n + 1) Goal.function.read (function inner) := by
  rw [Goal.read]
  unfold function
  infer_instance

instance : Ends (n + 1) Goal.operand.read (operand inner) := by
  rw [Goal.read]
  unfold operand unary grouped
  refine ends_bind inferInstance fun t => ?_
  generalize t.value = v
  cases v with
  | keyword k => cases k <;> infer_instance
  | symbol s => cases s <;> infer_instance
  | _ => infer_instance

instance (left : Expr Unit) : Ends (n + 1) (Goal.continued left).read (continued inner left) := by
  rw [Goal.read]
  unfold continued
  refine ends_bind inferInstance fun t => ?_
  generalize t.value = v
  cases v with
  | symbol s => cases s <;> infer_instance
  | _ => infer_instance

/-- At the end of the stream nothing goes on with an expression. -/
theorem outcome?_extended (p : Precedence) (bound : Nat) {c : Cursor} (hc : c.Proper)
    (hlen : c.pending.length ≤ n + 1) (hbound : c.pending.length ≤ bound) (left : Expr Unit) :
    outcome? (Goal.extended p left).read c = some (outcome (extended inner p bound left) c) := by
  induction bound generalizing c left with
  | zero =>
    obtain ⟨_, _, _, rfl⟩ := hc.eq_of_length_le_zero hbound
    -- The end of the stream binds least of all.
    have hstop : ¬ p < .ofKind Token.finish.kind := Nat.not_lt_zero _
    rw [Goal.read, outcome?_upcoming_bind]
    exact congrArg (outcome? · _) (if_neg hstop)
  | succ bound ih =>
    have hround : outcome (extended inner p (bound + 1) left) c =
        outcome (if p < .ofKind c.upcoming.value.kind then do
          advance
          extended inner p bound (← continued inner left)
        else pure left) c := rfl
    rw [Goal.read, outcome?_upcoming_bind, hround]
    split
    · refine outcome?_bind_eq rfl ?_
      rintro _ _ ⟨⟩
      have hcontinued : Ends (n + 1) (Goal.continued left).read (continued inner left) := inferInstance
      have hshort := c.length_pending_next
      refine outcome?_bind_eq (hcontinued.outcome_eq c.next hc.next (by omega)) fun longer d hd => ?_
      have hl := Forward.leadsTo hd
      have hd' : d.pending.length ≤ c.next.pending.length := hl.pending.length_le
      exact ih (hc.next.of_leadsTo hl) (by omega) (by omega) longer
    · rfl

instance (p : Precedence) (left : Expr Unit) :
    Ends (n + 1) (Goal.extended p left).read
      (remaining >>= fun bound => extended inner p bound left) :=
  ⟨fun _ hc hlen => outcome?_extended p _ hc hlen (Nat.le_refl _) left⟩

end Inner

/-- Where no token is left, there is no operand, so the depth of nesting is never used up before that. -/
instance ends_expression (depth : Nat) (p : Precedence) :
    Ends depth (Goal.expression p).read (expression depth p) := by
  induction depth generalizing p with
  | zero =>
    refine ⟨fun c hc hlen => ?_⟩
    obtain ⟨_, _, _, rfl⟩ := hc.eq_of_length_le_zero hlen
    rw [Goal.read, Goal.read]
    rfl
  | succ depth ih =>
    rw [Goal.read]
    unfold expression
    infer_instance

/-- Statements are read to the end of the stream in as many rounds as there are tokens, or fewer. -/
theorem outcome?_programItems (bound : Nat) {c : Cursor} (hc : c.Proper)
    (hbound : c.pending.length ≤ bound) :
    outcome? Goal.programItems.read c = some (outcome (liftM (programItems bound)) c) := by
  induction bound generalizing c with
  | zero =>
    obtain ⟨_, _, _, rfl⟩ := hc.eq_of_length_le_zero hbound
    rw [Goal.read]
    rfl
  | succ bound ih =>
    rw [Goal.read, outcome?_current_bind, outcome_programItems_succ]
    split
    · rfl
    · next hfinish =>
      refine outcome?_round hc (Nat.le_refl _) (mt hc.current_eq_finish_iff.2 hfinish)
        fun d hd hshort => ?_
      exact ih hd (by omega)

end Monkey.Reader
