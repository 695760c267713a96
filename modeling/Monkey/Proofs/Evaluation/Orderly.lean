import Monkey.Proofs.Evaluation.Lasting

/-!
# What evaluation keeps in order

Whatever the program, a hash has its entries under the keys of their key values. In a program that has been
read, texts hold no quote, names and bodies of functions can be written, and operators are those of the
language. All that stays so while the program is evaluated: texts come from literals, and syntax comes from
the program or from the body of a function, which has been part of a program that was read.
-/

namespace Monkey

/-- Parts of a well-formed expression are well-formed. -/
theorem Expr.WellFormed.children {e : Expr Site} (h : e.WellFormed) :
    ∀ d ∈ e.children, d.WellFormed := by
  cases h with
  | name h => exact List.forall_mem_nil _
  | integer h => exact List.forall_mem_nil _
  | boolean b => exact List.forall_mem_nil _
  | string h => exact List.forall_mem_nil _
  | unary mem operand => exact List.forall_mem_singleton.2 operand
  | binary mem left right => exact List.forall_mem_cons.2 ⟨left, List.forall_mem_singleton.2 right⟩
  | @conditional e chosen other test _ chosenValues _ otherValues =>
    refine List.forall_mem_cons.2 ⟨test, List.forall_mem_append.2
      ⟨List.forall_mem_map.2 chosenValues, List.forall_mem_map.2 ?_⟩⟩
    cases other with
    | none => exact List.forall_mem_nil _
    | some block => exact otherValues block rfl
  | function site names bodyNamed bodyValues => exact List.forall_mem_map.2 bodyValues
  | call callee items => exact List.forall_mem_cons.2 ⟨callee, items⟩
  | array items => exact items
  | index collection position =>
    exact List.forall_mem_cons.2 ⟨collection, List.forall_mem_singleton.2 position⟩
  | hash keys values =>
    intro d hd
    obtain ⟨p, hp, hd⟩ := List.mem_flatMap.1 hd
    rcases List.mem_cons.1 hd with rfl | hd
    · exact keys p hp
    · exact List.mem_singleton.1 hd ▸ values p hp

namespace Value

/-- A hash has its entries under the keys of their key values, and in the order of these. -/
def WellFiled : Value → Prop
  | hash _ entries => Table.Ascending entries ∧ ∀ e ∈ entries, e.2.1.key? = some e.1
  | _ => True

/-- Texts hold no quote, and functions have names and bodies that can be written. -/
def Writable : Value → Prop
  | string text => '"' ∉ text.toList
  | function _ f => (∀ x ∈ f.parameters, IsName x) ∧ WellFormed f.body
  | _ => True

/-- What makes sure that a value is printed so that it can be read. -/
def Orderly (v : Value) : Prop := v.WellFiled ∧ v.Writable

end Value

/-- Hashes stay well filed, whatever the program. -/
theorem lasting_wellFiled :
    Lasting (fun _ => Value.WellFiled) (fun _ _ => True) fun _ => True where
  plain n v htype := by
    cases v with
    | hash identity entries => simp [Value.type] at htype
    | _ => trivial
  joined n s t hs ht := trivial
  string n text h := trivial
  function n identity site parameters body scope h _ := trivial
  closure n identity f h s hs := trivial
  empty n identity := ⟨.nil, List.forall_mem_nil _⟩
  insert n identity table key k v h hkey := by
    refine ⟨Table.ascending_insert key (k, v) h.1, fun e he => ?_⟩
    rcases Table.mem_insert_key he with rfl | he
    · exact hkey
    · exact h.2 e he
  renewed n identity other table h := h
  later m n v h hle := h
  admitted m n scope h hle := trivial
  opened n := trivial
  parts e h d hd := trivial

/-- Texts and functions stay such that they can be written. -/
theorem lasting_writable :
    Lasting (fun _ => Value.Writable) (fun _ _ => True) Expr.WellFormed where
  plain n v htype := by
    cases v with
    | string text => simp [Value.type] at htype
    | function identity f => simp [Value.type] at htype
    | _ => trivial
  joined n s t hs ht := by
    have hjoined : '"' ∉ (s ++ t).toList := by
      rw [String.toList_append, List.mem_append]
      exact fun h => h.elim hs ht
    exact hjoined
  string n text h := by
    cases h with
    | string h => exact h
  function n identity site parameters body scope h _ := by
    cases h with
    | function _ names bodyNamed bodyValues => exact ⟨names, bodyNamed, bodyValues⟩
  closure n identity f h := h.2.values
  empty n identity := trivial
  insert n identity table key k v h hkey := trivial
  renewed n identity other table h := trivial
  later m n v h hle := h
  admitted m n scope h hle := trivial
  opened n := trivial
  parts e h := h.children

/-- Values stay in order. -/
theorem lasting_orderly :
    Lasting (fun _ => Value.Orderly) (fun _ _ => True) Expr.WellFormed :=
  lasting_wellFiled.and lasting_writable fun _ _ => trivial

/-! ## Operators -/

/-- The operator of an operation is one of the language. -/
def Operation.OperatorKnown : Operation → Prop
  | unary operator _ => operator ∈ Grammar.unaryOperators
  | binary _ operator _ => operator ∈ binaryOperators
  | _ => True

/-- The operator that a task comes to after what it begins with is one of the language. -/
def Task.OperatorKnown : Task → Prop
  | right _ _ operator _ => operator ∈ binaryOperators
  | operate o => o.OperatorKnown
  | _ => True

/-- The operator that a frame keeps is one of the language. -/
def Frame.OperatorKnown : Frame → Prop
  | unary operator => operator ∈ Grammar.unaryOperators
  | left _ operator _ => operator ∈ binaryOperators
  | right _ operator => operator ∈ binaryOperators
  | _ => True

/-- However a task goes on, operators are those of the language. -/
def Move.OperatorKnown : Move → Prop
  | done _ _ => True
  | become t _ => t.OperatorKnown
  | await t f => t.OperatorKnown ∧ f.OperatorKnown
  | enter t _ => t.OperatorKnown

theorem Frame.OperatorKnown.next {f : Frame} (h : f.OperatorKnown) (v : Value) :
    (f.next v).OperatorKnown := by
  cases f with
  | unary operator => exact h
  | left scope operator e => exact h
  | right l operator => exact h
  | _ => trivial

/-- The operators in a well-formed expression are those of the language. -/
theorem Move.operatorKnown_expression (w : World) (scope : ScopeId) {e : Expr Site}
    (he : e.WellFormed) : (expression w scope e).OperatorKnown := by
  cases he with
  | unary mem operand => exact ⟨trivial, mem⟩
  | binary mem left right => exact ⟨trivial, mem⟩
  | _ => trivial

theorem Operation.operatorKnown_begin (o : Operation) (w : World) : (o.begin w).OperatorKnown := by
  cases o with
  | branch scope test chosen other =>
    rcases begin_branch scope test chosen other w with hbegin | ⟨block, -, hbegin⟩
    · rw [hbegin]
      trivial
    · rw [hbegin]
      trivial
  | call callee arguments =>
    cases callee with
    | function identity f =>
      rw [begin]
      split <;> trivial
    | _ => trivial
  | file scope table key value pairs =>
    rw [begin]
    split <;> trivial
  | _ => trivial

/-- A task with well-formed expressions goes on with operators of the language. -/
theorem Task.OperatorKnown.begin {t : Task} (h : t.OperatorKnown)
    (hcode : ∀ e ∈ t.code, e.WellFormed) {w : World} {m : Move} (move : t.begin w = m) :
    m.OperatorKnown := by
  subst move
  cases t with
  | expression scope e => exact Move.operatorKnown_expression w scope (hcode e List.mem_cons_self)
  | right scope left operator e => exact ⟨trivial, h⟩
  | position scope collection e => trivial
  | arguments scope callee done es => cases es <;> trivial
  | elements scope done es => cases es <;> trivial
  | entries scope table pairs => cases pairs <;> trivial
  | statement scope s => cases s <;> trivial
  | block scope last ss => cases ss <;> trivial
  | operate o => exact o.operatorKnown_begin w

end Monkey
