import Monkey.Proofs.Rendering.Meaning

/-!
# What is written is read back

The canonical text of a well-formed tree is read to that tree. Operators and indexing stand in
parentheses, so every expression is written as a call or an atom, and its text means it wherever an
operand can stand.
-/

namespace Monkey

open Grammar

theorem renderExpressions_eq_map (es : List (Expr Unit)) :
    renderExpressions es = es.map Expr.render := by
  induction es with
  | nil => rfl
  | cons e es ih => rw [renderExpressions, ih, List.map_cons]

theorem renderPairs_eq_map (pairs : List (Expr Unit × Expr Unit)) :
    renderPairs pairs = pairs.map fun p => p.1.render ++ ": " ++ p.2.render := by
  induction pairs with
  | nil => rfl
  | cons p pairs ih => rw [renderPairs, ih, List.map_cons]

theorem renderStatements_eq_map (ss : List (Stmt Unit)) :
    renderStatements ss = ss.map Stmt.render := by
  induction ss with
  | nil => rfl
  | cons s ss ih => rw [renderStatements, ih, List.map_cons]

/-- Every binary operator has a stratum, and applied expressions can be its operands. -/
theorem exists_stratum {operator : Token} (h : operator ∈ binaryOperators) :
    ∃ s : Stratum, operator ∈ s.operators ∧ s ≤ .applied ∧ s.tighter ≤ .applied := by
  simp only [binaryOperators, List.mem_cons, List.not_mem_nil, or_false] at h
  rcases h with rfl | rfl | rfl | rfl | rfl | rfl | rfl | rfl
  · exact ⟨.sum, by decide⟩
  · exact ⟨.sum, by decide⟩
  · exact ⟨.product, by decide⟩
  · exact ⟨.product, by decide⟩
  · exact ⟨.equality, by decide⟩
  · exact ⟨.equality, by decide⟩
  · exact ⟨.comparison, by decide⟩
  · exact ⟨.comparison, by decide⟩

/-- Expressions that are written as they mean are listed as they mean. -/
theorem means_renderExpressions {es : List (Expr Unit)} (h : ∀ e ∈ es, Means .applied e.render e) :
    List.Forall₂ (Means .equality) (renderExpressions es) es := by
  rw [renderExpressions_eq_map, List.forall₂_map_left_iff, List.forall₂_same]
  exact fun e he => (h e he).loosest

theorem means_renderPairs {pairs : List (Expr Unit × Expr Unit)}
    (hkeys : ∀ p ∈ pairs, Means .applied p.1.render p.1)
    (hvalues : ∀ p ∈ pairs, Means .applied p.2.render p.2) :
    List.Forall₂ MeansPair (renderPairs pairs) pairs := by
  rw [renderPairs_eq_map, List.forall₂_map_left_iff, List.forall₂_same]
  exact fun p hp => ⟨_, _, rfl, (hkeys p hp).loosest, (hvalues p hp).loosest⟩

/-- Statements are written as they mean if their expressions are. -/
theorem means_renderBlock {block : List (Stmt Unit)} (hnamed : ∀ s ∈ block, s.Named)
    (h : ∀ s ∈ block, Means .applied s.value.render s.value) :
    MeansBlock (renderBlock block) block := by
  refine means_block ?_
  rw [renderStatements_eq_map, List.forall₂_map_left_iff, List.forall₂_same]
  intro s hs
  have hvalue := (h s hs).loosest
  cases s with
  | define x e => exact means_define (hnamed _ hs) hvalue
  | leave e => exact means_leave hvalue
  | expression e => exact means_expression hvalue

/-- The canonical text of a well-formed expression means it wherever an operand can stand. -/
theorem means_render {e : Expr Unit} (h : e.WellFormed) : Means .applied e.render e := by
  have hatom {text : String} {e : Expr Unit} (h : Means .atom text e) : Means .applied text e :=
    h.looser (by decide)
  induction h with
  | name h => exact hatom (means_name h)
  | integer h => exact hatom (means_integer h)
  | boolean value => exact hatom (means_boolean value)
  | string h => exact hatom (means_string h)
  | unary hop _ ih =>
    have hgrouped := (Means.unary hop (ih.looser (by decide))).loosest.grouped
    rw [← String.append_assoc] at hgrouped
    exact hatom hgrouped
  | binary hop _ _ ihl ihr =>
    obtain ⟨s, hmem, hs, htighter⟩ := exists_stratum hop
    have hgrouped := (Means.binary hmem (ihl.looser hs) (ihr.looser htighter)).loosest.grouped
    simp only [← String.append_assoc] at hgrouped
    exact hatom hgrouped
  | @conditional e chosen other _ hchosenNamed _ hotherNamed _ ih ihc iho =>
    have hother : MeansOtherwise (renderOtherwise other) other := by
      cases other with
      | none => exact means_no_otherwise
      | some block => exact means_otherwise (means_renderBlock (hotherNamed block rfl) (iho block rfl))
    exact hatom (means_conditional ih.loosest (means_renderBlock hchosenNamed ihc) hother)
  | function _ hnames hnamed _ ih =>
    exact hatom (means_function hnames (means_renderBlock hnamed ih).braced)
  | call _ _ ih ihs => exact ih.call (means_renderExpressions ihs)
  | array _ ih => exact hatom (means_array (means_renderExpressions ih))
  | index _ _ ih ihi =>
    have hgrouped := (ih.index ihi.loosest).loosest.grouped
    simp only [← String.append_assoc] at hgrouped
    have hclose : "])" = "]" ++ ")" := rfl
    rw [Expr.render, hclose, ← String.append_assoc]
    exact hatom hgrouped
  | hash _ _ ihk ihv => exact hatom (means_hash (means_renderPairs ihk ihv))

/-- The text of a well-formed program is read to that program. -/
theorem parse_renderBlock_of_wellFormed {tree : Tree} (h : WellFormed tree) :
    parse (renderBlock tree) = .ok tree :=
  (means_renderBlock h.named fun s hs => means_render (h.values s hs)).parse

/-- Exactly the well-formed programs are read from some text, and each of them is read from the text
that it is written as; so what is read from any text is what is read from its canonical form. -/
theorem parse_renderBlock_iff :
    (∀ source tree, parse source = .ok tree → WellFormed tree) ∧
      (∀ tree, WellFormed tree → parse (renderBlock tree) = .ok tree) ∧
      ∀ source tree, parse source = .ok tree →
        ∃ again, parse (renderBlock tree) = .ok again ∧ again = tree ∧
          renderBlock again = renderBlock tree :=
  ⟨fun _ _ => wellFormed_of_parse, fun _ => parse_renderBlock_of_wellFormed, fun _ tree h =>
    ⟨tree, parse_renderBlock_of_wellFormed (wellFormed_of_parse h), rfl, rfl⟩⟩

/-- A definition whose value is a call of a function literal on the spot is read back. -/
theorem parse_renderBlock_call :
    let tree : Tree := [.define "x" (.call (.function () ["y"] [.leave (.name "y")]) [.integer 2])]
    WellFormed tree ∧ parse "let x = fn(y) \x7b return y \x7d(2)" = .ok tree := by
  intro tree
  have hx : IsName "x" := isName_of_small (by decide) (by simp) fun k => by cases k <;> decide
  have hy : IsName "y" := isName_of_small (by decide) (by simp) fun k => by cases k <;> decide
  have hbody : Expr.WellFormed (.function () ["y"] [.leave (.name "y")]) :=
    .function () (List.forall_mem_singleton.2 hy) (List.forall_mem_singleton.2 trivial)
      (List.forall_mem_singleton.2 (.name hy))
  have hcall : Expr.WellFormed (.call (.function () ["y"] [.leave (.name "y")]) [.integer 2]) :=
    .call hbody (List.forall_mem_singleton.2 (.integer (by decide)))
  have h : WellFormed tree :=
    ⟨List.forall_mem_singleton.2 hx, List.forall_mem_singleton.2 hcall⟩
  exact ⟨h, parse_renderBlock_iff.2.1 tree h⟩

end Monkey
