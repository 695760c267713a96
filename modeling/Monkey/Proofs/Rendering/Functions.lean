import Monkey.Proofs.Rendering.Marks
import Monkey.Proofs.Rendering.RoundTrip
import Monkey.Value.Render

/-!
# Functions as they are printed

A function is printed as a literal, its body on lines of its own. The text does not depend on where
the function was made, and it is read back to a literal with the same parameters and the same body.
-/

namespace Monkey

variable {μ ν : Type}

theorem renderExpressions_remark {f : List Nat → μ → ν} {es : List (Expr μ)}
    (h : ∀ e ∈ es, ∀ path, (e.remark f path).render = e.render) (path : List Nat) (position : Nat) :
    renderExpressions (remarkExpressions f path position es) = renderExpressions es := by
  induction es generalizing position with
  | nil => rfl
  | cons e es ih =>
    rw [List.forall_mem_cons] at h
    rw [remarkExpressions, renderExpressions, renderExpressions, h.1, ih h.2]

theorem renderPairs_remark {f : List Nat → μ → ν} {pairs : List (Expr μ × Expr μ)}
    (hkeys : ∀ p ∈ pairs, ∀ path, (p.1.remark f path).render = p.1.render)
    (hvalues : ∀ p ∈ pairs, ∀ path, (p.2.remark f path).render = p.2.render) (path : List Nat)
    (position : Nat) :
    renderPairs (remarkPairs f path position pairs) = renderPairs pairs := by
  induction pairs generalizing position with
  | nil => rfl
  | cons p pairs ih =>
    rw [List.forall_mem_cons] at hkeys hvalues
    rw [remarkPairs, renderPairs, renderPairs, hkeys.1, hvalues.1, ih hkeys.2 hvalues.2]

theorem Stmt.render_remark {f : List Nat → μ → ν} {s : Stmt μ}
    (h : ∀ path, (s.value.remark f path).render = s.value.render) (path : List Nat) :
    (s.remark f path).render = s.render := by
  cases s with
  | define name value =>
    rw [remark, render, render]
    exact congrArg _ (h (0 :: path))
  | leave value =>
    rw [remark, render, render]
    exact congrArg _ (h (0 :: path))
  | expression value =>
    rw [remark, render, render]
    exact h (0 :: path)

theorem renderStatements_remark {f : List Nat → μ → ν} {ss : List (Stmt μ)}
    (h : ∀ s ∈ ss, ∀ path, (s.value.remark f path).render = s.value.render) (path : List Nat)
    (position : Nat) :
    renderStatements (remarkBlock f path position ss) = renderStatements ss := by
  induction ss generalizing position with
  | nil => rfl
  | cons s ss ih =>
    rw [List.forall_mem_cons] at h
    rw [remarkBlock, renderStatements, renderStatements, Stmt.render_remark h.1, ih h.2]

/-- Marks do not show in a text. -/
theorem Expr.WellFormed.render_remark {e : Expr μ} (h : e.WellFormed) (f : List Nat → μ → ν)
    (path : List Nat) : (e.remark f path).render = e.render := by
  induction h generalizing path with
  | name _ => rw [Expr.remark, Expr.render, Expr.render]
  | integer _ => rw [Expr.remark, Expr.render, Expr.render]
  | boolean _ => rw [Expr.remark, Expr.render, Expr.render]
  | string _ => rw [Expr.remark, Expr.render, Expr.render]
  | unary _ _ ih => rw [Expr.remark, Expr.render, Expr.render, ih]
  | binary _ _ _ ihl ihr => rw [Expr.remark, Expr.render, Expr.render, ihl, ihr]
  | @conditional e chosen other _ _ _ _ _ ih ihc iho =>
    have hother : renderOtherwise (remarkOtherwise f (2 :: path) other) = renderOtherwise other := by
      cases other with
      | none => rfl
      | some block =>
        rw [remarkOtherwise, renderOtherwise, renderOtherwise,
          renderStatements_remark (iho block rfl)]
    rw [Expr.remark, Expr.render, Expr.render, ih, renderStatements_remark ihc, hother]
  | function _ _ _ _ ih =>
    rw [Expr.remark, Expr.render, Expr.render, renderStatements_remark ih]
  | call _ _ ih ihs =>
    rw [Expr.remark, Expr.render, Expr.render, ih, renderExpressions_remark ihs]
  | array _ ihs => rw [Expr.remark, Expr.render, Expr.render, renderExpressions_remark ihs]
  | index _ _ ihc ihp => rw [Expr.remark, Expr.render, Expr.render, ihc, ihp]
  | hash _ _ ihk ihv => rw [Expr.remark, Expr.render, Expr.render, renderPairs_remark ihk ihv]

/-- Forgetting the marks of a program does not change its text. -/
theorem renderBlock_erase {body : List (Stmt μ)} (h : WellFormed body) :
    renderBlock (erase body) = renderBlock body := by
  have hvalues : ∀ s ∈ body, ∀ path,
      (s.value.remark (fun _ _ => ()) path).render = s.value.render :=
    fun s hs => (h.values s hs).render_remark _
  rw [renderBlock, renderBlock, erase, renderStatements_remark hvalues]

/-- A program is well-formed without its marks too. -/
theorem WellFormed.erase {body : List (Stmt μ)} (h : WellFormed body) :
    WellFormed (Monkey.erase body) where
  named := named_remarkBlock h.named
  values x hx := by
    obtain ⟨s, hs, p, rfl⟩ := mem_remarkBlock hx
    rw [Stmt.value_remark]
    exact (h.values s hs).remark _ _

/-- A block can stand on lines of its own in its braces. -/
theorem MeansBlock.onLines {text : String} {block : List (Stmt Unit)} (h : MeansBlock text block) :
    MeansBraced ("\x7b\n" ++ text ++ "\n\x7d") block := by
  obtain ⟨lines, hlines, hblock, hspelled⟩ := h
  refine ⟨lines, hlines, hblock, fun rest => ?_⟩
  simp only [Grammar.blockTokens, String.toList_append, String.reduceToList, List.append_assoc,
    List.cons_append, List.nil_append]
  rw [lexed_symbol (s := .leftBrace) rfl, lexed_blank (by decide), hspelled _ (.cons (by decide) _),
    lexed_blank (by decide), lexed_symbol (s := .rightBrace) rfl]

/-- What is printed of a function is a literal of the same function. -/
theorem means_closure {f : Closure} (hnames : ∀ x ∈ f.parameters, IsName x)
    (hbody : WellFormed f.body) :
    Means .atom f.render (.function () f.parameters (erase f.body)) := by
  have hblock : MeansBlock (renderBlock f.body) (erase f.body) := by
    rw [← renderBlock_erase hbody]
    exact means_renderBlock hbody.erase.named fun s hs => means_render (hbody.erase.values s hs)
  have hfunction := means_function hnames hblock.onLines
  have htext : f.render =
      "fn(" ++ renderNames f.parameters ++ ") " ++ ("\x7b\n" ++ renderBlock f.body ++ "\n\x7d") := by
    have hopening : ") \x7b\n" = ") " ++ "\x7b\n" := rfl
    simp only [Closure.render, hopening, String.append_assoc]
  rw [htext]
  exact hfunction

end Monkey
