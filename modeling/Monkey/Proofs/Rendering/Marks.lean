import Monkey.Proofs.Rendering.WellFormed
import Monkey.Syntax.Site

/-!
# Marks and form

Replacing the marks of a tree, as numbering its function literals does, changes nothing about its form:
each part of the new tree is a part of the old one with other marks, and a well-formed tree makes a
well-formed program.
-/

namespace Monkey

variable {μ ν : Type}

theorem mem_remarkExpressions {f : List Nat → μ → ν} {path : List Nat} {position : Nat}
    {es : List (Expr μ)} {x : Expr ν} (h : x ∈ remarkExpressions f path position es) :
    ∃ e ∈ es, ∃ p, x = e.remark f p := by
  induction es generalizing position with
  | nil => simp [remarkExpressions] at h
  | cons e es ih =>
    rw [remarkExpressions] at h
    rcases List.mem_cons.1 h with rfl | h
    · exact ⟨e, List.mem_cons_self, _, rfl⟩
    · obtain ⟨d, hd, hx⟩ := ih h
      exact ⟨d, List.mem_cons_of_mem e hd, hx⟩

theorem mem_remarkPairs {f : List Nat → μ → ν} {path : List Nat} {position : Nat}
    {pairs : List (Expr μ × Expr μ)} {x : Expr ν × Expr ν}
    (h : x ∈ remarkPairs f path position pairs) :
    ∃ pair ∈ pairs, ∃ p q, x = (pair.1.remark f p, pair.2.remark f q) := by
  induction pairs generalizing position with
  | nil => simp [remarkPairs] at h
  | cons pair pairs ih =>
    rw [remarkPairs] at h
    rcases List.mem_cons.1 h with rfl | h
    · exact ⟨pair, List.mem_cons_self, _, _, rfl⟩
    · obtain ⟨other, hother, hx⟩ := ih h
      exact ⟨other, List.mem_cons_of_mem pair hother, hx⟩

theorem mem_remarkBlock {f : List Nat → μ → ν} {path : List Nat} {position : Nat}
    {ss : List (Stmt μ)} {x : Stmt ν} (h : x ∈ remarkBlock f path position ss) :
    ∃ s ∈ ss, ∃ p, x = s.remark f p := by
  induction ss generalizing position with
  | nil => simp [remarkBlock] at h
  | cons s ss ih =>
    rw [remarkBlock] at h
    rcases List.mem_cons.1 h with rfl | h
    · exact ⟨s, List.mem_cons_self, _, rfl⟩
    · obtain ⟨other, hother, hx⟩ := ih h
      exact ⟨other, List.mem_cons_of_mem s hother, hx⟩

theorem Stmt.value_remark (f : List Nat → μ → ν) (path : List Nat) (s : Stmt μ) :
    (s.remark f path).value = s.value.remark f (0 :: path) := by
  cases s <;> rw [remark] <;> rfl

theorem Stmt.Named.remark {s : Stmt μ} (h : s.Named) (f : List Nat → μ → ν) (path : List Nat) :
    (s.remark f path).Named := by
  cases s <;> rw [Stmt.remark] <;> exact h

theorem named_remarkBlock {f : List Nat → μ → ν} {path : List Nat} {position : Nat}
    {ss : List (Stmt μ)} (h : ∀ s ∈ ss, s.Named) :
    ∀ s ∈ remarkBlock f path position ss, s.Named := by
  intro x hx
  obtain ⟨s, hs, p, rfl⟩ := mem_remarkBlock hx
  exact (h s hs).remark f p

/-- An expression stays well-formed when its marks are replaced. -/
theorem Expr.WellFormed.remark {e : Expr μ} (h : e.WellFormed) (f : List Nat → μ → ν)
    (path : List Nat) : (e.remark f path).WellFormed := by
  -- Blocks stand in conditionals and in functions.
  have hblock : ∀ {path position} {ss : List (Stmt μ)},
      (∀ s ∈ ss, ∀ p, (s.value.remark f p).WellFormed) →
        ∀ s ∈ remarkBlock f path position ss, s.value.WellFormed := by
    intro path position ss hss x hx
    obtain ⟨s, hs, p, rfl⟩ := mem_remarkBlock hx
    rw [Stmt.value_remark]
    exact hss s hs _
  induction h generalizing path with
  | name h =>
    rw [Expr.remark]
    exact .name h
  | integer h =>
    rw [Expr.remark]
    exact .integer h
  | boolean value =>
    rw [Expr.remark]
    exact .boolean value
  | string h =>
    rw [Expr.remark]
    exact .string h
  | unary mem _ ih =>
    rw [Expr.remark]
    exact .unary mem (ih _)
  | binary mem _ _ ihl ihr =>
    rw [Expr.remark]
    exact .binary mem (ihl _) (ihr _)
  | @conditional e chosen other _ chosenNamed _ otherNamed _ ih ihc iho =>
    rw [Expr.remark]
    cases other with
    | none =>
      rw [remarkOtherwise]
      exact .conditional (ih _) (named_remarkBlock chosenNamed) (hblock ihc) (by simp) (by simp)
    | some block =>
      rw [remarkOtherwise]
      refine .conditional (ih _) (named_remarkBlock chosenNamed) (hblock ihc) ?_ ?_
      · rintro _ ⟨⟩
        exact named_remarkBlock (otherNamed block rfl)
      · rintro _ ⟨⟩
        exact hblock (iho block rfl)
  | function mark names bodyNamed _ ih =>
    rw [Expr.remark]
    exact .function _ names (named_remarkBlock bodyNamed) (hblock ih)
  | call _ _ ih ihs =>
    rw [Expr.remark]
    refine .call (ih _) fun x hx => ?_
    obtain ⟨a, ha, p, rfl⟩ := mem_remarkExpressions hx
    exact ihs a ha p
  | array _ ihs =>
    rw [Expr.remark]
    refine .array fun x hx => ?_
    obtain ⟨a, ha, p, rfl⟩ := mem_remarkExpressions hx
    exact ihs a ha p
  | index _ _ ihc ihp =>
    rw [Expr.remark]
    exact .index (ihc _) (ihp _)
  | hash _ _ ihk ihv =>
    rw [Expr.remark]
    refine .hash (fun x hx => ?_) fun x hx => ?_
    · obtain ⟨pair, hpair, p, q, rfl⟩ := mem_remarkPairs hx
      exact ihk pair hpair p
    · obtain ⟨pair, hpair, p, q, rfl⟩ := mem_remarkPairs hx
      exact ihv pair hpair q

/-- A well-formed tree is a well-formed program. -/
theorem WellFormed.place {tree : List (Stmt μ)} (h : WellFormed tree) (program : Nat) :
    WellFormed (Monkey.place program tree) where
  named := named_remarkBlock h.named
  values x hx := by
    obtain ⟨s, hs, p, rfl⟩ := mem_remarkBlock hx
    rw [Stmt.value_remark]
    exact (h.values s hs).remark _ _

end Monkey
