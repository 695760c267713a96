import Mathlib.Data.Set.Subsingleton
import Monkey.Proofs.Grammar.Completeness

/-!
# Accepted texts

A source text is accepted exactly when the grammar derives its tokens, with the tree of the
derivation. The tree that a text is read to is one only, so the grammar is unambiguous on the tokens
of texts.
-/

namespace Monkey

/-- No lexeme is taken for the end of the source. -/
theorem Lexeme.token_first_ne (c : Char) (rest : List Char) : (first c rest).token ≠ .finish := by
  unfold first
  split
  · unfold pair; split <;> simp
  split
  · unfold pair; split <;> simp
  split
  · simp [quoted]
  split
  · simp [run]
  split
  · unfold run Token.ofWord
    split <;> simp
  · unfold Token.ofChar
    split <;> simp

/-- No token before the end of a text is taken for the end. -/
theorem value_ne_finish (place : Nat) (cs : List Char) :
    ∀ t ∈ (tokensFrom place cs).map (·.value), t ≠ .finish := by
  fun_induction tokensFrom place cs with
  | case1 => simp
  | case2 place cs c rest _ lexeme start stop ih =>
    rw [List.map_cons, List.forall_mem_cons]
    exact ⟨Lexeme.token_first_ne c rest, ih⟩

namespace TokenStream

/-- The tokens of a stream before its end, without their places. -/
def values (s : TokenStream) : List Token := s.tokens.map (·.value)

/-- Reading a text begins at a proper cursor. -/
theorem proper_start (source : String) : (Cursor.start (ofSource source)).Proper where
  finish := rfl
  pending := value_ne_finish 0 source.toList

/-- A stream has a tree when all of it is read and nothing is noted. -/
theorem parse_eq_ok_iff_reads (s : TokenStream) (tree : Tree) :
    s.parse = .ok tree ↔
      ∃ d, Reader.Reads (liftM (Reader.programItems s.tokens.length)) (.start s) tree d := by
  have hlift := Reader.outcome_lift (Reader.programItems s.tokens.length) (.start s)
  unfold parse Reader.program
  generalize (Reader.programItems s.tokens.length).run (.start s) = outcome at hlift ⊢
  obtain ⟨read, d⟩ := outcome
  cases hd : d.noted with
  | nil =>
    simp only [hd, List.isEmpty_nil, if_true, Except.ok.injEq]
    constructor
    · rintro rfl
      exact ⟨d, hlift, hd⟩
    · rintro ⟨e, he, -⟩
      rw [hlift] at he
      cases he
      rfl
  | cons x xs =>
    simp only [hd, List.isEmpty_cons, Bool.false_eq_true, if_false, reduceCtorEq, false_iff]
    rintro ⟨e, he, hnoted⟩
    rw [hlift] at he
    cases he
    rw [hd] at hnoted
    cases hnoted

end TokenStream

namespace Grammar

/-- A source text is accepted with a tree exactly when the grammar derives its tokens with it. -/
theorem parse_eq_ok_iff {source : String} {tree : Tree} :
    parse source = .ok tree ↔ Program (TokenStream.ofSource source).values tree := by
  have hc := TokenStream.proper_start source
  rw [parse, TokenStream.parse_eq_ok_iff_reads]
  constructor
  · rintro ⟨d, hd⟩
    obtain ⟨lines, hlines, rfl, hvalues⟩ := programItems_sound hc (Nat.le_refl _) hd
    exact ⟨lines, hlines, hvalues, rfl⟩
  · rintro ⟨lines, hlines, hvalues, rfl⟩
    exact programItems_complete hlines hc (Nat.le_refl _) hvalues

/-- The texts that are accepted, and the trees that they are accepted with, are those of the grammar,
and the grammar gives a text no two trees. -/
theorem parse_iff_program (source : String) :
    (∀ tree, parse source = .ok tree ↔ Program (TokenStream.ofSource source).values tree) ∧
      {tree | Program (TokenStream.ofSource source).values tree}.Subsingleton := by
  refine ⟨fun tree => parse_eq_ok_iff, fun tree htree other hother => ?_⟩
  have h := parse_eq_ok_iff.2 htree
  rw [parse_eq_ok_iff.2 hother] at h
  exact (Except.ok.inj h).symm

end Grammar

end Monkey
