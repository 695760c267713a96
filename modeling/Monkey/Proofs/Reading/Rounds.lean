import Monkey.Proofs.Grammar.Program
import Monkey.Proofs.Reading.Thrift
import Monkey.Proofs.Reading.Tiling
import Monkey.Proofs.Reading.Unbounded

/-!
# Every text is read in finitely many rounds

Without any bound on its loops and on the nesting of its expressions, the reader comes to the end of every
text, and there are never more than two tokens taken for each one of the text. What makes it so is that
every round of a loop over statements goes past a token, whatever becomes of the statement.
-/

namespace Monkey

namespace Reader

variable {c d : Cursor}

/-- A round of a loop over statements, from one cursor to the token after another: a statement is read up
to there, or what is wrong with it is noted, and the loop goes on behind it. -/
structure Round (loop : Unbounded Tree) (c : Cursor) (first : Option (Stmt Unit)) (d : Cursor) :
    Prop where
  /-- The statement, if there is one. -/
  recorded : outcome? Goal.recorded.read c = some (.ok first, d)
  /-- The cursor only goes forward. -/
  forward : c.LeadsTo d.next
  /-- At least one token is behind the cursor. -/
  fewer : d.next.pending.length < c.pending.length
  /-- What the loop gives is what it gives from there, with the statement before it. -/
  rest : outcome? loop c = (outcome? loop d.next).map (Prod.map (Except.map (first.toList ++ ·)) id)

/-- A loop that reads a statement before it goes on makes a round. -/
theorem exists_round {loop : Unbounded Tree} (hc : c.Proper) (hne : c.current.value ≠ .finish)
    (hloop : outcome? loop c = outcome? (do
      let first ← Goal.recorded.read
      Goal.once advance
      let others ← loop
      return first.toList ++ others) c) : ∃ first d, Round loop c first d := by
  obtain ⟨first, d, ho, hforward, -, hfewer⟩ :=
    worth_round_le (r := statement (expression c.pending.length)) hc (hc.pending_ne_nil rfl hne)
  have hends : Ends c.pending.length Goal.recorded.read
      (liftM (noting (statement (expression c.pending.length)))) := inferInstance
  have hrecorded := hends.outcome_eq c hc (Nat.le_refl _)
  rw [ho] at hrecorded
  refine ⟨first, d, hrecorded, hforward, hfewer, ?_⟩
  rw [hloop, outcome?_bind, hrecorded, Option.bind_some]
  change outcome? (loop >>= fun others => pure (first.toList ++ others)) d.next = _
  rw [outcome?_bind]
  rcases outcome? loop d.next with _ | ⟨_ | _, _⟩ <;> rfl

/-- The loop over the statements of a program stops at the end of the stream, and only there. -/
theorem programItems_round (hc : c.Proper) :
    c.current.value = .finish ∧ outcome? Goal.programItems.read c = some (.ok [], c) ∨
      ∃ first d, Round Goal.programItems.read c first d := by
  by_cases h : c.current.value = .finish
  · refine .inl ⟨h, ?_⟩
    rw [Goal.read, outcome?_current_bind, if_pos h]
    rfl
  · refine .inr (exists_round hc h ?_)
    conv_lhs => rw [Goal.read, outcome?_current_bind, if_neg h]

/-- The loop over the statements of a block stops at the closing brace, and it reports the end of the
stream. -/
theorem blockItems_round (hc : c.Proper) :
    c.current.value = .symbol .rightBrace ∧ outcome? Goal.blockItems.read c = some (.ok [], c) ∨
      c.current.value = .finish ∧ outcome? Goal.blockItems.read c =
        some (.error (.expected (.symbol .rightBrace) c.current), c) ∨
      ∃ first d, Round Goal.blockItems.read c first d := by
  by_cases hclose : c.current.value = .symbol .rightBrace
  · refine .inl ⟨hclose, ?_⟩
    rw [Goal.read, outcome?_current_bind, if_pos hclose]
    rfl
  by_cases h : c.current.value = .finish
  · refine .inr (.inl ⟨h, ?_⟩)
    rw [Goal.read, outcome?_current_bind, if_neg hclose, if_pos h]
    rfl
  · refine .inr (.inr (exists_round hc h ?_))
    conv_lhs => rw [Goal.read, outcome?_current_bind, if_neg hclose, if_neg h]

end Reader

open Reader

/-- Without bounds, every text is read to its end, and what it is read to is what parsing gives. No more
than two tokens are taken for each one of the text, besides three. Every round of a loop over statements
goes past a token, unless it finds the end. -/
theorem parsing_ends_within_bound (source : String) :
    (∃ tree c, outcome? Goal.programItems.read (.start (TokenStream.ofSource source)) =
        some (.ok tree, c) ∧
      parse source = (if c.noted.isEmpty then .ok tree else .error c.noted.reverse) ∧
      c.taken ≤ 2 * (TokenStream.ofSource source).tokens.length + 3) ∧
    (∀ c : Cursor, c.Proper →
      c.current.value = .finish ∧ outcome? Goal.programItems.read c = some (.ok [], c) ∨
        ∃ first d, Round Goal.programItems.read c first d) ∧
    ∀ c : Cursor, c.Proper →
      c.current.value = .symbol .rightBrace ∧ outcome? Goal.blockItems.read c = some (.ok [], c) ∨
        c.current.value = .finish ∧ outcome? Goal.blockItems.read c =
          some (.error (.expected (.symbol .rightBrace) c.current), c) ∨
        ∃ first d, Round Goal.blockItems.read c first d := by
  have hstart := TokenStream.proper_start source
  refine ⟨⟨_, _, outcome?_programItems _ hstart (Nat.le_refl _), rfl, ?_⟩,
    fun c => programItems_round, fun c => blockItems_round⟩
  exact Nat.le_succ_of_le (taken_program_le hstart)

/-- A list that is not closed, in a block that is not closed either: both are reported at the end, and nine
tokens are taken in all. -/
theorem open_list_in_open_block_ends :
    let s := TokenStream.ofSource "fn()\x7b["
    s.tokens.length = 5 ∧ (program s).2.taken = 9 ∧
      parse "fn()\x7b[" = .error
        [.noOperand ⟨.finish, ⟨6, 6⟩⟩, .expected (.symbol .rightBrace) ⟨.finish, ⟨6, 6⟩⟩] ∧
      (∃ tree c, outcome? Goal.programItems.read (.start s) = some (.ok tree, c) ∧
        c.taken ≤ 2 * s.tokens.length + 3) ∧
      ∃ first d, Round Goal.programItems.read (.start s) first d := by
  intro s
  have htokens : tokensFrom 0 ['f', 'n', '(', ')', '{', '['] =
      [⟨.keyword .fnWord, ⟨0, 2⟩⟩, ⟨.symbol .leftParen, ⟨2, 3⟩⟩, ⟨.symbol .rightParen, ⟨3, 4⟩⟩,
        ⟨.symbol .leftBrace, ⟨4, 5⟩⟩, ⟨.symbol .leftBracket, ⟨5, 6⟩⟩] := by
    rw [tokensFrom_eq_cons 0 (show ['f', 'n', '(', ')', '{', '['].dropWhile isBlank =
      'f' :: ['n', '(', ')', '{', '['] by decide)]
    change _ :: tokensFrom 2 ['(', ')', '{', '['] = _
    rw [tokensFrom_eq_cons 2 (show ['(', ')', '{', '['].dropWhile isBlank =
      '(' :: [')', '{', '['] by decide)]
    change _ :: _ :: tokensFrom 3 [')', '{', '['] = _
    rw [tokensFrom_eq_cons 3 (show [')', '{', '['].dropWhile isBlank = ')' :: ['{', '['] by decide)]
    change _ :: _ :: _ :: tokensFrom 4 ['{', '['] = _
    rw [tokensFrom_eq_cons 4 (show ['{', '['].dropWhile isBlank = '{' :: ['['] by decide)]
    change _ :: _ :: _ :: _ :: tokensFrom 5 ['['] = _
    rw [tokensFrom_eq_cons 5 (show ['['].dropWhile isBlank = '[' :: [] by decide)]
    change _ :: _ :: _ :: _ :: _ :: tokensFrom 6 [] = _
    rw [tokensFrom_of_nil 6 rfl]
    rfl
  have hstream : s = ⟨_, ⟨.finish, ⟨6, 6⟩⟩⟩ := congrArg (TokenStream.mk · _) htokens
  have refused : parse "fn()\x7b[" = .error
      [.noOperand ⟨.finish, ⟨6, 6⟩⟩, .expected (.symbol .rightBrace) ⟨.finish, ⟨6, 6⟩⟩] := by
    rw [parse, show TokenStream.ofSource "fn()\x7b[" = _ from hstream]
    rfl
  obtain ⟨⟨tree, c, ho, -, htaken⟩, hround, -⟩ := parsing_ends_within_bound "fn()\x7b["
  refine ⟨by rw [hstream]; rfl, by rw [hstream]; rfl, refused, ⟨tree, c, ho, htaken⟩, ?_⟩
  rcases hround (.start s) (TokenStream.proper_start "fn()\x7b[") with ⟨hend, -⟩ | hround
  · rw [hstream] at hend
    cases hend
  · exact hround

end Monkey
