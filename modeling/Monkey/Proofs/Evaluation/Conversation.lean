import Mathlib.Data.List.TakeWhile
import Monkey.Console.Basic
import Monkey.Proofs.Evaluation.Confinement
import Monkey.Proofs.Evaluation.Sequence
import Monkey.Proofs.Reading.Tiling
import Monkey.Proofs.Rendering.RoundTrip

/-!
# A session is one run of statements

Texts that are interpreted one after another in one scope do what the statements of those that can be
read do one after another, all in one row, where of each text the statements behind its first signal
are left out. So a text that is refused leaves nothing behind, a fault undoes nothing, and no text is
kept from being run by those before it. On a console the same holds for the lines before the one that
ends the conversation.
-/

namespace Monkey

open Eval

/-- Interprets texts one after another: what comes of each, and the world in the end. -/
def World.interpretAll (depth : Nat) (scope : ScopeId) : List String → World → List Reply × World
  | [], w => ([], w)
  | source :: sources, w =>
    let reply := w.interpret depth scope source
    let others := interpretAll depth scope sources reply.2
    (reply.1 :: others.1, others.2)

/-- The programs of those texts that can be read, numbered from the given number on. -/
def programsOf (number : Nat) : List String → List Program
  | [] => []
  | source :: sources =>
    match parse source with
    | .error _ => programsOf number sources
    | .ok tree => place number tree :: programsOf (number + 1) sources

variable {depth limit : Nat} {scope : ScopeId} {w w₁ : World} {source : String} {sources texts : List String}
  {tree : Tree} {diagnostics : List Diagnostic} {reply : Reply} {vs : List Value} {value : Value}

/-- What comes of a text in a world: it is refused and nothing happens, or the statements of its
program that are carried out have their values one after another. -/
inductive Answers (depth : Nat) (scope : ScopeId) (w : World) (source : String) :
    Reply → World → Prop where
  /-- The text cannot be read. -/
  | refused {diagnostics : List Diagnostic} (read : parse source = .error diagnostics) :
      Answers depth scope w source (.refused diagnostics) w
  /-- The answer is the last value, delivered, and a program has been counted. -/
  | answered {tree : Tree} {vs : List Value} {w₁ w' : World} (read : parse source = .ok tree)
      (carried : (each (Eval.apply depth) scope
        (carriedOut (Eval.apply depth) scope (place w.nextProgram tree) w)).run w = some (vs, w₁))
      (counted : w' = w₁.numbered (w.nextProgram + 1)) :
      Answers depth scope w source (.answered (vs.getLastD .null).delivered) w'

namespace World

theorem interpret_of_error (read : parse source = .error diagnostics) :
    w.interpret depth scope source = (.refused diagnostics, w) := by rw [interpret, read]

theorem interpret_of_ok (read : parse source = .ok tree) :
    w.interpret depth scope source =
      (((Eval.program depth scope (place w.nextProgram tree)).run w).map fun r =>
        (Reply.answered r.1, r.2.numbered (w.nextProgram + 1))).getD (.exhausted, w) := by
  have hprogram := @program_numbered scope w depth (w.nextProgram + 1) (place w.nextProgram tree)
  simp only [interpret, read, enrol]
  cases h : (Eval.program depth scope (place w.nextProgram tree)).run w with
  | none =>
    rw [h] at hprogram
    have hrun : Eval.program depth scope (place w.nextProgram tree)
      { w with nextProgram := w.nextProgram + 1 } = none := hprogram
    rw [hrun]
    rfl
  | some r =>
    rw [h] at hprogram
    have hrun : Eval.program depth scope (place w.nextProgram tree)
      { w with nextProgram := w.nextProgram + 1 } =
        some (r.1, r.2.numbered (w.nextProgram + 1)) := hprogram
    rw [hrun]
    rfl

/-- A text is answered as it should be, unless its program takes more calls than are allowed. -/
theorem answers_interpret (h : (w.interpret depth scope source).1 ≠ .exhausted) :
    Answers depth scope w source (w.interpret depth scope source).1
      (w.interpret depth scope source).2 := by
  cases read : parse source with
  | error diagnostics =>
    rw [interpret_of_error read]
    exact .refused read
  | ok tree =>
    rw [interpret_of_ok read, run_program_eq_each] at h ⊢
    cases carried : (each (Eval.apply depth) scope
        (carriedOut (Eval.apply depth) scope (place w.nextProgram tree) w)).run w with
    | none =>
      rw [carried] at h
      exact absurd rfl h
    | some r => exact .answered read carried rfl

/-- A text that cannot be read, or in which nothing is written, leaves the world as it is. -/
theorem interpret_idle (h : ∀ tree, parse source = .ok tree → tree = []) :
    ∃ n, (w.interpret depth scope source).2 = w.numbered n := by
  cases read : parse source with
  | error diagnostics => exact ⟨w.nextProgram, by rw [interpret_of_error read]; rfl⟩
  | ok tree =>
    refine ⟨w.nextProgram + 1, ?_⟩
    rw [interpret_of_ok read, h tree read, run_program_eq_each]
    rfl

/-- With more calls active at once, a text that is answered is answered in the same way. -/
theorem interpret_mono {deeper : Nat} (hle : depth ≤ deeper)
    (h : (w.interpret depth scope source).1 ≠ .exhausted) :
    w.interpret deeper scope source = w.interpret depth scope source := by
  cases read : parse source with
  | error diagnostics => rw [interpret_of_error read, interpret_of_error read]
  | ok tree =>
    rw [interpret_of_ok read] at h
    rw [interpret_of_ok read, interpret_of_ok read]
    cases hrun : (Eval.program depth scope (place w.nextProgram tree)).run w with
    | none =>
      rw [hrun] at h
      exact absurd rfl h
    | some r => rw [program_mono hrun hle]

/-- What a text writes comes behind what has been written before. -/
theorem written_interpret :
    (w.interpret depth scope source).2.sink.written =
      w.sink.written ++ (w.interpret depth scope source).2.writtenSince w := by
  have hgrown : ∃ bytes, (w.interpret depth scope source).2.sink.written = w.sink.written ++ bytes := by
    cases read : parse source with
    | error diagnostics =>
      rw [interpret_of_error read]
      exact ⟨.empty, (ByteArray.append_empty ..).symm⟩
    | ok tree =>
      rw [interpret_of_ok read]
      cases hrun : (Eval.program depth scope (place w.nextProgram tree)).run w with
      | none => exact ⟨.empty, (ByteArray.append_empty ..).symm⟩
      | some r =>
        obtain ⟨v, hblock, -⟩ := program_eq_some_iff.1 hrun
        exact hblock.evolves.exists_written
  obtain ⟨bytes, hbytes⟩ := hgrown
  rw [writtenSince, hbytes, ByteArray.extract_append_eq_right rfl ByteArray.size_append]

theorem interpretAll_append (xs ys : List String) :
    w.interpretAll depth scope (xs ++ ys) =
      ((w.interpretAll depth scope xs).1 ++
          ((w.interpretAll depth scope xs).2.interpretAll depth scope ys).1,
        ((w.interpretAll depth scope xs).2.interpretAll depth scope ys).2) := by
  induction xs generalizing w with
  | nil => rfl
  | cons x xs ih =>
    simp only [List.cons_append, interpretAll, ih]

theorem length_interpretAll : (w.interpretAll depth scope sources).1.length = sources.length := by
  induction sources generalizing w with
  | nil => rfl
  | cons source sources ih => simp only [interpretAll, List.length_cons, ih]

/-- Each text is answered as it should be in the world that those before it lead to. -/
theorem answers_interpretAll {before after : List String}
    (h : ∀ reply ∈ (w.interpretAll depth scope (before ++ source :: after)).1, reply ≠ .exhausted) :
    ∃ reply, (w.interpretAll depth scope (before ++ source :: after)).1[before.length]? = some reply ∧
      Answers depth scope (w.interpretAll depth scope before).2 source reply
        (w.interpretAll depth scope (before ++ [source])).2 := by
  rw [interpretAll_append, List.forall_mem_append] at h
  simp only [interpretAll, List.forall_mem_cons] at h
  refine ⟨((w.interpretAll depth scope before).2.interpret depth scope source).1, ?_, ?_⟩
  · rw [interpretAll_append, List.getElem?_append_right (Nat.le_of_eq length_interpretAll),
      length_interpretAll, Nat.sub_self]
    rfl
  · rw [interpretAll_append]
    exact answers_interpret h.2.1

/-- With more calls active at once, texts that are all answered are answered in the same way. -/
theorem interpretAll_mono {deeper : Nat} (hle : depth ≤ deeper)
    (h : ∀ reply ∈ (w.interpretAll depth scope sources).1, reply ≠ .exhausted) :
    w.interpretAll deeper scope sources = w.interpretAll depth scope sources := by
  induction sources generalizing w with
  | nil => rfl
  | cons source sources ih =>
    simp only [interpretAll, List.forall_mem_cons] at h ⊢
    rw [interpret_mono hle h.1, ih h.2]

/-- Texts that are all answered do what is carried out of their programs, in one row. -/
theorem each_of_interpretAll
    (h : ∀ reply ∈ (w.interpretAll depth scope sources).1, reply ≠ .exhausted) :
    ∃ vs w', (each (Eval.apply depth) scope (allCarriedOut (Eval.apply depth) scope
        (programsOf w.nextProgram sources) w)).run w = some (vs, w') ∧
      (w.interpretAll depth scope sources).2 =
        w'.numbered (w.nextProgram + (programsOf w.nextProgram sources).length) := by
  induction sources generalizing w with
  | nil => exact ⟨[], w, rfl, rfl⟩
  | cons source sources ih =>
    simp only [interpretAll, List.forall_mem_cons] at h ⊢
    have hanswer := answers_interpret h.1
    have hothers := ih h.2
    generalize w.interpret depth scope source = r at hanswer hothers ⊢
    obtain ⟨reply, after⟩ := r
    cases hanswer with
    | refused read =>
      simp only [programsOf, read]
      exact hothers
    | @answered tree us w₁ _ read carried counted =>
      subst counted
      simp only [programsOf, read]
      obtain ⟨vs, w₂, heach, hlast⟩ := hothers
      simp only [allCarriedOut_numbered, each_numbered, Option.map_eq_some_iff] at heach
      obtain ⟨q, heach, hq⟩ := heach
      cases hq
      refine ⟨us ++ q.1, q.2, ?_, ?_⟩
      · rw [allCarriedOut]
        refine each_append_of_eq_some carried ?_
        rw [carried]
        exact heach
      · have hcount : w.nextProgram + 1 + (programsOf (w.nextProgram + 1) sources).length =
            w.nextProgram + ((programsOf (w.nextProgram + 1) sources).length + 1) := by omega
        rw [List.length_cons, ← hcount]
        exact hlast

end World

theorem programsOf_append (number : Nat) (xs ys : List String) :
    programsOf number (xs ++ ys) =
      programsOf number xs ++ programsOf (number + (programsOf number xs).length) ys := by
  induction xs generalizing number with
  | nil => rfl
  | cons x xs ih =>
    rw [List.cons_append, programsOf, programsOf]
    cases parse x with
    | error diagnostics => exact ih number
    | ok tree =>
      simp only [ih, List.cons_append, List.length_cons, Nat.add_assoc, Nat.add_comm 1]

theorem place_ne_nil (h : tree ≠ []) (number : Nat) : place number tree ≠ [] := by
  cases tree with
  | nil => exact absurd rfl h
  | cons s ss => rw [place, remarkBlock]; exact List.cons_ne_nil _ _

/-- When the texts before the last one end in no signal and there is something in the last one, all their
statements make one program that gives the last answer. -/
theorem run_program_joined
    (h : ∀ reply ∈ (w.interpretAll depth scope (sources ++ [source])).1, reply ≠ .exhausted)
    (read : parse source = .ok tree) (hne : tree ≠ [])
    (carried : (each (Eval.apply depth) scope (allCarriedOut (Eval.apply depth) scope
      (programsOf w.nextProgram sources) w)).run w = some (vs, w₁))
    (plain : ∀ v ∈ vs, v.isSignal = false) :
    ∃ value w' n,
      (w.interpretAll depth scope (sources ++ [source])).1.getLast? = some (.answered value) ∧
      (Eval.program depth scope (programsOf w.nextProgram (sources ++ [source])).flatten).run w =
        some (value, w') ∧
      (w.interpretAll depth scope (sources ++ [source])).2 = w'.numbered n := by
  rw [World.interpretAll_append, List.forall_mem_append] at h
  obtain ⟨us, w₂, heach, hbefore⟩ := World.each_of_interpretAll h.1
  cases carried.symm.trans heach
  -- The last text gets the next number, and its program is what is left after the others.
  generalize hnumber : w.nextProgram + (programsOf w.nextProgram sources).length = number at hbefore
  have hprograms : programsOf w.nextProgram (sources ++ [source]) =
      programsOf w.nextProgram sources ++ [place number tree] := by
    simp only [programsOf_append, programsOf, read, hnumber]
  rw [allCarriedOut_eq_flatten carried plain] at carried
  have hjoined := run_program_append carried plain (place_ne_nil hne number)
  have hlast := h.2
  rw [hprograms, List.flatten_append, List.flatten_singleton, hjoined, World.interpretAll_append]
  rw [hbefore] at hlast ⊢
  have hcount : (w₁.numbered number).nextProgram = number := rfl
  simp only [World.interpretAll, List.forall_mem_singleton, World.interpret_of_ok read, hcount,
    program_numbered] at hlast ⊢
  cases hrun : (Eval.program depth scope (place number tree)).run w₁ with
  | none =>
    rw [hrun] at hlast
    exact absurd rfl hlast
  | some r => exact ⟨r.1, r.2, number + 1, by simp, rfl, rfl⟩

/-- In a blank text nothing is written. -/
theorem parse_blank (h : trim source.toList = []) : parse source = .ok [] := by
  have hblank : source.toList.dropWhile isBlank = [] := by
    rw [trim, List.reverse_eq_nil_iff, List.dropWhile_eq_nil_iff] at h
    cases hd : source.toList.dropWhile isBlank with
    | nil => rfl
    | cons c cs =>
      have hc := List.head_dropWhile_not isBlank (hd ▸ List.cons_ne_nil c cs)
      simp only [hd, List.head_cons] at hc
      rw [h c (by simp [hd])] at hc
      cases hc
  have hvalues : (TokenStream.ofSource source).values = [] := by
    rw [TokenStream.values, TokenStream.ofSource, TokenStream.ofChars, tokensFrom_of_nil 0 hblank]
    rfl
  exact Grammar.parse_eq_ok_iff.2 ⟨[], .nil, hvalues, rfl⟩

namespace Console

/-- A line without the blanks around it. -/
def word (text : String) : String := String.ofList (trim text.toList)

/-- A line that ends the conversation. -/
def Farewell (text : String) : Prop := word text = "exit" ∨ word text = "quit"

/-- What comes of each line: what its program writes, and what is shown of the reply. -/
def pieces (limit : Nat) : List String → World → List (ByteArray × ByteArray)
  | [], _ => []
  | text :: texts, w =>
    if word text = "" then (.empty, .empty) :: pieces limit texts w
    else
      let reply := w.interpret limit globalScope text
      (reply.2.writtenSince w, (shown reply.1).toUTF8) :: pieces limit texts reply.2

/-- Some bytes, one after another. -/
def joined (parts : List ByteArray) : ByteArray := parts.foldr (· ++ ·) .empty

/-- What is written while lines are answered, the prompt before each of them included. -/
def said (limit : Nat) (prompt : ByteArray) (texts : List String) (w : World) : ByteArray :=
  joined ((pieces limit texts w).map fun piece => prompt ++ (piece.1 ++ piece.2))

theorem fromUTF8?_toUTF8 (text : String) : String.fromUTF8? text.toUTF8 = some text := by
  simp [String.fromUTF8?]
  exact ⟨text.isValidUTF8, rfl⟩

theorem turn_of_farewell {text : String} (h : Farewell text) :
    turn limit text.toUTF8 w = (.farewell, w) := by
  have hword : word text = "exit" ∨ word text = "quit" := h
  rw [word] at hword
  simp only [turn, fromUTF8?_toUTF8, hword, if_true]

/-- A blank line is passed over. -/
theorem turn_of_blank {text : String} (h : word text = "") :
    turn limit text.toUTF8 w = (.said .empty, w) := by
  rw [word] at h
  simp only [turn, fromUTF8?_toUTF8, h, if_true]
  rfl

/-- Any other line that does not end the conversation is interpreted. -/
theorem turn_of_spoken {text : String} (h : ¬ Farewell text) (hspoken : word text ≠ "") :
    turn limit text.toUTF8 w =
      (.said ((w.interpret limit globalScope text).2.writtenSince w ++
          (shown (w.interpret limit globalScope text).1).toUTF8),
        (w.interpret limit globalScope text).2) := by
  have hword : ¬ (word text = "exit" ∨ word text = "quit") := h
  rw [word] at hword hspoken
  simp only [turn, fromUTF8?_toUTF8, hword, hspoken, if_false]

/-- Lines that do not end the conversation are interpreted one after another, but for the blank ones. -/
theorem answerLines_append (limit : Nat) (prompt : ByteArray) {texts : List String}
    (h : ∀ text ∈ texts, ¬ Farewell text) (output : ByteArray) (w : World) (rest : List ByteArray) :
    answerLines limit prompt output w (texts.map String.toUTF8 ++ rest) =
      answerLines limit prompt (output ++ said limit prompt texts w)
        (w.interpretAll limit globalScope (texts.filter fun text => word text ≠ "")).2 rest := by
  induction texts generalizing output w with
  | nil => simp [said, pieces, joined, World.interpretAll]
  | cons text texts ih =>
    rw [List.forall_mem_cons] at h
    rw [List.map_cons, List.cons_append, answerLines]
    by_cases hblank : word text = ""
    · rw [turn_of_blank hblank]
      simp [ih h.2, said, pieces, joined, hblank, ByteArray.append_assoc]
    · rw [turn_of_spoken h.1 hblank]
      simp [ih h.2, said, pieces, joined, hblank, World.interpretAll, ByteArray.append_assoc]

/-- What the programs of the lines write is all that is written to the sink. -/
theorem written_pieces (limit : Nat) (texts : List String) (w : World) :
    (w.interpretAll limit globalScope (texts.filter fun text => word text ≠ "")).2.sink.written =
      w.sink.written ++ joined ((pieces limit texts w).map Prod.fst) := by
  induction texts generalizing w with
  | nil => simp [pieces, joined, World.interpretAll]
  | cons text texts ih =>
    by_cases hblank : word text = ""
    · simpa [pieces, joined, hblank] using ih w
    · have hothers := ih (w.interpret limit globalScope text).2
      rw [World.written_interpret, ByteArray.append_assoc] at hothers
      simpa [pieces, joined, hblank, World.interpretAll] using hothers

/-- Nothing is read after a line that ends the conversation. -/
theorem answerLines_farewell (limit : Nat) (prompt output : ByteArray) {text : String}
    (h : Farewell text) (w : World) (rest : List ByteArray) :
    answerLines limit prompt output w (text.toUTF8 :: rest) = .success (output ++ prompt) := by
  rw [answerLines, turn_of_farewell h]

end Console

/-- What texts do that are interpreted one after another. -/
structure OneRun (depth : Nat) (scope : ScopeId) (texts : List String) (w : World) : Prop where
  /-- They do what is carried out of their programs, statement by statement; and that is all of it if
  there is no signal. -/
  carried : ∃ vs w',
    (each (Eval.apply depth) scope (allCarriedOut (Eval.apply depth) scope
        (programsOf w.nextProgram texts) w)).run w = some (vs, w') ∧
      (w.interpretAll depth scope texts).2 =
        w'.numbered (w.nextProgram + (programsOf w.nextProgram texts).length) ∧
      ((∀ v ∈ vs, v.isSignal = false) → allCarriedOut (Eval.apply depth) scope
        (programsOf w.nextProgram texts) w = (programsOf w.nextProgram texts).flatten)
  /-- Each is answered for itself, in the world that those before it lead to. -/
  answers : ∀ before source after, texts = before ++ source :: after →
    ∃ reply, (w.interpretAll depth scope texts).1[before.length]? = some reply ∧
      Answers depth scope (w.interpretAll depth scope before).2 source reply
        (w.interpretAll depth scope (before ++ [source])).2
  /-- If no signal comes before the last text and there is something in it, then all the programs
  make one, which gives the last answer and leads to the same world. -/
  joined : ∀ before source tree vs w₁, texts = before ++ [source] →
    parse source = .ok tree → tree ≠ [] →
    (each (Eval.apply depth) scope (allCarriedOut (Eval.apply depth) scope
        (programsOf w.nextProgram before) w)).run w = some (vs, w₁) →
    (∀ v ∈ vs, v.isSignal = false) →
    ∃ value w' n, (w.interpretAll depth scope texts).1.getLast? = some (.answered value) ∧
      (Eval.program depth scope (programsOf w.nextProgram texts).flatten).run w = some (value, w') ∧
      (w.interpretAll depth scope texts).2 = w'.numbered n
  /-- It makes no difference if more calls may be active at once. -/
  deeper : ∀ deeper, depth ≤ deeper →
    w.interpretAll deeper scope texts = w.interpretAll depth scope texts

/-- Texts that are all answered are one run of what is carried out of their programs. Blank ones and
those that cannot be read change nothing. Lines on a console are such texts, up to the one that ends
the conversation; what their programs write, piece by piece, is all that the sink gets. -/
theorem session_is_one_run
    (h : ∀ reply ∈ (w.interpretAll depth scope texts).1, reply ≠ .exhausted) :
    OneRun depth scope texts w ∧
      (∀ source, (trim source.toList = [] ∨ ∃ diagnostics, parse source = .error diagnostics) →
        ∀ depth scope w, ∃ n, (World.interpret depth scope source w).2 = w.numbered n) ∧
      (∀ limit lines, (∀ line ∈ lines, ¬ Console.Farewell line) → ∀ prompt output w rest,
        Console.answerLines limit prompt output w (lines.map String.toUTF8 ++ rest) =
          Console.answerLines limit prompt (output ++ Console.said limit prompt lines w)
            (w.interpretAll limit globalScope
              (lines.filter fun line => Console.word line ≠ "")).2 rest) ∧
      (∀ limit lines w, (w.interpretAll limit globalScope
          (lines.filter fun line => Console.word line ≠ "")).2.sink.written =
        w.sink.written ++ Console.joined ((Console.pieces limit lines w).map Prod.fst)) ∧
      ∀ limit line, Console.Farewell line → ∀ prompt output w rest,
        Console.answerLines limit prompt output w (line.toUTF8 :: rest) =
          .success (output ++ prompt) := by
  refine ⟨⟨?_, ?_, ?_, ?_⟩, ?_, ?_, Console.written_pieces, ?_⟩
  · obtain ⟨vs, w', heach, hlast⟩ := World.each_of_interpretAll h
    exact ⟨vs, w', heach, hlast, allCarriedOut_eq_flatten heach⟩
  · rintro before source after rfl
    exact World.answers_interpretAll h
  · rintro before source tree vs w₁ rfl read hne carried plain
    exact run_program_joined h read hne carried plain
  · exact fun _ hle => World.interpretAll_mono hle h
  · intro source hidle depth scope w
    refine World.interpret_idle fun tree read => ?_
    rcases hidle with hblank | ⟨diagnostics, hrefused⟩
    · exact Except.ok.inj (read.symm.trans (parse_blank hblank))
    · cases read.symm.trans hrefused
  · exact fun limit lines hlines prompt output w rest =>
      Console.answerLines_append limit prompt hlines output w rest
  · exact fun limit line hline prompt output w rest =>
      Console.answerLines_farewell limit prompt output hline w rest

/-- Four texts: a function is bound that tells what a name is bound to; a text that cannot be read; the
name is bound anew before a fault, and once more behind it; and the function is called. It tells what
was bound before the fault. -/
theorem session_with_fault_is_one_run :
    let texts := ["let x = true; let f = fn() \x7b x \x7d", ")",
      "let x = false; (true + x); let x = true", "f()"]
    let w : World := .initial .unlimited
    (w.interpretAll 1 globalScope texts).1[3]? = some (.answered (.boolean false)) ∧
      OneRun 1 globalScope texts w := by
  intro texts w
  have hx : IsName "x" := isName_of_small (by decide) (by simp) fun k => by cases k <;> decide
  have hf : IsName "f" := isName_of_small (by decide) (by simp) fun k => by cases k <;> decide
  let first : Tree := [.define "x" (.boolean true),
    .define "f" (.function () [] [.expression (.name "x")])]
  let third : Tree := [.define "x" (.boolean false),
    .expression (.binary (.boolean true) (.symbol .plus) (.name "x")), .define "x" (.boolean true)]
  let fourth : Tree := [.expression (.call (.name "f") [])]
  have hfirst : WellFormed first := by
    refine ⟨by simp [first, Stmt.Named, hx, hf], ?_⟩
    simp only [first, List.forall_mem_cons, Stmt.value]
    exact ⟨.boolean true, .function () (by simp) (by simp [Stmt.Named])
      (List.forall_mem_singleton.2 (.name hx)), by simp⟩
  have hthird : WellFormed third := by
    refine ⟨by simp [third, Stmt.Named, hx], ?_⟩
    simp only [third, List.forall_mem_cons, Stmt.value]
    exact ⟨.boolean false, .binary (by decide) (.boolean true) (.name hx),
      .boolean true, by simp⟩
  have hfourth : WellFormed fourth := by
    refine ⟨by simp [fourth, Stmt.Named], ?_⟩
    exact List.forall_mem_singleton.2 (.call (.name hf) (by simp))
  have read : parse "let x = true; let f = fn() \x7b x \x7d" = .ok first :=
    @parse_renderBlock_of_wellFormed first hfirst
  have read' : parse "let x = false; (true + x); let x = true" = .ok third :=
    @parse_renderBlock_of_wellFormed third hthird
  have read'' : parse "f()" = .ok fourth := @parse_renderBlock_of_wellFormed fourth hfourth
  have hclose : [')'].dropWhile isBlank = [')'] := by decide
  have htokens : tokensFrom 0 [')'] = [⟨.symbol .rightParen, ⟨0, 1⟩⟩] := by
    rw [tokensFrom_eq_cons 0 hclose]
    change _ :: tokensFrom 1 [] = _
    rw [tokensFrom_of_nil 1 rfl]
    rfl
  have hstream : TokenStream.ofSource ")" = ⟨_, ⟨.finish, ⟨1, 1⟩⟩⟩ :=
    congrArg (TokenStream.mk · _) htokens
  have refused : parse ")" = .error [.noOperand ⟨.symbol .rightParen, ⟨0, 1⟩⟩] := by
    rw [parse, hstream]
    rfl
  -- The worlds after the first text and after the third.
  let f : Closure := ⟨[], [.expression (.name "x")], ⟨0, [0, 1]⟩, globalScope⟩
  let bound : World := (((w.define globalScope "x" (.boolean true)).newFunction f).2.define globalScope
    "f" (.function 0 f)).numbered 1
  let rebound : World := (bound.define globalScope "x" (.boolean false)).numbered 2
  have step : w.interpret 1 globalScope "let x = true; let f = fn() \x7b x \x7d" =
      (.answered .null, bound) := by
    rw [World.interpret_of_ok read]
    rfl
  have step' : bound.interpret 1 globalScope "let x = false; (true + x); let x = true" =
      (.answered (.error (.binaryOperator .boolean (.symbol .plus) .boolean)), rebound) := by
    have hrun : Runs 1 (.block globalScope .null (place 1 third)) bound
        (.error (.binaryOperator .boolean (.symbol .plus) .boolean))
        (bound.define globalScope "x" (.boolean false)) :=
      .next rfl (.next rfl (.done rfl) rfl (.done rfl)) rfl
        (.pass rfl (.become rfl (.next rfl (.done rfl) rfl (.next rfl (runs_bound (.here rfl)) rfl
          (.done rfl)))) rfl)
    have hprogram := program_eq_some_iff.2 ⟨_, hrun, rfl⟩
    have hcount : bound.nextProgram = 1 := rfl
    rw [World.interpret_of_ok read', hcount, hprogram]
    rfl
  have step'' : (rebound.interpret 1 globalScope "f()").1 = .answered (.boolean false) := by
    have hbody : Runs 0 (.block 1 .null f.body) (rebound.openScope (some globalScope) []) (.boolean false)
        (rebound.openScope (some globalScope) []) :=
      .next rfl (.become rfl (runs_bound (.further rfl rfl (.here rfl)))) rfl (.done rfl)
    have hrun : Runs 1 (.block globalScope .null (place 2 fourth)) rebound (.boolean false)
        (rebound.openScope (some globalScope) []) :=
      .next rfl (.become rfl (.next rfl (runs_bound (.here rfl)) rfl
        (.become rfl (.enter rfl hbody)))) rfl (.done rfl)
    have hprogram := program_eq_some_iff.2 ⟨_, hrun, rfl⟩
    have hcount : rebound.nextProgram = 2 := rfl
    rw [World.interpret_of_ok read'', hcount, hprogram]
    rfl
  have hreplies : (w.interpretAll 1 globalScope texts).1 =
      [.answered .null, .refused [.noOperand ⟨.symbol .rightParen, ⟨0, 1⟩⟩],
        .answered (.error (.binaryOperator .boolean (.symbol .plus) .boolean)),
        .answered (.boolean false)] := by
    simp only [texts, World.interpretAll, step, World.interpret_of_error refused, step', step'']
  have h : ∀ reply ∈ (w.interpretAll 1 globalScope texts).1, reply ≠ .exhausted := by
    rw [hreplies]
    simp
  exact ⟨by rw [hreplies]; rfl, (session_is_one_run h).1⟩

end Monkey
