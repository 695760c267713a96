import Monkey.Proofs.Grammar.Basic

/-!
# Brackets in derived tokens

Whatever the grammar derives is put together in two ways from tokens that are no brackets: one thing
is put behind another, or brackets of one kind are put around something. So what holds of those tokens
and is kept in these two ways holds of every expression. Brackets are closed in the order in which they
should be, and no token is one that an expression cannot have.
-/

namespace Monkey

/-- The bracket that closes what a symbol opens, if it opens anything. -/
def Symbol.closing? : Symbol → Option Symbol
  | leftParen => some rightParen
  | leftBrace => some rightBrace
  | leftBracket => some rightBracket
  | _ => none

/-- The symbols that open or close something. -/
def Symbol.brackets : List Symbol :=
  [leftParen, rightParen, leftBrace, rightBrace, leftBracket, rightBracket]

theorem Symbol.mem_brackets {opening closing : Symbol} (h : opening.closing? = some closing) :
    opening ∈ brackets ∧ closing ∈ brackets := by
  cases opening <;> cases h <;> decide

namespace Grammar

/-- Every bracket that is opened is closed by one of its kind, before any bracket around it. -/
inductive Balanced : List Token → Prop where
  /-- No tokens at all. -/
  | nil : Balanced []
  /-- A token that is no bracket. -/
  | plain {t : Token} {ts : List Token} (no : ∀ s ∈ Symbol.brackets, t ≠ .symbol s)
      (rest : Balanced ts) : Balanced (t :: ts)
  /-- Brackets of one kind around something. -/
  | between {opening closing : Symbol} {ts us : List Token} (kind : opening.closing? = some closing)
      (inner : Balanced ts) (rest : Balanced us) :
      Balanced (.symbol opening :: ts ++ .symbol closing :: us)

theorem Balanced.append {ts us : List Token} (h : Balanced ts) (h' : Balanced us) :
    Balanced (ts ++ us) := by
  induction h with
  | nil => exact h'
  | plain no _ ih => exact .plain no ih
  | between kind inner _ _ ih =>
    rw [List.append_assoc]
    exact .between kind inner ih

/-- A token of an expression that is no bracket. -/
def Plain : Token → Prop
  | .symbol s => s ∉ Symbol.brackets
  | .integer digits => decimal digits.toList ≤ Nat.pow 2 63 - 1
  | .illegal _ => False
  | .finish => False
  | _ => True

theorem plain_symbol {s : Symbol} (h : s ∉ Symbol.brackets) : Plain (.symbol s) := h

/-- What holds of the tokens that are no brackets, and is kept when one thing is put behind another or
brackets are put around something. -/
structure Composed (D : List Token → Prop) : Prop where
  /-- It holds of nothing. -/
  nil : D []
  /-- It holds of every token that is no bracket. -/
  plain {t : Token} (h : Plain t) : D [t]
  /-- One thing can be put behind another. -/
  append {ts us : List Token} (h : D ts) (h' : D us) : D (ts ++ us)
  /-- Brackets can be put around something. -/
  between {opening closing : Symbol} {ts : List Token} (kind : opening.closing? = some closing)
    (h : D ts) : D (.symbol opening :: ts ++ [.symbol closing])

theorem composed_balanced : Composed Balanced where
  nil := .nil
  plain {t} h := by
    refine .plain (fun s hs ht => ?_) .nil
    rw [ht] at h
    exact h hs
  append := .append
  between kind h := .between kind h .nil

/-- What is so of every token of an expression is so of all of them together. -/
theorem composed_forall {P : Token → Prop} (hplain : ∀ t, Plain t → P t)
    (hbracket : ∀ s ∈ Symbol.brackets, P (.symbol s)) : Composed fun ts => ∀ t ∈ ts, P t where
  nil := List.forall_mem_nil _
  plain {t} h := List.forall_mem_singleton.2 (hplain t h)
  append h h' := List.forall_mem_append.2 ⟨h, h'⟩
  between kind h := by
    obtain ⟨hopening, hclosing⟩ := Symbol.mem_brackets kind
    exact List.forall_mem_append.2 ⟨List.forall_mem_cons.2 ⟨hbracket _ hopening, h⟩,
      List.forall_mem_singleton.2 (hbracket _ hclosing)⟩

section Composed

variable {D : List Token → Prop} (hD : Composed D)

include hD

theorem Composed.cons {t : Token} {ts : List Token} (ht : Plain t) (h : D ts) : D (t :: ts) :=
  hD.append (hD.plain ht) h

theorem Composed.flatMap {α : Type} {tokens : α → List Token} {xs : List α}
    (h : ∀ x ∈ xs, D (tokens x)) : D (xs.flatMap tokens) := by
  induction xs with
  | nil => exact hD.nil
  | cons x xs ih =>
    rw [List.forall_mem_cons] at h
    rw [List.flatMap_cons]
    exact hD.append h.1 (ih h.2)

theorem Composed.enclosed {α : Type} {tokens : α → List Token} {xs : List α}
    (h : ∀ x ∈ xs, D (tokens x)) {opening closing : Symbol}
    (kind : opening.closing? = some closing) : D (enclosed opening (xs.map tokens) closing) := by
  refine hD.between kind ?_
  cases xs with
  | nil => exact hD.nil
  | cons x xs =>
    rw [List.forall_mem_cons] at h
    refine hD.append h.1 (hD.flatMap (List.forall_mem_map.2 fun y hy => ?_))
    exact hD.cons (plain_symbol (by decide)) (h.2 y hy)

theorem Composed.lineTokens {lines : List Line} (h : ∀ l ∈ lines, D l.value.tokens) :
    D (lineTokens lines) := by
  refine hD.flatMap fun l hl => hD.append (hD.append ?_ (h l hl)) ?_
  · cases l.form with
    | define name =>
      exact hD.cons trivial (hD.cons trivial (hD.plain (plain_symbol (by decide))))
    | leave => exact hD.plain trivial
    | bare => exact hD.nil
  · split
    · exact hD.plain (plain_symbol (by decide))
    · exact hD.nil

theorem Composed.blockTokens {lines : List Line} (h : ∀ l ∈ lines, D l.value.tokens) :
    D (blockTokens lines) := hD.between rfl (hD.lineTokens h)

omit hD in
theorem plain_of_mem_operators {s : Stratum} {operator : Token} (h : operator ∈ s.operators) :
    Plain operator := by
  cases s <;> simp only [Stratum.operators, List.mem_cons, List.not_mem_nil, or_false] at h
  all_goals rcases h with rfl | rfl <;> exact plain_symbol (by decide)

omit hD in
theorem plain_of_mem_unaryOperators {operator : Token} (h : operator ∈ unaryOperators) :
    Plain operator := by
  simp only [unaryOperators, List.mem_cons, List.not_mem_nil, or_false] at h
  rcases h with rfl | rfl <;> exact plain_symbol (by decide)

/-- What can be put together holds of the tokens of every expression. -/
theorem Derives.composed {s : Stratum} {ts : List Token} {e : Expr Unit} (h : Derives s ts e) :
    D ts := by
  induction h with
  | tighter _ _ ih => exact ih
  | binary mem _ _ ihl ihr => exact hD.append ihl (hD.cons (plain_of_mem_operators mem) ihr)
  | unary mem _ ih => exact hD.cons (plain_of_mem_unaryOperators mem) ih
  | call _ _ _ ih ihs => exact hD.append ih (hD.enclosed ihs rfl)
  | index _ _ ih ihi =>
    rw [List.append_assoc]
    exact hD.append ih (hD.between rfl ihi)
  | name text => exact hD.plain trivial
  | integer small => exact hD.plain small
  | string text => exact hD.plain trivial
  | isTrue => exact hD.plain trivial
  | isFalse => exact hD.plain trivial
  | grouped _ ih => exact hD.between rfl ih
  | @conditional ts e chosen other _ _ _ _ _ ih ihc iho =>
    have htest : D (.symbol .leftParen :: ts ++ [.symbol .rightParen]) := hD.between rfl ih
    have hother : D (otherwiseTokens other) := by
      cases other with
      | none => exact hD.nil
      | some lines => exact hD.cons trivial (hD.blockTokens (iho lines rfl))
    simpa only [List.append_assoc, List.cons_append, List.nil_append] using
      hD.cons (t := .keyword .ifWord) trivial
        (hD.append htest (hD.append (hD.blockTokens ihc) hother))
  | function parameters body _ _ ih =>
    exact hD.append (hD.cons trivial (hD.enclosed (fun x _ => hD.plain (t := .name x) trivial) rfl))
      (hD.blockTokens ih)
  | array _ _ ihs => exact hD.enclosed ihs rfl
  | hash pairs _ _ ihk ihv =>
    refine hD.enclosed (fun p hp => hD.append (ihk p hp) (hD.cons ?_ (ihv p hp))) rfl
    exact plain_symbol (by decide)

end Composed

end Grammar

end Monkey
