/-!
# Places in a source text

A place is counted in bytes of the text's UTF-8 form. A span names a stretch of text by the place
of its first byte and the place just after its last one, so the span of nothing is empty.
-/

namespace Monkey

/-- The place just after a character that begins at the given place. -/
def shift (place : Nat) (c : Char) : Nat := place + c.utf8Size

/-- The length in bytes of a run of characters: the place after it when it begins at zero. -/
def width (cs : List Char) : Nat := cs.foldl shift 0

/-- Shifting over each character of a run moves a place by the width of the run. -/
theorem foldl_shift (place : Nat) (cs : List Char) : cs.foldl shift place = place + width cs := by
  induction cs generalizing place with
  | nil => rfl
  | cons c cs ih =>
    rw [width, List.foldl_cons, List.foldl_cons, ih, ih (shift 0 c), shift, shift, Nat.zero_add,
      Nat.add_assoc]

@[simp] theorem width_nil : width [] = 0 := rfl

@[simp] theorem width_cons (c : Char) (cs : List Char) :
    width (c :: cs) = c.utf8Size + width cs := by
  rw [width, List.foldl_cons, foldl_shift, shift, Nat.zero_add]

@[simp] theorem width_append (cs ds : List Char) : width (cs ++ ds) = width cs + width ds := by
  rw [width, List.foldl_append, foldl_shift, ← width]

/-- A stretch of text, from its first byte up to the byte after its last. -/
structure Span where
  /-- The place of the first byte. -/
  start : Nat
  /-- The place just after the last byte. -/
  stop : Nat
  deriving DecidableEq, Repr

namespace Span

/-- Both ends, with a colon between them. -/
def text (s : Span) : String := toString s.start ++ ":" ++ toString s.stop

/-- The form in which a message mentions a span. -/
def mention (s : Span) : String := "(at " ++ s.text ++ ")"

end Span

/-- A thing read from a source text, together with the stretch it was read from. -/
structure Spanned (α : Type) where
  /-- What was read. -/
  value : α
  /-- Where it was read. -/
  span : Span
  deriving DecidableEq, Repr

end Monkey
