import Monkey.Text.Decimal
import Monkey.Token.Scan

/-!
# Reading lexemes one by one

The tokens of a text do not depend on where it begins, so a text can be read from its front: each
sort of lexeme has an equation that takes it off. A word and a number end before the first character
that does not belong to them; of all others the end is seen by themselves.
-/

namespace Monkey

/-- Whether a number lies in a range with both ends included. -/
def Covers (range : Nat × Nat) (n : Nat) : Prop := range.1 ≤ n ∧ n ≤ range.2

/-- What lies in ascending ranges lies in one of them. -/
theorem exists_covers_of_inRanges {n : Nat} {ranges : List (Nat × Nat)}
    (h : inRanges n ranges = true) : ∃ range ∈ ranges, Covers range n := by
  induction ranges with
  | nil => cases h
  | cons range ranges ih =>
    simp only [inRanges, Bool.and_eq_true, Bool.or_eq_true, decide_eq_true_eq] at h
    obtain ⟨hlow, hhigh | h⟩ := h
    · exact ⟨range, List.mem_cons_self, hlow, hhigh⟩
    · obtain ⟨r, hr, hcovers⟩ := ih h
      exact ⟨r, List.mem_cons_of_mem _ hr, hcovers⟩

/-- Whether no number lies in both of two ranges. -/
def apartRanges (r s : Nat × Nat) : Bool := decide (r.2 < s.1) || decide (s.2 < r.1)

/-- No letter is a blank: their tables have nothing in common. -/
theorem apartRanges_letter_blank :
    (letterRanges.all fun r => blankRanges.all (apartRanges r)) = true := by decide +kernel

/-- A character of a name is no blank. -/
theorem isBlank_of_isNameChar {c : Char} (h : isNameChar c = true) : isBlank c = false := by
  rw [isNameChar, Bool.or_eq_true] at h
  rcases h with hletter | hline
  · rw [Bool.eq_false_iff]
    intro hblank
    obtain ⟨r, hr, hcovers⟩ := exists_covers_of_inRanges hletter
    obtain ⟨s, hs, hcovers'⟩ := exists_covers_of_inRanges hblank
    have hapart := List.all_eq_true.1 (List.all_eq_true.1 apartRanges_letter_blank r hr) s hs
    simp only [apartRanges, Bool.or_eq_true, decide_eq_true_eq] at hapart
    unfold Covers at hcovers hcovers'
    omega
  · rw [beq_iff_eq.1 hline]
    decide

/-- A digit is no blank. -/
theorem isBlank_of_isDigit {c : Char} (h : c.isDigit = true) : isBlank c = false := by
  rw [Bool.eq_false_iff]
  intro hblank
  obtain ⟨r, hr, hcovers⟩ := exists_covers_of_inRanges hblank
  obtain ⟨hlow, hhigh⟩ := Char.isDigit_iff_toNat.1 h
  have hapart : ∀ s ∈ blankRanges, s.2 < 48 ∨ 57 < s.1 := by decide
  have h0 : '0'.toNat = 48 := rfl
  have h9 : '9'.toNat = 57 := rfl
  unfold Covers at hcovers
  rcases hapart r hr with h | h <;> omega

/-- A digit belongs to no name. -/
theorem isNameChar_of_isDigit {c : Char} (h : c.isDigit = true) : isNameChar c = false := by
  obtain ⟨-, hhigh⟩ := Char.isDigit_iff_toNat.1 h
  have h9 : '9'.toNat = 57 := rfl
  rw [isNameChar, isLetter_eq_false_of_lt (by omega), Bool.false_or, beq_eq_false_iff_ne]
  rintro rfl
  exact absurd hhigh (by decide)

/-- A small letter of ASCII may stand in a name. -/
theorem isNameChar_of_small {c : Char} (low : 97 ≤ c.toNat) (high : c.toNat ≤ 122) :
    isNameChar c = true := by
  rw [isNameChar, isLetter_of_small low high, Bool.true_or]

/-- The tokens of a run of characters, without their places. -/
def lexed (cs : List Char) : List Token := (tokensFrom 0 cs).map (·.value)

theorem tokensFrom_of_nil (place : Nat) {cs : List Char} (h : cs.dropWhile isBlank = []) :
    tokensFrom place cs = [] := by
  rw [tokensFrom]
  split
  · rfl
  · next hc => cases h.symm.trans hc

theorem tokensFrom_of_cons (place : Nat) {cs rest : List Char} {c : Char}
    (h : cs.dropWhile isBlank = c :: rest) :
    ∃ span stop, tokensFrom place cs =
      ⟨(Lexeme.first c rest).token, span⟩ :: tokensFrom stop (Lexeme.first c rest).rest := by
  rw [tokensFrom]
  split
  · next hc => cases h.symm.trans hc
  · next hc =>
    cases h.symm.trans hc
    exact ⟨_, _, rfl⟩

/-- Where a text begins makes no difference to its tokens. -/
theorem values_tokensFrom (place : Nat) (cs : List Char) :
    (tokensFrom place cs).map (·.value) = lexed cs := by
  unfold lexed
  generalize 0 = other
  induction hn : cs.length using Nat.strongRecOn generalizing cs place other with
  | ind n ih =>
    cases hd : cs.dropWhile isBlank with
    | nil => rw [tokensFrom_of_nil _ hd, tokensFrom_of_nil _ hd]
    | cons c rest =>
      obtain ⟨span, stop, h⟩ := tokensFrom_of_cons place hd
      obtain ⟨span', stop', h'⟩ := tokensFrom_of_cons other hd
      have hshort := length_dropWhile_le isBlank cs
      have hrest := Lexeme.length_rest_first c rest
      rw [hd, List.length_cons] at hshort
      rw [h, h', List.map_cons, List.map_cons, ih _ (by omega) stop _ stop' rfl]

@[simp] theorem lexed_nil : lexed [] = [] := by
  rw [lexed, tokensFrom_of_nil _ rfl, List.map_nil]

/-- A blank in front is passed. -/
theorem lexed_blank {c : Char} (h : isBlank c = true) (cs : List Char) :
    lexed (c :: cs) = lexed cs := by
  unfold lexed
  have hd : (c :: cs).dropWhile isBlank = cs.dropWhile isBlank := List.dropWhile_cons_of_pos h
  cases hcs : cs.dropWhile isBlank with
  | nil => rw [tokensFrom_of_nil _ hcs, tokensFrom_of_nil _ (hd.trans hcs)]
  | cons d rest =>
    obtain ⟨span, stop, h⟩ := tokensFrom_of_cons 0 hcs
    obtain ⟨span', stop', h'⟩ := tokensFrom_of_cons 0 (hd.trans hcs)
    rw [h, h', List.map_cons, List.map_cons, values_tokensFrom, values_tokensFrom]

/-- Any other character in front begins a lexeme, and what follows the lexeme is read next. -/
theorem lexed_cons {c : Char} (h : isBlank c = false) (cs : List Char) :
    lexed (c :: cs) = (Lexeme.first c cs).token :: lexed (Lexeme.first c cs).rest := by
  have hd : (c :: cs).dropWhile isBlank = c :: cs :=
    List.dropWhile_cons_of_neg (by rw [h]; exact Bool.false_ne_true)
  obtain ⟨span, stop, htokens⟩ := tokensFrom_of_cons 0 hd
  rw [lexed, htokens, List.map_cons, values_tokensFrom]

/-- A symbol that is one whatever follows it is taken off the front. -/
theorem lexed_symbol {c : Char} {s : Symbol} (h : Symbol.ofChar? c = some s) (cs : List Char) :
    lexed (c :: cs) = .symbol s :: lexed cs := by
  have hfirst : isBlank c = false ∧ c ≠ '=' ∧ c ≠ '!' ∧ c ≠ '"' ∧ c.isDigit = false ∧
      isNameChar c = false := by
    unfold Symbol.ofChar? at h
    split at h <;> first | decide | cases h
  obtain ⟨hblank, heq, hbang, hquote, hdigit, hname⟩ := hfirst
  rw [lexed_cons hblank]
  simp only [Lexeme.first, heq, hbang, hquote, hdigit, hname, if_false, Bool.false_eq_true,
    Token.ofChar, h]

/-- Two equals signs are one symbol. -/
theorem lexed_equal (cs : List Char) :
    lexed ('=' :: '=' :: cs) = .symbol .equal :: lexed cs := lexed_cons (by decide) _

/-- An exclamation mark and an equals sign are one symbol. -/
theorem lexed_notEqual (cs : List Char) :
    lexed ('!' :: '=' :: cs) = .symbol .notEqual :: lexed cs := lexed_cons (by decide) _

theorem Lexeme.pair_of_head_ne {cs : List Char} (h : ∀ d ∈ cs.head?, d ≠ '=')
    (double single : Symbol) (c : Char) :
    pair double single c cs = ⟨.symbol single, [c], cs⟩ := by
  unfold pair
  split
  · next rest => exact absurd rfl (h '=' rfl)
  · rfl

/-- An equals sign by itself is a symbol. -/
theorem lexed_assign {cs : List Char} (h : ∀ d ∈ cs.head?, d ≠ '=') :
    lexed ('=' :: cs) = .symbol .assign :: lexed cs := by
  have hfirst : Lexeme.first '=' cs = ⟨.symbol .assign, ['='], cs⟩ := Lexeme.pair_of_head_ne h _ _ _
  rw [lexed_cons (by decide), hfirst]

/-- An exclamation mark by itself is a symbol. -/
theorem lexed_bang {cs : List Char} (h : ∀ d ∈ cs.head?, d ≠ '=') :
    lexed ('!' :: cs) = .symbol .bang :: lexed cs := by
  have hfirst : Lexeme.first '!' cs = ⟨.symbol .bang, ['!'], cs⟩ := Lexeme.pair_of_head_ne h _ _ _
  rw [lexed_cons (by decide), hfirst]

/-- A run of like characters in front ends where the like characters do. -/
theorem Lexeme.run_append {like : Char → Bool} {word rest : List Char}
    (hword : ∀ c ∈ word, like c = true) (hrest : ∀ c ∈ rest.head?, like c = false)
    (make : String → Token) (c : Char) :
    run like make c (word ++ rest) = ⟨make (String.ofList (c :: word)), c :: word, rest⟩ := by
  have htake : rest.takeWhile like = [] := by
    cases rest with
    | nil => rfl
    | cons d ds => rw [List.takeWhile_cons_of_neg (by rw [hrest d rfl]; exact Bool.false_ne_true)]
  have hdrop : rest.dropWhile like = rest := by
    cases rest with
    | nil => rfl
    | cons d ds => rw [List.dropWhile_cons_of_neg (by rw [hrest d rfl]; exact Bool.false_ne_true)]
  rw [run, List.takeWhile_append_of_pos hword, List.dropWhile_append_of_pos hword, htake, hdrop,
    List.append_nil]

/-- A word is taken off the front if no character of a name follows. -/
theorem lexed_word {word : List Char} (hne : word ≠ []) (hword : ∀ c ∈ word, isNameChar c = true)
    {rest : List Char} (hrest : ∀ c ∈ rest.head?, isNameChar c = false) :
    lexed (word ++ rest) = .ofWord (String.ofList word) :: lexed rest := by
  cases word with
  | nil => exact absurd rfl hne
  | cons c word =>
    rw [List.forall_mem_cons] at hword
    obtain ⟨hc, hword⟩ := hword
    have heq : c ≠ '=' := by rintro rfl; exact absurd hc (by decide)
    have hbang : c ≠ '!' := by rintro rfl; exact absurd hc (by decide)
    have hquote : c ≠ '"' := by rintro rfl; exact absurd hc (by decide)
    have hdigit : c.isDigit = false := by
      rw [Bool.eq_false_iff]
      intro h
      rw [isNameChar_of_isDigit h] at hc
      exact Bool.false_ne_true hc
    rw [List.cons_append, lexed_cons (isBlank_of_isNameChar hc)]
    simp only [Lexeme.first, heq, hbang, hquote, hdigit, hc, if_false, if_true, Bool.false_eq_true,
      Lexeme.run_append hword hrest]

/-- A number is taken off the front if no digit follows. -/
theorem lexed_integer {digits : List Char} (hne : digits ≠ [])
    (hdigits : ∀ c ∈ digits, c.isDigit = true) {rest : List Char}
    (hrest : ∀ c ∈ rest.head?, c.isDigit = false) :
    lexed (digits ++ rest) = .integer (String.ofList digits) :: lexed rest := by
  cases digits with
  | nil => exact absurd rfl hne
  | cons c digits =>
    rw [List.forall_mem_cons] at hdigits
    obtain ⟨hc, hdigits⟩ := hdigits
    have heq : c ≠ '=' := by rintro rfl; exact absurd hc (by decide)
    have hbang : c ≠ '!' := by rintro rfl; exact absurd hc (by decide)
    have hquote : c ≠ '"' := by rintro rfl; exact absurd hc (by decide)
    rw [List.cons_append, lexed_cons (isBlank_of_isDigit hc)]
    simp only [Lexeme.first, heq, hbang, hquote, hc, if_false, if_true,
      Lexeme.run_append hdigits hrest]

/-- A text in quotes is taken off the front if there is no quote inside. -/
theorem lexed_string {text : List Char} (h : ∀ c ∈ text, c ≠ '"') (rest : List Char) :
    lexed ('"' :: (text ++ '"' :: rest)) = .string (String.ofList text) :: lexed rest := by
  have hlike : ∀ c ∈ text, (c != '"') = true := fun c hc => bne_iff_ne.2 (h c hc)
  have hfirst : Lexeme.first '"' (text ++ '"' :: rest) = .quoted (text ++ '"' :: rest) := rfl
  rw [lexed_cons (by decide), hfirst, Lexeme.quoted]
  simp only [List.takeWhile_append_of_pos hlike, List.dropWhile_append_of_pos hlike]
  rw [List.takeWhile_cons_of_neg (by decide), List.dropWhile_cons_of_neg (by decide),
    List.append_nil]
  rfl

end Monkey
