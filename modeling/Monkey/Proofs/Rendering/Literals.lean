import Monkey.Proofs.Evaluation.Reachable
import Monkey.Proofs.Grammar.Brackets
import Monkey.Proofs.Rendering.Meaning
import Monkey.Value.Render

/-!
# Data as literals

Values that are made of numbers and truth values are printed as literals. A negative number is printed
as an operator and a number, and there is one number for which that number is too large to be read. A
value is read back exactly if this number does not occur in it.
-/

namespace Monkey

open Grammar

/-- A number or a truth value. -/
inductive Value.Scalar : Value → Prop where
  | integer (n : Int64) : Scalar (.integer n)
  | boolean (b : Bool) : Scalar (.boolean b)

/-- A value that is made of numbers and truth values, in arrays and in hashes with such keys. -/
inductive Value.Data : Value → Prop where
  | scalar {v : Value} (h : v.Scalar) : Data v
  | array (identity : Identity) {elements : List Value} (h : ∀ v ∈ elements, Data v) :
      Data (.array identity elements)
  | hash (identity : Identity) {entries : Table (Value × Value)} (keys : ∀ e ∈ entries, e.2.1.Scalar)
      (values : ∀ e ∈ entries, Data e.2.2) : Data (.hash identity entries)

variable {μ : Type}

namespace Value

mutual

/-- The literal of a text or of data; anything else has none. -/
def literal : Value → Expr μ
  | integer n => if 0 ≤ n.toInt then .integer n else .unary (.symbol .minus) (.integer (-n))
  | boolean b => .boolean b
  | string text => .string text
  | array _ elements => .array (literals elements)
  | hash _ entries => .hash (literalPairs entries)
  | _ => .array []

/-- The literals of some values. -/
def literals : List Value → List (Expr μ)
  | [] => []
  | v :: vs => literal v :: literals vs

/-- The literals of keys with their values. -/
def literalPairs : List (HashKey × Value × Value) → List (Expr μ × Expr μ)
  | [] => []
  | (_, key, value) :: entries => (literal key, literal value) :: literalPairs entries

end

theorem literals_eq_map (vs : List Value) : (literals vs : List (Expr μ)) = vs.map literal := by
  induction vs with
  | nil => rfl
  | cons v vs ih => rw [literals, ih, List.map_cons]

theorem literalPairs_eq_map (entries : Table (Value × Value)) :
    (literalPairs entries : List (Expr μ × Expr μ)) =
      entries.map fun e => (literal e.2.1, literal e.2.2) := by
  induction entries with
  | nil => rfl
  | cons e entries ih => rw [literalPairs, ih, List.map_cons]

/-- The least number occurs in a value. -/
def HasLeast (v : Value) : Prop := Part (.integer Int64.minValue) v

theorem not_hasLeast_of_part {u v : Value} (h : ¬ v.HasLeast) (hpart : Part u v) : ¬ u.HasLeast :=
  fun hu => h (Part.trans hu hpart)

end Value

/-- A negative number is the negation of one that can be read, unless it is the least one. -/
theorem toInt_neg_of_negative {n : Int64} {m : Nat} (h : n.toInt = .negSucc m)
    (hleast : n ≠ Int64.minValue) : (-n).toInt = (m + 1 : Nat) := by
  have hlow := n.le_toInt
  have hne : n.toInt ≠ -2 ^ 63 := fun heq =>
    hleast (Int64.toInt_inj.1 (heq.trans Int64.toInt_minValue.symm))
  rw [Int64.toInt_neg, Int.bmod_eq_of_le] <;> omega

theorem means_scalar {v : Value} (h : v.Scalar) (hleast : ¬ v.HasLeast) :
    Means .equality v.inspect v.literal := by
  cases h with
  | boolean b =>
    rw [Value.inspect_boolean, Value.literal]
    exact (means_boolean b).loosest
  | integer n =>
    rw [Value.inspect_integer, Value.literal]
    by_cases hn : 0 ≤ n.toInt
    · rw [if_pos hn]
      exact (means_integer hn).loosest
    · rw [if_neg hn]
      obtain ⟨m, hm⟩ := Int.eq_negSucc_of_lt_zero (Int.not_le.1 hn)
      have hneg := toInt_neg_of_negative hm fun heq => hleast (heq ▸ .self)
      have hmeans : Means .unary (toString (-n).toInt) (.integer (-n)) :=
        (means_integer (hneg ▸ Int.natCast_nonneg _)).looser (by decide)
      rw [hneg] at hmeans
      rw [hm]
      have hunary : Means .unary (Token.text (.symbol .minus) ++ toString ((m + 1 : Nat) : Int))
          (.unary (.symbol .minus) (.integer (-n))) := Means.unary (by decide) hmeans
      exact hunary.loosest

/-- Items that mean what they stand for are listed as they are. -/
theorem means_literals {vs : List Value} (h : ∀ v ∈ vs, Means .equality v.inspect v.literal) :
    List.Forall₂ (Means .equality) (Value.inspectElements vs) (Value.literals vs) := by
  rw [Value.inspectElements_eq_map, Value.literals_eq_map, List.forall₂_map_left_iff,
    List.forall₂_map_right_iff, List.forall₂_same]
  exact h

theorem means_literalPairs {entries : Table (Value × Value)}
    (hkeys : ∀ e ∈ entries, Means .equality e.2.1.inspect e.2.1.literal)
    (hvalues : ∀ e ∈ entries, Means .equality e.2.2.inspect e.2.2.literal) :
    List.Forall₂ MeansPair (Value.inspectEntries entries) (Value.literalPairs entries) := by
  rw [Value.inspectEntries_eq_map, Value.literalPairs_eq_map, List.forall₂_map_left_iff,
    List.forall₂_map_right_iff, List.forall₂_same]
  exact fun e he => ⟨_, _, rfl, hkeys e he, hvalues e he⟩

/-- Data is printed as its literal. -/
theorem means_literal {v : Value} (h : v.Data) (hleast : ¬ v.HasLeast) :
    Means .equality v.inspect v.literal := by
  induction h with
  | scalar h => exact means_scalar h hleast
  | array identity _ ih =>
    rw [Value.inspect_array, Value.literal]
    exact (means_array (means_literals fun v hv =>
      ih v hv (Value.not_hasLeast_of_part hleast (.element hv .self)))).loosest
  | hash identity keys _ ih =>
    rw [Value.inspect_hash, Value.literal]
    exact (means_hash (means_literalPairs
      (fun e he => means_scalar (keys e he) (Value.not_hasLeast_of_part hleast (.key he .self)))
      fun e he => ih e he (Value.not_hasLeast_of_part hleast (.entry he .self)))).loosest

/-- A token is no number that is too large to be read. -/
def Token.Small : Token → Prop
  | integer digits => decimal digits.toList ≤ Reader.largestInteger
  | _ => True

/-- Only a number can be too large, and none of an expression is. -/
theorem Grammar.composed_small : Composed fun ts => ∀ t ∈ ts, t.Small := by
  refine composed_forall (fun t ht => ?_) fun _ _ => trivial
  cases t with
  | integer digits => exact ht
  | _ => trivial

/-- Nothing that is read has a number in it that is too large. -/
theorem small_of_parse {source : String} {tree : Tree} (h : parse source = .ok tree) :
    ∀ t ∈ lexed source.toList, t.Small := by
  obtain ⟨lines, hlines, hts, -⟩ := parse_eq_ok_iff.1 h
  have hlexed : lexed source.toList = lineTokens lines := hts
  rw [hlexed]
  exact composed_small.lineTokens fun l hl => (hlines.derives l hl).composed composed_small

section

variable {text : String} {ts : List Token}

/-- The tokens that a text is read to are those that it has by itself. -/
theorem Spelled.eq_lexed (h : Spelled text ts) : lexed text.toList = ts := by
  have hlexed := h [] .nil
  rwa [List.append_nil, lexed_nil, List.append_nil] at hlexed

theorem Spelled.alone (h : Spelled text ts) : Spelled text (lexed text.toList) := h.eq_lexed ▸ h

/-- Texts that can stand anywhere can be listed. -/
theorem spelled_all {texts : List String} (h : ∀ text ∈ texts, Spelled text (lexed text.toList)) :
    List.Forall₂ Spelled texts (texts.map fun text => lexed text.toList) :=
  List.forall₂_map_right_iff.2 (List.forall₂_same.2 h)

/-- What a text is read to is part of what a list with it is read to. -/
theorem mem_enclosed {texts : List String} (h : text ∈ texts) {t : Token} (ht : t ∈ lexed text.toList)
    (opening closing : Symbol) :
    t ∈ enclosed opening (texts.map fun text => lexed text.toList) closing :=
  List.mem_cons_of_mem _ (List.mem_append_left _
    ((sublist_listed (fun text : String => lexed text.toList) h).subset ht))

end

namespace Value

/-- A negative number is read as an operator and a number. -/
theorem spelled_negative {n : Int64} {m : Nat} (h : n.toInt = .negSucc m) :
    Spelled (integer n).inspect [.symbol .minus, .integer (toString (m + 1))] := by
  intro rest hrest
  have htext : (integer n).inspect = "-" ++ toString (m + 1) := by
    rw [inspect_integer, h]
    rfl
  simp only [htext, String.toList_append, String.reduceToList, List.cons_append, List.nil_append]
  rw [lexed_symbol (s := .minus) rfl, spelled_digits (m + 1) rest hrest]
  rfl

theorem spelled_scalar {v : Value} (h : v.Scalar) : Spelled v.inspect (lexed v.inspect.toList) := by
  cases h with
  | boolean b =>
    obtain ⟨ts, -, hspelled⟩ := means_boolean b
    rw [inspect_boolean]
    exact hspelled.alone
  | integer n =>
    cases hn : n.toInt with
    | ofNat m =>
      rw [inspect_integer, hn]
      exact (spelled_digits m).alone
    | negSucc m => exact (spelled_negative hn).alone

/-- Data is printed so that it can stand anywhere. -/
theorem spelled_data {v : Value} (h : v.Data) : Spelled v.inspect (lexed v.inspect.toList) := by
  induction h with
  | scalar h => exact spelled_scalar h
  | array identity _ ih =>
    rw [inspect_array, inspectElements_eq_map]
    exact (spelled_bracketed (spelled_all (List.forall_mem_map.2 ih))).alone
  | hash identity keys _ ih =>
    rw [inspect_hash, inspectEntries_eq_map]
    exact (spelled_inBraces (spelled_all (List.forall_mem_map.2 fun e he =>
      (spelled_pair (spelled_scalar (keys e he)) (ih e he)).alone))).alone

/-- The least number is printed with a number that is too large. -/
theorem exists_not_small_scalar {v : Value} (h : v.Scalar) (hleast : v.HasLeast) :
    ∃ t ∈ lexed v.inspect.toList, ¬ t.Small := by
  cases h with
  | integer n =>
    cases hleast
    have hvalue : Int64.minValue.toInt = .negSucc Reader.largestInteger := by decide
    rw [(spelled_negative hvalue).eq_lexed]
    refine ⟨_, List.mem_cons_of_mem _ List.mem_cons_self, fun hsmall => ?_⟩
    rw [Token.Small, decimal_toString] at hsmall
    exact absurd hsmall (Nat.not_succ_le_self Reader.largestInteger)
  | boolean b => cases hleast

/-- Data in which the least number occurs is printed with a number that is too large. -/
theorem exists_not_small {v : Value} (h : v.Data) (hleast : v.HasLeast) :
    ∃ t ∈ lexed v.inspect.toList, ¬ t.Small := by
  induction h with
  | scalar h => exact exists_not_small_scalar h hleast
  | @array identity elements hdata ih =>
    cases hleast with
    | @element _ _ v mem hpart =>
      obtain ⟨t, ht, hlarge⟩ := ih v mem hpart
      have htext : v.inspect ∈ elements.map inspect := List.mem_map_of_mem mem
      rw [inspect_array, inspectElements_eq_map,
        (spelled_bracketed (spelled_all (List.forall_mem_map.2 fun v hv =>
          spelled_data (hdata v hv)))).eq_lexed]
      exact ⟨t, mem_enclosed htext ht _ _, hlarge⟩
  | @hash identity entries keys hdata ih =>
    have hpair : ∀ e ∈ entries, Spelled (e.2.1.inspect ++ ": " ++ e.2.2.inspect)
        (lexed e.2.1.inspect.toList ++ .symbol .colon :: lexed e.2.2.inspect.toList) := fun e he =>
      spelled_pair (spelled_scalar (keys e he)) (spelled_data (hdata e he))
    obtain ⟨e, he, t, ht, hlarge⟩ : ∃ e ∈ entries,
        ∃ t ∈ lexed (e.2.1.inspect ++ ": " ++ e.2.2.inspect).toList, ¬ t.Small := by
      cases hleast with
      | @key _ _ e mem hpart =>
        obtain ⟨t, ht, hlarge⟩ := exists_not_small_scalar (keys e mem) hpart
        refine ⟨e, mem, t, ?_, hlarge⟩
        rw [(hpair e mem).eq_lexed]
        exact List.mem_append_left _ ht
      | @entry _ _ e mem hpart =>
        obtain ⟨t, ht, hlarge⟩ := ih e mem hpart
        refine ⟨e, mem, t, ?_, hlarge⟩
        rw [(hpair e mem).eq_lexed]
        exact List.mem_append_right _ (List.mem_cons_of_mem _ ht)
    have htext : e.2.1.inspect ++ ": " ++ e.2.2.inspect ∈
        entries.map fun e => e.2.1.inspect ++ ": " ++ e.2.2.inspect :=
      List.mem_map.2 ⟨e, he, rfl⟩
    rw [inspect_hash, inspectEntries_eq_map,
      (spelled_inBraces (spelled_all (List.forall_mem_map.2 fun e he =>
        (hpair e he).alone))).eq_lexed]
    exact ⟨t, mem_enclosed htext ht _ _, hlarge⟩

/-- Data in which the least number occurs is printed with a text that is not read. -/
theorem parse_inspect_of_hasLeast {v : Value} (h : v.Data) (hleast : v.HasLeast) :
    ∃ diagnostics, parse v.inspect = .error diagnostics := by
  cases hparse : parse v.inspect with
  | error diagnostics => exact ⟨diagnostics, rfl⟩
  | ok tree =>
    obtain ⟨t, ht, hlarge⟩ := exists_not_small h hleast
    exact absurd (small_of_parse hparse t ht) hlarge

end Value

end Monkey
