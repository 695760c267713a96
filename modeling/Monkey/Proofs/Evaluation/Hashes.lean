import Monkey.Proofs.Evaluation.Congruence
import Monkey.Proofs.Evaluation.Tables

/-!
# Hashes are finite maps

A hash files each entry under the key of its key value, in the order of the keys, in every state of a
course. A hash literal files its pairs one after another, so that of equal keys the last one counts, and
the order in which pairs are written matters in no other way: not to what is found, nor to equality, nor to
what is printed.
-/

namespace Monkey

/-- The bits of a number as a natural number: those of negative ones come after all others. -/
theorem toNat_toUInt64 (n : Int64) :
    (n.toUInt64.toNat : Int) = if n.toInt < 0 then n.toInt + UInt64.size else n.toInt := by
  have hint : n.toInt = n.toBitVec.toInt := rfl
  have hnat : n.toUInt64.toNat = n.toBitVec.toNat := rfl
  have hlt := n.toBitVec.isLt
  rw [hint, hnat, BitVec.toInt_eq_toNat_cond, UInt64.size]
  split <;> split <;> omega

namespace HashKey

/-- Keys are ordered by their sorts first, and by their codes then. -/
theorem lt_iff_lex {k l : HashKey} :
    k < l ↔ k.sort.rank < l.sort.rank ∨ k.sort.rank = l.sort.rank ∧ k.code.toNat < l.code.toNat := by
  have hk := k.code.toNat_lt
  have hl := l.code.toNat_lt
  rw [lt_iff, rank, rank, UInt64.size]
  omega

theorem ofInteger_inj {m n : Int64} : ofInteger m = ofInteger n ↔ m = n := by
  refine ⟨fun h => ?_, fun h => h ▸ rfl⟩
  have hbits : m.toUInt64 = n.toUInt64 := congrArg code h
  exact Int64.toBitVec_inj.1 (congrArg UInt64.toBitVec hbits)

theorem ofBoolean_inj {a b : Bool} : ofBoolean a = ofBoolean b ↔ a = b := by
  cases a <;> cases b <;> decide

theorem ofText_inj {s t : String} : ofText s = ofText t ↔ Digest.ofText s = Digest.ofText t := by
  simp [ofText]

end HashKey

namespace Value

variable {u v : Value} {key : HashKey}

/-- Values can be keys if they are numbers, truth values or texts. -/
theorem exists_key?_iff : (∃ key, v.key? = some key) ↔ v.type ∈ [.integer, .boolean, .string] := by
  cases v <;> simp [key?, type]

/-- Values are one key when they are equal numbers, equal truth values, or texts with one digest. -/
theorem key?_eq_iff : (∃ key, u.key? = some key ∧ v.key? = some key) ↔
    (∃ n, u = .integer n ∧ v = .integer n) ∨ (∃ b, u = .boolean b ∧ v = .boolean b) ∨
      ∃ s t, u = .string s ∧ v = .string t ∧ Digest.ofText s = Digest.ofText t := by
  cases u with
  | integer m =>
    cases v with
    | integer n => simp [key?, HashKey.ofInteger_inj, eq_comm]
    | boolean b => simp [key?, HashKey.ofInteger, HashKey.ofBoolean]
    | string t => simp [key?, HashKey.ofInteger, HashKey.ofText]
    | _ => simp [key?]
  | boolean a =>
    cases v with
    | integer n => simp [key?, HashKey.ofInteger, HashKey.ofBoolean]
    | boolean b => simp [key?, HashKey.ofBoolean_inj, eq_comm]
    | string t => simp [key?, HashKey.ofBoolean, HashKey.ofText]
    | _ => simp [key?]
  | string s =>
    cases v with
    | integer n => simp [key?, HashKey.ofInteger, HashKey.ofText]
    | boolean b => simp [key?, HashKey.ofBoolean, HashKey.ofText]
    | string t => simp [key?, HashKey.ofText_inj, eq_comm]
    | _ => simp [key?]
  | _ => simp [key?]

/-- The order in which the entries of a hash are printed, by their key values: numbers from zero upwards,
then negative numbers upwards, then `false` and `true`, then texts by their digests. -/
inductive KeyBefore : Value → Value → Prop where
  | natural {m n : Int64} (zero : 0 ≤ m.toInt) (lt : m.toInt < n.toInt) :
      KeyBefore (.integer m) (.integer n)
  | negative {m n : Int64} (lt : m.toInt < n.toInt) (zero : n.toInt < 0) :
      KeyBefore (.integer m) (.integer n)
  | sign {m n : Int64} (natural : 0 ≤ m.toInt) (negative : n.toInt < 0) :
      KeyBefore (.integer m) (.integer n)
  | integerBoolean (n : Int64) (b : Bool) : KeyBefore (.integer n) (.boolean b)
  | integerString (n : Int64) (text : String) : KeyBefore (.integer n) (.string text)
  | falseTrue : KeyBefore (.boolean false) (.boolean true)
  | booleanString (b : Bool) (text : String) : KeyBefore (.boolean b) (.string text)
  | digest {s t : String} (lt : Digest.ofText s < Digest.ofText t) : KeyBefore (.string s) (.string t)

/-- The order of keys is that order. -/
theorem keyBefore_of_lt {k l : HashKey} (hu : u.key? = some k) (hv : v.key? = some l) (hlt : k < l) :
    u.KeyBefore v := by
  rw [HashKey.lt_iff_lex] at hlt
  cases u with
  | integer m =>
    cases hu
    cases v with
    | integer n =>
      cases hv
      have hcodes : m.toUInt64.toNat < n.toUInt64.toNat := by
        simpa [HashKey.ofInteger] using hlt
      have hm := toNat_toUInt64 m
      have hn := toNat_toUInt64 n
      rw [UInt64.size] at hm hn
      have hmle := m.le_toInt
      have hnlt := n.toInt_lt
      by_cases hnegative : n.toInt < 0
      · by_cases hnatural : 0 ≤ m.toInt
        · exact .sign hnatural hnegative
        · refine .negative ?_ hnegative
          rw [if_pos (Int.not_le.1 hnatural)] at hm
          rw [if_pos hnegative] at hn
          omega
      · rw [if_neg hnegative] at hn
        have hnatural : 0 ≤ m.toInt := by
          split at hm <;> omega
        rw [if_neg (Int.not_lt.2 hnatural)] at hm
        exact .natural hnatural (by omega)
    | boolean b => exact .integerBoolean m b
    | string t => exact .integerString m t
    | _ => cases hv
  | boolean a =>
    cases hu
    cases v with
    | integer n =>
      cases hv
      simp [HashKey.ofInteger, HashKey.ofBoolean, KeySort.rank] at hlt
    | boolean b =>
      cases hv
      cases a <;> cases b <;> simp [HashKey.ofBoolean] at hlt
      exact .falseTrue
    | string t => exact .booleanString a t
    | _ => cases hv
  | string s =>
    cases hu
    cases v with
    | integer n =>
      cases hv
      simp [HashKey.ofInteger, HashKey.ofText, KeySort.rank] at hlt
    | boolean b =>
      cases hv
      simp [HashKey.ofBoolean, HashKey.ofText, KeySort.rank] at hlt
    | string t =>
      cases hv
      exact .digest (UInt64.lt_iff_toNat_lt.2 (by simpa [HashKey.ofText] using hlt))
    | _ => cases hv
  | _ => cases hu

end Value

/-! ## Hashes of a course -/

namespace Course

variable {sink : Sink} {programs : List Program} {past : List Machine} {m : Machine}

/-- In a course, all hashes are well filed. -/
theorem wellFiled (h : Course sink programs past m) {i : Identity} {entries : Table (Value × Value)}
    (hocc : OccursIn (past ++ [m]) (.hash i entries)) :
    Table.Ascending entries ∧ ∀ e ∈ entries, e.2.1.key? = some e.1 := by
  obtain ⟨x, hx, hcontains⟩ := hocc
  exact (h.keeps lasting_wellFiled (fun _ _ _ _ => trivial) x hx).has hcontains.has

end Course

/-- Entries that are well filed are in the order in which they are to be printed. -/
theorem Table.Ascending.pairwise_keyBefore {entries : Table (Value × Value)}
    (h : Table.Ascending entries) (hkeys : ∀ e ∈ entries, e.2.1.key? = some e.1) :
    entries.Pairwise fun d e => d.2.1.KeyBefore e.2.1 :=
  h.imp_of_mem fun hd he hlt => Value.keyBefore_of_lt (hkeys _ hd) (hkeys _ he) hlt

/-! ## Hash literals -/

/-- The keys and values of pairs are evaluated in turn, each key to something that can be one and each value
to something that is no signal. -/
inductive PairsGive (depth : Nat) (scope : ScopeId) :
    List (Expr Site × Expr Site) → World → List (HashKey × Value × Value) → World → Prop where
  /-- No pairs are left. -/
  | nil (w : World) : PairsGive depth scope [] w [] w
  /-- A key and its value come before the others. -/
  | cons {key value : Expr Site} {pairs : List (Expr Site × Expr Site)} {w w₁ w₂ w' : World}
      {hashKey : HashKey} {k v : Value} {kvs : List (HashKey × Value × Value)}
      (first : (Eval.expression (Eval.apply depth) scope key).run w = some (k, w₁))
      (hashable : k.key? = some hashKey)
      (second : (Eval.expression (Eval.apply depth) scope value).run w₁ = some (v, w₂))
      (plain : v.isSignal = false) (others : PairsGive depth scope pairs w₂ kvs w') :
      PairsGive depth scope ((key, value) :: pairs) w ((hashKey, k, v) :: kvs) w'

variable {depth : Nat} {scope : ScopeId} {pairs : List (Expr Site × Expr Site)} {w w' : World}
  {kvs : List (HashKey × Value × Value)}

/-- Nothing that can be a key is a signal. -/
theorem Value.isSignal_of_key? {k : Value} {hashKey : HashKey} (h : k.key? = some hashKey) :
    k.isSignal = false := by
  cases k <;> first | rfl | cases h

/-- The pairs are filed one after another. -/
theorem PairsGive.runs (h : PairsGive depth scope pairs w kvs w') (table : Table (Value × Value)) :
    Runs depth (.entries scope table pairs) w
      (.hash w'.nextIdentity (kvs.foldl (fun t e => Table.insert e.1 e.2 t) table))
      w'.takeIdentity.2 := by
  induction h generalizing table with
  | nil w => exact .done rfl
  | @cons key value pairs w w₁ w₂ w' hashKey k v kvs first hashable second plain others ih =>
    have hkey : Runs depth (.expression scope key) w k w₁ := runs_iff.2 first
    have hvalue : Runs depth (.expression scope value) w₁ v w₂ := runs_iff.2 second
    have hfile : (Frame.next k (.key scope table value pairs)).begin w₁ =
        .await (.expression scope value) (.entry scope table hashKey k pairs) := by
      simp only [Frame.next, Task.begin, Operation.begin, hashable]
    have hrest : Runs depth (Frame.next v (.entry scope table hashKey k pairs)) w₂ _ _ :=
      ih (Table.insert hashKey (k, v) table)
    exact .next rfl hkey (Value.isSignal_of_key? hashable) (.next hfile hvalue plain hrest)

/-- A hash literal makes the hash of its pairs. -/
theorem PairsGive.literal (h : PairsGive depth scope pairs w kvs w') :
    (Eval.expression (Eval.apply depth) scope (.hash pairs)).run w =
      some (.hash w'.nextIdentity (Table.ofPairs kvs), w'.takeIdentity.2) := by
  have hliteral : Runs depth (.expression scope (.hash pairs)) w
      (.hash w'.nextIdentity (Table.ofPairs kvs)) w'.takeIdentity.2 := .become rfl (h.runs [])
  exact runs_iff.1 hliteral

namespace Value

variable {i j : Identity} {q k v : Value} {key : HashKey} {entries : Table (Value × Value)}

theorem index_hash (hq : q.key? = some key) :
    index (.hash i entries) q = .ok (((Table.find? key entries).map Prod.snd).getD .null) := by
  simp only [index, hq]

/-- Indexing finds the value of the last pair with the key. -/
theorem index_of_last (hq : q.key? = some key) {n : Nat} (hlast : Table.Last kvs n (key, k, v)) :
    index (.hash i (Table.ofPairs kvs)) q = .ok v := by
  rw [index_hash hq, Table.find?_ofPairs, Table.last?_eq_some_iff.2 ⟨n, hlast⟩]
  rfl

/-- Indexing finds `null` if no pair has the key. -/
theorem index_of_absent (hq : q.key? = some key) (habsent : ∀ e ∈ kvs, e.1 ≠ key) :
    index (.hash i (Table.ofPairs kvs)) q = .ok .null := by
  have hnone : Table.last? key kvs = none :=
    Table.find?_eq_none_iff.2 fun e he => habsent e (List.mem_reverse.1 he)
  rw [index_hash hq, Table.find?_ofPairs, hnone]
  rfl

/-- Pairs make equal hashes if the last ones for each key are equal. -/
theorem same_ofPairs {other : List (HashKey × Value × Value)}
    (h : ∀ key, Option.Rel (fun d e : Value × Value => d.1.same e.1 = true ∧ d.2.same e.2 = true)
      (Table.last? key kvs) (Table.last? key other)) :
    (Value.hash i (Table.ofPairs kvs)).same (.hash j (Table.ofPairs other)) = true := by
  have hforms : (Table.ofPairs kvs).map (fun e => (e.1, Prod.map form form e.2)) =
      (Table.ofPairs other).map fun e => (e.1, Prod.map form form e.2) := by
    refine ((Table.ascending_ofPairs kvs).map _).ext ((Table.ascending_ofPairs other).map _) fun key => ?_
    rw [Table.find?_map, Table.find?_map, Table.find?_ofPairs, Table.find?_ofPairs]
    have hkey := h key
    generalize Table.last? key kvs = x at hkey ⊢
    generalize Table.last? key other = y at hkey ⊢
    cases hkey with
    | none => rfl
    | some hsame =>
      simp only [Option.map_some, Prod.map, same_iff.1 hsame.1, same_iff.1 hsame.2]
  rw [same_iff, form, form, formEntries_eq_map, formEntries_eq_map]
  exact congrArg (hash 0) hforms

end Value

/-- Hashes are finite maps from keys. In a course, every hash has its entries under the keys of their key
values, and it is printed with numbers first, then truth values, then texts. A hash literal makes the table
of its pairs: one entry for each key that occurs, which is the last pair with that key, and indexing finds
its value, or `null` for a key that does not occur. Only the last pair for each key matters: to equality
and to what is printed it is enough that they are equal, and if keys are distinct, pairs can come in any
order. Two values are one key when they are equal numbers, equal truth values, or texts with one digest. -/
theorem hashes_are_finite_maps {sink : Sink} {programs : List Program} {past : List Machine}
    {m : Machine} (h : Course sink programs past m) :
    (∀ i entries, OccursIn (past ++ [m]) (.hash i entries) →
      (∀ e ∈ entries, e.2.1.key? = some e.1) ∧ Table.Ascending entries ∧
        entries.Pairwise (fun d e => d.2.1.KeyBefore e.2.1) ∧
        (Value.hash i entries).inspect = "\x7b" ++ ", ".intercalate
          (entries.map fun e => e.2.1.inspect ++ ": " ++ e.2.2.inspect) ++ "\x7d") ∧
    (∀ depth scope pairs w kvs w', PairsGive depth scope pairs w kvs w' →
      (Eval.expression (Eval.apply depth) scope (.hash pairs)).run w =
        some (.hash w'.nextIdentity (Table.ofPairs kvs), w'.takeIdentity.2)) ∧
    (∀ kvs : List (HashKey × Value × Value),
      ((Table.ofPairs kvs).map Prod.fst).Nodup ∧
      (∀ key, key ∈ (Table.ofPairs kvs).map Prod.fst ↔ key ∈ kvs.map Prod.fst) ∧
      (∀ e, e ∈ Table.ofPairs kvs ↔ ∃ n, Table.Last kvs n e) ∧
      ∀ i q key, Value.key? q = some key →
        (∀ n k v, Table.Last kvs n (key, k, v) →
          Value.index (.hash i (Table.ofPairs kvs)) q = .ok v) ∧
        ((∀ e ∈ kvs, e.1 ≠ key) → Value.index (.hash i (Table.ofPairs kvs)) q = .ok .null)) ∧
    (∀ kvs other : List (HashKey × Value × Value),
      (∀ key, Table.last? key kvs = Table.last? key other) →
        Table.ofPairs kvs = Table.ofPairs other) ∧
    (∀ (kvs other : List (HashKey × Value × Value)) i j,
      (∀ key, Option.Rel (fun d e => d.1.same e.1 = true ∧ d.2.same e.2 = true)
        (Table.last? key kvs) (Table.last? key other)) →
      (Value.hash i (Table.ofPairs kvs)).same (.hash j (Table.ofPairs other)) = true ∧
      (OccursIn (past ++ [m]) (.hash i (Table.ofPairs kvs)) →
        OccursIn (past ++ [m]) (.hash j (Table.ofPairs other)) →
          (Value.hash i (Table.ofPairs kvs)).LooksLike (.hash j (Table.ofPairs other)))) ∧
    (∀ kvs other : List (HashKey × Value × Value), kvs.Perm other → (kvs.map Prod.fst).Nodup →
      Table.ofPairs kvs = Table.ofPairs other) ∧
    (∀ v : Value, (∃ key, v.key? = some key) ↔ v.type ∈ [.integer, .boolean, .string]) ∧
    ∀ u v : Value, (∃ key, u.key? = some key ∧ v.key? = some key) ↔
      (∃ n, u = .integer n ∧ v = .integer n) ∨ (∃ b, u = .boolean b ∧ v = .boolean b) ∨
        ∃ s t, u = .string s ∧ v = .string t ∧ Digest.ofText s = Digest.ofText t := by
  refine ⟨fun i entries hocc => ?_, fun _ _ _ _ _ _ hgive => hgive.literal, fun kvs => ?_,
    fun _ _ => Table.ofPairs_congr, fun kvs other i j hlast => ?_,
    fun _ _ hperm hnodup => Table.ofPairs_congr (Table.last?_eq_of_perm hperm hnodup),
    fun _ => Value.exists_key?_iff, fun _ _ => Value.key?_eq_iff⟩
  · obtain ⟨hascending, hkeys⟩ := h.wellFiled hocc
    exact ⟨hkeys, hascending, hascending.pairwise_keyBefore hkeys, by
      rw [Value.inspect_hash, Value.inspectEntries_eq_map]⟩
  · exact ⟨(Table.ascending_ofPairs kvs).nodup_keys, fun _ => Table.mem_keys_ofPairs_iff,
      fun _ => Table.mem_ofPairs_iff, fun _ _ _ hq =>
        ⟨fun _ _ _ => Value.index_of_last hq, Value.index_of_absent hq⟩⟩
  · have hsame := @Value.same_ofPairs kvs i j other hlast
    exact ⟨hsame, fun hocc hocc' => h.looksLike hocc hocc' hsame⟩

/-- A program gives a hash literal with a negative key and a repeated one. The entries are in order, and of
the repeated key the later pair counts. -/
theorem repeated_key_counts_last :
    let tree : Tree := [.expression (.hash [(.integer 2, .string "a"),
      (.unary (.symbol .minus) (.integer 1), .string "b"), (.integer 2, .string "c")])]
    let entries : Table (Value × Value) := [(.ofInteger 2, .integer 2, .string "c"),
      (.ofInteger (-1), .integer (-1), .string "b")]
    ∃ past w, Course .unlimited [place 0 tree] past ⟨.value (.hash 0 entries), [], w⟩ ∧
      (∀ e ∈ entries, e.2.1.key? = some e.1) ∧
      entries.Pairwise (fun d e => d.2.1.KeyBefore e.2.1) ∧
      (Value.hash 0 entries).inspect = "\x7b2: c, -1: b\x7d" := by
  intro tree entries
  let w := ((World.initial .unlimited).enrol tree).2
  have hpairs : PairsGive 0 globalScope [(.integer 2, .string "a"),
      (.unary (.symbol .minus) (.integer 1), .string "b"), (.integer 2, .string "c")] w
      [(.ofInteger 2, .integer 2, .string "a"), (.ofInteger (-1), .integer (-1), .string "b"),
        (.ofInteger 2, .integer 2, .string "c")] w :=
    .cons rfl rfl rfl rfl (.cons rfl rfl rfl rfl (.cons rfl rfl rfl rfl (.nil w)))
  have htable : Table.ofPairs [(HashKey.ofInteger 2, Value.integer 2, Value.string "a"),
      (.ofInteger (-1), .integer (-1), .string "b"), (.ofInteger 2, .integer 2, .string "c")] =
        entries := by
    have hlt : ¬ HashKey.ofInteger (-1) < HashKey.ofInteger 2 := by decide
    have hself : ¬ HashKey.ofInteger 2 < HashKey.ofInteger 2 := by decide
    have hne : HashKey.ofInteger 2 ≠ HashKey.ofInteger (-1) := by decide
    simp [Table.ofPairs, Table.insert, hlt, hself, hne, entries]
  have hliteral := hpairs.literal
  rw [htable] at hliteral
  have hrun : (Eval.program 0 globalScope (place 0 tree)).run w =
      some (.hash 0 entries, w.takeIdentity.2) :=
    program_eq_some_iff.2
      ⟨.hash 0 entries, .next rfl (.become rfl (runs_iff.2 hliteral)) rfl (.done rfl), rfl⟩
  obtain ⟨past, hcourse⟩ := Course.of_program hrun
  obtain ⟨hkeys, -, hbefore, -⟩ :=
    (hashes_are_finite_maps hcourse).1 0 entries (occursIn_of_part .self)
  exact ⟨past, _, hcourse, hkeys, hbefore, rfl⟩

end Monkey
