import Mathlib.Data.List.Induction
import Mathlib.Data.List.Nodup
import Monkey.Proofs.Evaluation.Course

/-!
# Tables from pairs

Filing pairs one after another makes a table in which every key has the entry that came last for it. Since
the keys of a table ascend, the table is determined by what is found under each key, so pairs can come in
any order as long as the last one for each key is the same.
-/

namespace Monkey.Table

variable {α β : Type} {key : HashKey} {entry : α} {t u : Table α} {kvs : List (HashKey × α)}

theorem find?_cons_self (key : HashKey) (entry : α) (t : Table α) :
    find? key ((key, entry) :: t) = some entry := by
  rw [find?, if_pos rfl]

theorem find?_cons_of_ne {k : HashKey} (h : k ≠ key) (entry : α) (t : Table α) :
    find? key ((k, entry) :: t) = find? key t := by
  rw [find?, if_neg h]

/-- Keys that ascend are not repeated. -/
theorem Ascending.nodup_keys (h : Ascending t) : (t.map Prod.fst).Nodup := by
  rw [List.Nodup, List.pairwise_map]
  refine h.imp ?_
  intro d e hlt heq
  rw [heq, HashKey.lt_iff] at hlt
  exact Nat.lt_irrefl _ hlt

/-- What is in a table is what is found in it. -/
theorem mem_iff_find? (h : (t.map Prod.fst).Nodup) {e : HashKey × α} :
    e ∈ t ↔ find? e.1 t = some e.2 := by
  induction t with
  | nil => simp
  | cons x t ih =>
    obtain ⟨k, other⟩ := x
    obtain ⟨key, entry⟩ := e
    rw [List.map_cons, List.nodup_cons] at h
    rw [List.mem_cons]
    by_cases hk : k = key
    · subst hk
      have habsent : (k, entry) ∉ t := fun hmem => h.1 (List.mem_map.2 ⟨_, hmem, rfl⟩)
      rw [find?_cons_self, or_iff_left habsent, Prod.mk.injEq, and_iff_right rfl, Option.some.injEq,
        eq_comm]
    · have hne : (key, entry) ≠ (k, other) := fun heq => hk (congrArg Prod.fst heq).symm
      rw [find?_cons_of_ne hk, or_iff_right hne]
      exact ih h.2

/-- A table is determined by what is found in it. -/
theorem Ascending.ext (ht : Ascending t) (hu : Ascending u) (h : ∀ key, find? key t = find? key u) :
    t = u := by
  have hperm : t.Perm u := by
    refine (List.perm_ext_iff_of_nodup (ht.nodup_keys.of_map _) (hu.nodup_keys.of_map _)).2 fun e => ?_
    rw [mem_iff_find? ht.nodup_keys, mem_iff_find? hu.nodup_keys, h]
  refine hperm.eq_of_pairwise (fun d e _ _ hlt hgt => ?_) ht hu
  exact absurd hgt (Nat.lt_asymm hlt : ¬ _ < _)

/-- Nothing is found but what some pair has. -/
theorem find?_eq_none_iff : find? key t = none ↔ ∀ e ∈ t, e.1 ≠ key := by
  induction t with
  | nil => simp
  | cons x t ih =>
    obtain ⟨k, other⟩ := x
    rw [List.forall_mem_cons]
    by_cases hk : k = key
    · subst hk
      simp [find?_cons_self]
    · rw [find?_cons_of_ne hk, ih, and_iff_right hk]

/-- What is found in a table whose entries are replaced is what replaces the one that was found. -/
theorem find?_map (f : α → β) (key : HashKey) (t : Table α) :
    find? key (t.map fun e => (e.1, f e.2)) = (find? key t).map f := by
  induction t with
  | nil => rfl
  | cons x t ih =>
    obtain ⟨k, other⟩ := x
    rw [List.map_cons]
    by_cases hk : k = key
    · subst hk
      rw [find?_cons_self, find?_cons_self]
      rfl
    · rw [find?_cons_of_ne hk, find?_cons_of_ne hk, ih]

theorem Ascending.map (h : Ascending t) (f : α → β) : Ascending (t.map fun e => (e.1, f e.2)) :=
  List.pairwise_map.2 h

/-- The table in which pairs are filed one after another. -/
def ofPairs (kvs : List (HashKey × α)) : Table α :=
  kvs.foldl (fun t e => insert e.1 e.2 t) []

theorem ofPairs_concat (kvs : List (HashKey × α)) (e : HashKey × α) :
    ofPairs (kvs ++ [e]) = insert e.1 e.2 (ofPairs kvs) := by
  rw [ofPairs, List.foldl_append]
  rfl

theorem ascending_ofPairs (kvs : List (HashKey × α)) : Ascending (ofPairs kvs) := by
  induction kvs using List.reverseRecOn with
  | nil => exact .nil
  | append_singleton kvs e ih =>
    rw [ofPairs_concat]
    exact ascending_insert e.1 e.2 ih

/-- What the last pair with a key has. -/
def last? (key : HashKey) (kvs : List (HashKey × α)) : Option α := find? key kvs.reverse

/-- In a table from pairs, a key has what the last pair with the key has. -/
theorem find?_ofPairs (key : HashKey) (kvs : List (HashKey × α)) :
    find? key (ofPairs kvs) = last? key kvs := by
  induction kvs using List.reverseRecOn with
  | nil => rfl
  | append_singleton kvs e ih =>
    rw [ofPairs_concat, find?_insert, last?, List.reverse_append, ih]
    rfl

/-- The pair stands at the position, and no later one has its key. -/
def Last (kvs : List (HashKey × α)) (j : Nat) (e : HashKey × α) : Prop :=
  kvs[j]? = some e ∧ ∀ l d, j < l → kvs[l]? = some d → d.1 ≠ e.1

/-- Of pairs with a further one at the end, that one is the last with its key, and for other keys nothing
changes. -/
theorem last_concat {x e : HashKey × α} {j : Nat} :
    Last (kvs ++ [x]) j e ↔ j = kvs.length ∧ x = e ∨ Last kvs j e ∧ x.1 ≠ e.1 := by
  constructor
  · rintro ⟨hj, hlater⟩
    rcases getElem?_concat_eq_some_iff.1 hj with hj | ⟨rfl, rfl⟩
    · have hlt : j < kvs.length := (List.getElem?_eq_some_iff.1 hj).1
      exact .inr ⟨⟨hj, fun l d hl hd => hlater l d hl (getElem?_concat_eq_some_iff.2 (.inl hd))⟩,
        hlater kvs.length x hlt (getElem?_concat_eq_some_iff.2 (.inr ⟨rfl, rfl⟩))⟩
    · exact .inl ⟨rfl, rfl⟩
  · rintro (⟨rfl, rfl⟩ | ⟨⟨hj, hlater⟩, hne⟩)
    · refine ⟨getElem?_concat_eq_some_iff.2 (.inr ⟨rfl, rfl⟩), fun l d hl hd => ?_⟩
      have hlt : l < (kvs ++ [x]).length := (List.getElem?_eq_some_iff.1 hd).1
      rw [List.length_append, List.length_singleton] at hlt
      omega
    · refine ⟨getElem?_concat_eq_some_iff.2 (.inl hj), fun l d hl hd => ?_⟩
      rcases getElem?_concat_eq_some_iff.1 hd with hd | ⟨rfl, rfl⟩
      · exact hlater l d hl hd
      · exact hne

/-- The last pair with a key stands at some position. -/
theorem last?_eq_some_iff : last? key kvs = some entry ↔ ∃ j, Last kvs j (key, entry) := by
  rw [last?]
  induction kvs using List.reverseRecOn with
  | nil => simp [Last]
  | append_singleton kvs x ih =>
    obtain ⟨k, other⟩ := x
    simp only [List.reverse_append, List.reverse_singleton, List.singleton_append, last_concat]
    by_cases hk : k = key
    · subst hk
      simp [find?_cons_self]
    · rw [find?_cons_of_ne hk, ih]
      simp [hk]

/-- A table from pairs has the last pair for each key, and no others. -/
theorem mem_ofPairs_iff {e : HashKey × α} : e ∈ ofPairs kvs ↔ ∃ j, Last kvs j e := by
  rw [mem_iff_find? (ascending_ofPairs kvs).nodup_keys, find?_ofPairs, last?_eq_some_iff]

/-- A table from pairs has the keys of the pairs. -/
theorem mem_keys_ofPairs_iff : key ∈ (ofPairs kvs).map Prod.fst ↔ key ∈ kvs.map Prod.fst := by
  have hnone (t : Table α) : key ∉ t.map Prod.fst ↔ find? key t = none := by
    rw [find?_eq_none_iff, List.mem_map, not_exists]
    simp only [not_and]
  rw [← not_iff_not, hnone, find?_ofPairs, last?, ← hnone, List.map_reverse, List.mem_reverse]

/-- Pairs make the same table if the last one for each key is the same. -/
theorem ofPairs_congr {other : List (HashKey × α)} (h : ∀ key, last? key kvs = last? key other) :
    ofPairs kvs = ofPairs other :=
  (ascending_ofPairs kvs).ext (ascending_ofPairs other) fun key => by
    rw [find?_ofPairs, find?_ofPairs, h]

/-- Of pairs with distinct keys, each is the last one for its key. -/
theorem last?_eq_some_iff_mem (h : (kvs.map Prod.fst).Nodup) :
    last? key kvs = some entry ↔ (key, entry) ∈ kvs := by
  have hreverse : (kvs.reverse.map Prod.fst).Nodup := by
    rwa [List.map_reverse, List.nodup_reverse]
  rw [← List.mem_reverse, mem_iff_find? hreverse, last?]

/-- Pairs with distinct keys can come in any order. -/
theorem last?_eq_of_perm {other : List (HashKey × α)} (hperm : kvs.Perm other)
    (hnodup : (kvs.map Prod.fst).Nodup) (key : HashKey) : last? key kvs = last? key other :=
  Option.ext fun entry => by
    rw [last?_eq_some_iff_mem hnodup,
      last?_eq_some_iff_mem ((hperm.map Prod.fst).nodup_iff.1 hnodup), hperm.mem_iff]

end Monkey.Table
