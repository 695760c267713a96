import Monkey.Value.Key

/-!
# Tables

A finite map from hash keys, as the list of its entries in ascending order of their keys. That order
is the one in which a hash is written.
-/

namespace Monkey

/-- Entries by key. -/
abbrev Table (α : Type) := List (HashKey × α)

namespace Table

variable {α : Type}

/-- The entry of a key. -/
def find? (key : HashKey) : Table α → Option α
  | [] => none
  | (k, entry) :: entries => if k = key then some entry else find? key entries

/-- The table with the given entry for a key, whether or not there was one before. -/
def insert (key : HashKey) (entry : α) : Table α → Table α
  | [] => [(key, entry)]
  | (k, old) :: entries =>
    if key < k then (key, entry) :: (k, old) :: entries
    else if k = key then (key, entry) :: entries
    else (k, old) :: insert key entry entries

/-- Keys ascend. -/
def Ascending (t : Table α) : Prop := t.Pairwise (fun x y => x.1 < y.1)

@[simp] theorem find?_nil (key : HashKey) : find? key ([] : Table α) = none := rfl

/-- A table whose keys are all above a key has no entry for it. -/
theorem find?_eq_none_of_forall_lt {key : HashKey} {t : Table α} (h : ∀ x ∈ t, key < x.1) :
    find? key t = none := by
  induction t with
  | nil => rfl
  | cons x t ih =>
    obtain ⟨k, entry⟩ := x
    have hk : key < k := h (k, entry) (by simp)
    have hne : k ≠ key := fun e => by
      rw [e, HashKey.lt_iff] at hk
      omega
    rw [find?, if_neg hne]
    exact ih fun x hx => h x (by simp [hx])

/-- After an insertion, a key has the inserted entry if it is the inserted key, and otherwise the
entry that it had before. -/
theorem find?_insert (key : HashKey) (entry : α) (t : Table α) (sought : HashKey) :
    find? sought (insert key entry t) = if key = sought then some entry else find? sought t := by
  induction t with
  | nil => simp [insert, find?]
  | cons x t ih =>
    obtain ⟨k, old⟩ := x
    simp only [insert]
    split
    · rfl
    split
    · next h =>
      subst h
      simp only [find?]
      split <;> rfl
    · next h =>
      simp only [find?, ih]
      by_cases hs : k = sought
      · have : key ≠ sought := fun e => h (hs.trans e.symm)
        simp [hs, this]
      · simp [hs]

/-- The keys after an insertion are those before it and the inserted one. -/
theorem mem_insert_key {key : HashKey} {entry : α} {t : Table α} {x : HashKey × α}
    (h : x ∈ insert key entry t) : x = (key, entry) ∨ x ∈ t := by
  induction t with
  | nil => simpa [insert] using h
  | cons y t ih =>
    obtain ⟨k, old⟩ := y
    simp only [insert] at h
    split at h
    · simpa using h
    split at h
    · rcases List.mem_cons.1 h with rfl | h
      · exact .inl rfl
      · exact .inr (List.mem_cons_of_mem _ h)
    · rcases List.mem_cons.1 h with rfl | h
      · exact .inr (List.mem_cons_self)
      · exact (ih h).imp_right (List.mem_cons_of_mem _)

/-- Insertion keeps keys ascending. -/
theorem ascending_insert (key : HashKey) (entry : α) {t : Table α} (h : Ascending t) :
    Ascending (insert key entry t) := by
  induction t with
  | nil => simp [insert, Ascending]
  | cons x t ih =>
    obtain ⟨k, old⟩ := x
    rw [Ascending, List.pairwise_cons] at h
    simp only [insert]
    split
    · next hlt =>
      refine List.pairwise_cons.2 ⟨?_, List.pairwise_cons.2 h⟩
      intro y hy
      rcases List.mem_cons.1 hy with rfl | hy
      · exact hlt
      · exact Nat.lt_trans hlt (h.1 y hy)
    split
    · next hlt heq =>
      subst heq
      exact List.pairwise_cons.2 h
    · next hlt hne =>
      refine List.pairwise_cons.2 ⟨?_, ih h.2⟩
      intro y hy
      rcases mem_insert_key hy with rfl | hy
      · exact Nat.lt_of_le_of_ne (Nat.not_lt.1 hlt) fun e => hne (HashKey.rank_inj e)
      · exact h.1 y hy

end Table

end Monkey
