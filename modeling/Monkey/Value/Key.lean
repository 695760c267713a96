import Monkey.Text.Digest

/-!
# Hash keys

The key under which a hash files an entry: the sort of the key value and a 64-bit code of it. Keys
are ordered by sort and then by code.
-/

namespace Monkey

/-- The sorts of values that can be keys, in their order. -/
inductive KeySort where
  | integer | boolean | string
  deriving DecidableEq, Repr

/-- The place of a sort in the order. -/
def KeySort.rank : KeySort → Nat
  | integer => 0
  | boolean => 1
  | string => 2

/-- The key of an entry. -/
structure HashKey where
  /-- What sort of value the key is made from. -/
  sort : KeySort
  /-- The code of that value among those of its sort. -/
  code : UInt64
  deriving DecidableEq, Repr

namespace HashKey

/-- The key of an integer: its two's complement bits, so that negative ones come last. -/
def ofInteger (n : Int64) : HashKey := ⟨.integer, n.toUInt64⟩

/-- The key of a truth value. -/
def ofBoolean (b : Bool) : HashKey := ⟨.boolean, if b then 1 else 0⟩

/-- The key of a text: its digest. Texts of equal digest are one key. -/
def ofText (text : String) : HashKey := ⟨.string, Digest.ofText text⟩

/-- The place of a key among all keys. -/
def rank (k : HashKey) : Nat := k.sort.rank * UInt64.size + k.code.toNat

instance : LT HashKey := ⟨fun k l => k.rank < l.rank⟩

instance (k l : HashKey) : Decidable (k < l) := inferInstanceAs (Decidable (k.rank < l.rank))

theorem lt_iff {k l : HashKey} : k < l ↔ k.rank < l.rank := Iff.rfl

/-- A key is determined by its place. -/
theorem rank_inj {k l : HashKey} (h : k.rank = l.rank) : k = l := by
  obtain ⟨ks, kc⟩ := k
  obtain ⟨ls, lc⟩ := l
  have hk := kc.toNat_lt
  have hl := lc.toNat_lt
  have hs : ks = ls := by
    cases ks <;> cases ls <;> first | rfl | (simp only [rank, KeySort.rank, UInt64.size] at h; omega)
  subst hs
  simp only [rank, Nat.add_left_cancel_iff] at h
  rw [UInt64.toNat_inj.1 h]

end HashKey

end Monkey
