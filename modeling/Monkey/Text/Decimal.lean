/-!
# Decimal digits

The number that a run of decimal digits stands for, whatever its length and its leading zeros.
-/

namespace Monkey

/-- What a decimal digit is worth by itself. -/
def digitValue (c : Char) : Nat := c.toNat - 48

/-- The number written by a run of decimal digits. -/
def decimal (cs : List Char) : Nat := cs.foldl (fun n c => 10 * n + digitValue c) 0

/-- A further digit multiplies by ten and adds its own worth. -/
theorem decimal_append_digit (cs : List Char) (c : Char) :
    decimal (cs ++ [c]) = 10 * decimal cs + digitValue c := by
  simp only [decimal, List.foldl_append, List.foldl_cons, List.foldl_nil]

end Monkey
