/-!
# Indices

Positions in a list count from zero; negative ones count from its end.
-/

namespace WeakForm

/-- The position that an index names in a list of `n` items. -/
def position? (n : Nat) (i : Int) : Option Nat :=
  if 0 ≤ i then
    if i < n then some i.toNat else none
  else if 0 ≤ i + n then some (i + n).toNat
  else none

theorem position?_natCast {n k : Nat} (h : k < n) : position? n (k : Int) = some k := by
  simp [position?, h]

end WeakForm
