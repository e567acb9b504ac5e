namespace SimpleLR.Text

/-- A class of characters: the code points in any of some ranges, both ends included. -/
structure CharClass where
  ranges : List (Nat × Nat)

def CharClass.contains (k : CharClass) (c : Char) : Bool :=
  k.ranges.any fun (low, high) => low ≤ c.toNat && c.toNat ≤ high

theorem CharClass.contains_iff {k : CharClass} {c : Char} :
    k.contains c = true ↔ ∃ r ∈ k.ranges, r.1 ≤ c.toNat ∧ c.toNat ≤ r.2 := by
  simp [CharClass.contains]

end SimpleLR.Text
