namespace SimpleLR

inductive Action where
  | shift (state : Nat)
  | reduce (production : Nat)
  | accept
deriving DecidableEq, Repr

namespace Action

def rank : Action → Nat
  | shift _ => 0
  | reduce _ => 1
  | accept => 2

def number : Action → Nat
  | shift i => i
  | reduce i => i
  | accept => 0

/-- Shifts come first, by state, then reductions, by production, then acceptance. -/
instance : Ord Action :=
  ⟨compareLex (compareOn rank) (compareOn number)⟩

instance : Std.TransOrd Action :=
  inferInstanceAs (Std.TransCmp (compareLex (compareOn rank) (compareOn number)))

instance : Std.LawfulEqOrd Action where
  eq_of_compare {x y} h := by
    have h := Ordering.then_eq_eq.1 h
    simp only [compareOn, Std.LawfulEqCmp.compare_eq_iff_eq] at h
    cases x <;> cases y <;> simp_all [rank, number]

def text : Action → String
  | shift i => "s" ++ toString i
  | reduce i => "r" ++ toString i
  | accept => "acc"

def describe : Action → String
  | shift i => s!"Shift({i})"
  | reduce i => s!"Reduce({i})"
  | accept => "Accept"

end Action

end SimpleLR
