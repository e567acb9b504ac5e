import SimpleLR.Follow

namespace SimpleLR.Follow

/-- Wherever a nonterminal occurs in a production, its set holds FIRST of what comes after it, and
the set of the left-hand side if that can become empty. -/
def Closed (g : Grammar) (first F : Family) : Prop :=
  ∀ p ∈ g.productions, ∀ α b β, p.rhs = α ++ .nonterminal b :: β →
    (∀ x ∈ First.ofSequence first β, x ≠ .epsilon → x ∈ F.lookup b) ∧
      (.epsilon ∈ First.ofSequence first β → ∀ x ∈ F.lookup p.lhs, x ∈ F.lookup b)

def Obeys (first : Family) (R : Reading) (a : String) (rhs : List Symbol) : Prop :=
  ∀ α b β, rhs = α ++ .nonterminal b :: β →
    (∀ x ∈ First.ofSequence first β, x ≠ .epsilon → R b x) ∧
      (.epsilon ∈ First.ofSequence first β → ∀ x, R a x → R b x)

theorem closed_iff {g : Grammar} {first F : Family} :
    Closed g first F ↔ ∀ p ∈ g.productions, Obeys first F.reading p.lhs p.rhs :=
  Iff.rfl

end SimpleLR.Follow
