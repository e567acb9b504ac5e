import SimpleLR.Automaton.Basic

namespace SimpleLR

/-- An item is valid after a sequence of symbols if a chain of productions leads to it from the
start production: each one is for the nonterminal after the dot in the one before, and the parts
before the dots make up the sequence. -/
inductive Item.Valid (g : Grammar) : List Symbol → Item → Prop where
  | start {d : Nat} (hd : d ≤ g.startProduction.rhs.length) :
    Valid g (g.startProduction.rhs.take d) ⟨0, d⟩
  | expand {γ : List Symbol} {i : Item} {q d : Nat} {p : Production} (h : Valid g γ i)
    (hn : i.next? g = some (.nonterminal p.lhs)) (hp : g.productions[q]? = some p)
    (hd : d ≤ p.rhs.length) :
    Valid g (γ ++ p.rhs.take d) ⟨q, d⟩

/-- A sequence comes before another if it is shorter, or as long and first in the order of the
symbols of the grammar. -/
def Grammar.Before (g : Grammar) (α β : List Symbol) : Prop :=
  α.length < β.length ∨
    α.length = β.length ∧ List.Lex (fun x y => g.symbols.idxOf x < g.symbols.idxOf y) α β

namespace Automaton

def follow (a : Automaton) (γ : List Symbol) : Option Nat :=
  γ.foldlM a.goto 0

/-- The first of the sequences that lead to a state. -/
def IsAccess (g : Grammar) (a : Automaton) (j : Nat) (α : List Symbol) : Prop :=
  a.follow α = some j ∧ ∀ β, a.follow β = some j → β ≠ α → g.Before α β

theorem follow_append (a : Automaton) (γ δ : List Symbol) :
    a.follow (γ ++ δ) = (a.follow γ).bind fun i => δ.foldlM a.goto i :=
  List.foldlM_append ..

end Automaton

end SimpleLR
