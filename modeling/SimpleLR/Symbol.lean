import SimpleLR.Text.Quoted

namespace SimpleLR

def epsilonName : String := "ε"

def endName : String := "$"

def arrow : String := "->"

inductive Symbol where
  | terminal (name : String)
  | nonterminal (name : String)
  | epsilon
  | endMarker
deriving DecidableEq, Repr

namespace Symbol

/-- How a symbol is written in rules and in the heads of table columns. -/
def name : Symbol → String
  | terminal a => a
  | nonterminal a => a
  | epsilon => epsilonName
  | endMarker => endName

def describe : Symbol → String
  | terminal a => s!"Terminal({Text.quote a})"
  | nonterminal a => s!"Nonterminal({Text.quote a})"
  | epsilon => "Epsilon"
  | endMarker => "EndMarker"

def isTerminal : Symbol → Bool
  | terminal _ => true
  | _ => false

def isNonterminal : Symbol → Bool
  | nonterminal _ => true
  | _ => false

def rank : Symbol → Nat
  | terminal _ => 0
  | nonterminal _ => 1
  | epsilon => 2
  | endMarker => 3

/-- Terminals come first, then nonterminals, then `ε` and the end marker; names of one kind are
ordered by code points. -/
instance : Ord Symbol :=
  ⟨compareLex (compareOn rank) (compareOn name)⟩

instance : Std.TransOrd Symbol :=
  inferInstanceAs (Std.TransCmp (compareLex (compareOn rank) (compareOn name)))

instance : Std.LawfulEqOrd Symbol where
  eq_of_compare {x y} h := by
    have h := Ordering.then_eq_eq.1 h
    simp only [compareOn, Std.LawfulEqCmp.compare_eq_iff_eq] at h
    cases x <;> cases y <;> simp_all [rank, name]

end Symbol

end SimpleLR
