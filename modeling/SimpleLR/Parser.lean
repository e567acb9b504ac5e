import Mathlib.Logic.Relation
import SimpleLR.Grammar.Basic
import SimpleLR.Table.Basic

namespace SimpleLR

/-- The states on the stack, the top one first, the symbols of the input that are left, and the
productions by which the parser has reduced, the latest one first. -/
structure Configuration where
  stack : List Nat
  input : List Symbol
  reductions : List Nat
deriving DecidableEq, Repr

namespace Configuration

def initial (w : List String) : Configuration :=
  ⟨[0], w.map .terminal ++ [.endMarker], []⟩

def action? (t : ParseTable) (c : Configuration) : Option Action := do
  t.action? (← c.stack.head?) (← c.input.head?)

def shift (c : Configuration) (j : Nat) : Configuration :=
  ⟨j :: c.stack, c.input.tail, c.reductions⟩

/-- Takes the states of a right-hand side from the stack, and goes from the state below them over
the left-hand side. -/
def reduce? (g : Grammar) (t : ParseTable) (c : Configuration) (i : Nat) :
    Option Configuration := do
  let p ← g.productions[i]?
  let stack := c.stack.drop p.rhs.length
  let j ← t.goto? (← stack.head?) p.lhs
  return ⟨j :: stack, c.input, i :: c.reductions⟩

def step? (g : Grammar) (t : ParseTable) (c : Configuration) : Option Configuration :=
  match c.action? t with
  | some (.shift j) => some (c.shift j)
  | some (.reduce i) => c.reduce? g t i
  | some .accept => none
  | none => none

def Reaches (g : Grammar) (t : ParseTable) : Configuration → Configuration → Prop :=
  Relation.ReflTransGen fun c d => c.step? g t = some d

def Accepting (t : ParseTable) (c : Configuration) : Prop :=
  c.action? t = some .accept

def Halts (g : Grammar) (t : ParseTable) (c : Configuration) : Prop :=
  ∃ d, c.Reaches g t d ∧ d.step? g t = none

/-- The same configuration before another string of terminals. -/
def before (c : Configuration) (u : List String) : Configuration :=
  { c with input := u.map .terminal ++ [.endMarker] }

/-- Whatever comes next in the input, it is not accepted. -/
def Dead (g : Grammar) (t : ParseTable) (c : Configuration) : Prop :=
  ∀ u d, (c.before u).Reaches g t d → ¬ d.Accepting t

end Configuration

def ParseTable.Accepts (t : ParseTable) (g : Grammar) (w : List String) : Prop :=
  ∃ c, (Configuration.initial w).Reaches g t c ∧ c.Accepting t

end SimpleLR
