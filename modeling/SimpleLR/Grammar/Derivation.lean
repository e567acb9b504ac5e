import Mathlib.Logic.Relation
import SimpleLR.Grammar.Basic

namespace SimpleLR.Grammar

inductive Rewrites (g : Grammar) : List Symbol → List Symbol → Prop where
  | intro {p : Production} (hp : p ∈ g.productions) (α β : List Symbol) :
    Rewrites g (α ++ .nonterminal p.lhs :: β) (α ++ p.rhs ++ β)

def Derives (g : Grammar) : List Symbol → List Symbol → Prop :=
  Relation.ReflTransGen g.Rewrites

def Generates (g : Grammar) (w : List String) : Prop :=
  g.Derives [.nonterminal g.start] (w.map .terminal)

inductive RightmostDerives (g : Grammar) : List Symbol → List Nat → List Symbol → Prop where
  | refl (α : List Symbol) : RightmostDerives g α [] α
  | step {i : Nat} {p : Production} {α β : List Symbol} {w : List String} {is : List Nat}
    (hp : g.productions[i]? = some p)
    (h : RightmostDerives g (α ++ p.rhs ++ w.map .terminal) is β) :
    RightmostDerives g (α ++ .nonterminal p.lhs :: w.map .terminal) (i :: is) β

/-- Some string of terminals has two rightmost derivations. -/
def Ambiguous (g : Grammar) : Prop :=
  ∃ (w : List String) (is js : List Nat), is ≠ js ∧
    g.RightmostDerives [.nonterminal g.start] is (w.map .terminal) ∧
    g.RightmostDerives [.nonterminal g.start] js (w.map .terminal)

/-- What FIRST of a sequence is to hold: the terminals with which it derives a sequence, and `ε` if
it derives the empty one. -/
def CanBegin (g : Grammar) (α : List Symbol) : Symbol → Prop
  | .terminal a => ∃ β, g.Derives α (.terminal a :: β)
  | .epsilon => g.Derives α []
  | .nonterminal _ | .endMarker => False

/-- What FOLLOW of a nonterminal is to hold: the terminals next to it in what any nonterminal
derives, and the end marker if the augmented start derives a sequence in which it comes last. -/
def CanFollow (g : Grammar) (a : String) : Symbol → Prop
  | .terminal b => ∃ c ∈ g.heads, ∃ α β,
      g.Derives [.nonterminal c] (α ++ .nonterminal a :: .terminal b :: β)
  | .endMarker => ∃ α, g.Derives [.nonterminal g.augmentedStart] (α ++ [.nonterminal a])
  | .nonterminal _ | .epsilon => False

def Reachable (g : Grammar) (a : String) : Prop :=
  ∃ α β, g.Derives [.nonterminal g.start] (α ++ .nonterminal a :: β)

def Productive (g : Grammar) (a : String) : Prop :=
  ∃ w : List String, g.Derives [.nonterminal a] (w.map .terminal)

theorem Derives.append_left {g : Grammar} {α β : List Symbol} (h : g.Derives α β)
    (γ : List Symbol) : g.Derives (γ ++ α) (γ ++ β) := by
  induction h with
  | refl => exact .refl
  | tail _ hs ih =>
    cases hs with
    | intro hp δ ε =>
      refine ih.tail ?_
      simpa only [List.append_assoc] using Rewrites.intro hp (γ ++ δ) ε

theorem Derives.append_right {g : Grammar} {α β : List Symbol} (h : g.Derives α β)
    (γ : List Symbol) : g.Derives (α ++ γ) (β ++ γ) := by
  induction h with
  | refl => exact .refl
  | tail _ hs ih =>
    cases hs with
    | intro hp δ ε =>
      refine ih.tail ?_
      simpa only [List.append_assoc, List.cons_append] using Rewrites.intro hp δ (ε ++ γ)

theorem Derives.append {g : Grammar} {α β γ δ : List Symbol} (h : g.Derives α β)
    (h' : g.Derives γ δ) : g.Derives (α ++ γ) (β ++ δ) :=
  (h.append_right γ).trans (h'.append_left β)

theorem RightmostDerives.derives {g : Grammar} {α β : List Symbol} {is : List Nat}
    (h : g.RightmostDerives α is β) : g.Derives α β := by
  induction h with
  | refl => exact .refl
  | step hp _ ih => exact .head (.intro (List.mem_of_getElem? hp) _ _) ih

end SimpleLR.Grammar
