import SimpleLR.Automaton.Basic
import SimpleLR.Family
import SimpleLR.Grammar.Basic
import SimpleLR.Table.Basic
import SimpleLR.Text.Blank

namespace SimpleLR

def Symbol.rename (ρ : String → String) : Symbol → Symbol
  | .terminal a => .terminal (ρ a)
  | .nonterminal a => .nonterminal (ρ a)
  | .epsilon => .epsilon
  | .endMarker => .endMarker

def Production.rename (ρ : String → String) (p : Production) : Production :=
  ⟨ρ p.lhs, p.rhs.map (.rename ρ)⟩

def renameWord (ρ : String → String) (word : String) : String :=
  if word = arrow ∨ word = epsilonName then word else ρ word

def renameRule (ρ : String → String) (text : String) : String :=
  " ".intercalate ((Text.words text).map (renameWord ρ))

/-- The renaming that `ρ` makes of the names of a grammar, the augmented start with them. -/
def Grammar.extendRenaming (g g' : Grammar) (ρ : String → String) (a : String) : String :=
  if a = g.augmentedStart then g'.augmentedStart else ρ a

/-- A map with `f k` in place of each key `k`. -/
def renameKeys {α β : Type} [Ord α] [Std.TransOrd α] (f : α → α) (m : Std.ExtTreeMap α β) :
    Std.ExtTreeMap α β :=
  .ofList (m.toList.map fun (k, b) => (f k, b))

def SymbolSet.rename (ρ : String → String) (s : SymbolSet) : SymbolSet :=
  .ofList (s.toList.map (Symbol.rename ρ))

def Family.rename (F : Family) (ρ : String → String) : Family :=
  ⟨renameKeys ρ (F.entries.map fun _ s => s.rename ρ)⟩

def State.rename (ρ : String → String) (s : State) : State :=
  { s with edges := renameKeys (Symbol.rename ρ) s.edges }

def Automaton.rename (a : Automaton) (ρ : String → String) : Automaton :=
  ⟨a.states.map (·.rename ρ)⟩

def Row.rename (ρ : String → String) (r : Row) : Row :=
  ⟨renameKeys (Symbol.rename ρ) r.actions, renameKeys ρ r.gotos⟩

def ParseTable.rename (t : ParseTable) (ρ : String → String) : ParseTable :=
  ⟨t.rows.map (·.rename ρ)⟩

end SimpleLR
