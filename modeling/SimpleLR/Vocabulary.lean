import SimpleLR.NameTable
import SimpleLR.Symbol

namespace SimpleLR

/-- The words with a meaning of their own, which no symbol can have for its name. -/
def reserved : List String :=
  [epsilonName, endName, arrow]

@[ext] structure Vocabulary where
  terminals : NameTable
  nonterminals : NameTable
  disjoint : ∀ a ∈ terminals, a ∉ nonterminals
  unreserved : ∀ a, a ∈ terminals ∨ a ∈ nonterminals → a ∉ reserved
deriving DecidableEq

namespace Vocabulary

def empty : Vocabulary :=
  ⟨∅, ∅, by simp, by simp⟩

instance : EmptyCollection Vocabulary :=
  ⟨empty⟩

def names (v : Vocabulary) : List String :=
  v.terminals.names ++ v.nonterminals.names

def symbols (v : Vocabulary) : List Symbol :=
  v.terminals.names.map .terminal ++ v.nonterminals.names.map .nonterminal

def symbol? (v : Vocabulary) (a : String) : Option Symbol :=
  if a ∈ v.terminals then some (.terminal a)
  else if a ∈ v.nonterminals then some (.nonterminal a)
  else none

theorem mem_names {v : Vocabulary} {a : String} :
    a ∈ v.names ↔ a ∈ v.terminals ∨ a ∈ v.nonterminals := by
  simp [names, NameTable.mem_iff]

@[simp] theorem terminal_mem_symbols {v : Vocabulary} {a : String} :
    .terminal a ∈ v.symbols ↔ a ∈ v.terminals := by
  simp [symbols, NameTable.mem_iff]

@[simp] theorem nonterminal_mem_symbols {v : Vocabulary} {a : String} :
    .nonterminal a ∈ v.symbols ↔ a ∈ v.nonterminals := by
  simp [symbols, NameTable.mem_iff]

@[simp] theorem epsilon_not_mem_symbols {v : Vocabulary} : .epsilon ∉ v.symbols := by
  simp [symbols]

@[simp] theorem endMarker_not_mem_symbols {v : Vocabulary} : .endMarker ∉ v.symbols := by
  simp [symbols]

theorem name_mem_names {v : Vocabulary} {x : Symbol} (h : x ∈ v.symbols) :
    x.name ∈ v.names := by
  cases x with
  | terminal a => exact mem_names.2 (.inl (terminal_mem_symbols.1 h))
  | nonterminal a => exact mem_names.2 (.inr (nonterminal_mem_symbols.1 h))
  | epsilon => exact absurd h epsilon_not_mem_symbols
  | endMarker => exact absurd h endMarker_not_mem_symbols

theorem symbol?_eq_some_iff {v : Vocabulary} {a : String} {x : Symbol} :
    v.symbol? a = some x ↔ x ∈ v.symbols ∧ x.name = a := by
  have := v.disjoint a
  cases x <;> grind [symbol?, Symbol.name, terminal_mem_symbols, nonterminal_mem_symbols,
    epsilon_not_mem_symbols, endMarker_not_mem_symbols]

theorem symbol?_eq_none_iff {v : Vocabulary} {a : String} :
    v.symbol? a = none ↔ a ∉ v.terminals ∧ a ∉ v.nonterminals := by
  grind [symbol?]

end Vocabulary

end SimpleLR
