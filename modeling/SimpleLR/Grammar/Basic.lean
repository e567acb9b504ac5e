import SimpleLR.Vocabulary

namespace SimpleLR

@[ext] structure Production where
  lhs : String
  rhs : List Symbol
deriving DecidableEq, Repr

namespace Production

def words (p : Production) : List String :=
  p.lhs :: arrow :: if p.rhs = [] then [epsilonName] else p.rhs.map Symbol.name

def text (p : Production) : String :=
  " ".intercalate p.words

def Over (p : Production) (v : Vocabulary) : Prop :=
  p.lhs ∈ v.nonterminals ∧ ∀ x ∈ p.rhs, x ∈ v.symbols

end Production

/-- A grammar over a vocabulary. Its own production, from the augmented start to the start symbol,
comes before its rules, and no rule mentions the augmented start. -/
@[ext] structure Grammar extends Vocabulary where
  start : String
  augmentedStart : String
  rules : List Production
  start_mem : start ∈ nonterminals
  augmentedStart_not_mem : augmentedStart ∉ terminals ∧ augmentedStart ∉ nonterminals
  rules_over : ∀ p ∈ rules, p.Over toVocabulary
deriving DecidableEq

namespace Grammar

def startProduction (g : Grammar) : Production :=
  ⟨g.augmentedStart, [.nonterminal g.start]⟩

def productions (g : Grammar) : List Production :=
  g.startProduction :: g.rules

def productionIndices (g : Grammar) (a : String) : List Nat :=
  g.productions.zipIdx.filterMap fun (p, i) => if p.lhs = a then some i else none

def alternatives (g : Grammar) (a : String) : List (List Symbol) :=
  (g.productions.filter (·.lhs = a)).map Production.rhs

/-- The nonterminals, with the augmented start in front. -/
def heads (g : Grammar) : List String :=
  g.augmentedStart :: g.nonterminals.names

def isTerminal (g : Grammar) (a : String) : Bool :=
  a ∈ g.terminals

def isNonterminal (g : Grammar) (a : String) : Bool :=
  a ∈ g.heads

theorem mem_productionIndices {g : Grammar} {a : String} {i : Nat} :
    i ∈ g.productionIndices a ↔ ∃ p, g.productions[i]? = some p ∧ p.lhs = a := by
  simp only [productionIndices, List.mem_filterMap, Prod.exists, Option.ite_none_right_eq_some,
    Option.some.injEq, List.mem_zipIdx_iff_getElem?]
  grind

theorem mem_alternatives {g : Grammar} {a : String} {α : List Symbol} :
    α ∈ g.alternatives a ↔ ⟨a, α⟩ ∈ g.productions := by
  simp only [alternatives, List.mem_map, List.mem_filter, decide_eq_true_eq]
  constructor
  · rintro ⟨p, ⟨hp, rfl⟩, rfl⟩
    exact hp
  · exact fun h => ⟨_, ⟨h, rfl⟩, rfl⟩

theorem lhs_mem_heads {g : Grammar} {p : Production} (h : p ∈ g.productions) :
    p.lhs ∈ g.heads := by
  rcases List.mem_cons.1 h with rfl | h
  · exact List.mem_cons_self
  · exact List.mem_cons_of_mem _ (g.rules_over p h).1

theorem mem_symbols_of_mem_rhs {g : Grammar} {p : Production} (h : p ∈ g.productions)
    {x : Symbol} (hx : x ∈ p.rhs) : x ∈ g.symbols := by
  rcases List.mem_cons.1 h with rfl | h
  · obtain rfl := List.mem_singleton.1 hx
    exact Vocabulary.nonterminal_mem_symbols.2 g.start_mem
  · exact (g.rules_over p h).2 x hx

theorem name_ne_augmentedStart {g : Grammar} {p : Production} (h : p ∈ g.productions) {x : Symbol}
    (hx : x ∈ p.rhs) : x.name ≠ g.augmentedStart := by
  intro he
  have hx := Vocabulary.mem_names.1 (Vocabulary.name_mem_names (mem_symbols_of_mem_rhs h hx))
  rw [he] at hx
  exact hx.elim g.augmentedStart_not_mem.1 g.augmentedStart_not_mem.2

theorem isTerminal_or_isNonterminal_of_mem_rhs {g : Grammar} {p : Production}
    (h : p ∈ g.productions) {x : Symbol} (hx : x ∈ p.rhs) : x.isTerminal ∨ x.isNonterminal := by
  have hx := mem_symbols_of_mem_rhs h hx
  cases x with
  | terminal => exact .inl rfl
  | nonterminal => exact .inr rfl
  | epsilon => exact absurd hx Vocabulary.epsilon_not_mem_symbols
  | endMarker => exact absurd hx Vocabulary.endMarker_not_mem_symbols

theorem mem_heads_of_mem_rhs {g : Grammar} {p : Production} (h : p ∈ g.productions)
    {a : String} (ha : .nonterminal a ∈ p.rhs) : a ∈ g.heads :=
  List.mem_cons_of_mem _ (Vocabulary.nonterminal_mem_symbols.1 (mem_symbols_of_mem_rhs h ha))

end Grammar

end SimpleLR
