import SimpleLR.Proofs.Definition.Loading
import SimpleLR.Proofs.Grammar.Loadable
import SimpleLR.Proofs.NameTable

namespace SimpleLR

open Text

/-- The right-hand side is `ε` alone, or has words and no `ε` among them. -/
def RuleDefinition.IsFormed (r : RuleDefinition) : Prop :=
  r.rhs = [epsilonName] ∨ r.rhs ≠ [] ∧ epsilonName ∉ r.rhs

instance (r : RuleDefinition) : Decidable r.IsFormed :=
  inferInstanceAs (Decidable (_ ∨ _))

namespace Definition

variable {d : Definition} {g : Grammar} {r : RuleDefinition} {a start : String}

/-- A definition without directives, with words that can stand in rules. Only on the right can one
of them be `ε`. -/
structure Undeclared (d : Definition) : Prop where
  terminals : d.terminals = none
  nonterminals : d.nonterminals = none
  start : d.start = none
  words : ∀ r ∈ d.rules, ∀ a ∈ r.lhs :: r.rhs, IsWord a ∧ a ≠ arrow ∧ a ≠ endName
  lhs : ∀ r ∈ d.rules, r.lhs ≠ epsilonName

def heads (d : Definition) : List String :=
  d.rules.map RuleDefinition.lhs

def leaves (d : Definition) : List String :=
  (d.rules.flatMap RuleDefinition.rhs).filter fun a => a ≠ epsilonName ∧ a ∉ d.heads

/-- The grammar has the words of the rules for its symbols, in the order in which they come first,
and begins with the first of them. Its productions have the words of the rules. -/
structure Infers (d : Definition) (g : Grammar) : Prop where
  nonterminals : g.nonterminals.names = d.heads.eraseDups
  terminals : g.terminals.names = d.leaves.eraseDups
  start : d.heads.head? = some g.start
  length : g.productions.length = d.rules.length + 1
  productions : ∀ i r, d.rules[i]? = some r → ∃ p, g.productions[i + 1]? = some p ∧
    p.lhs = r.lhs ∧ p.rightWords = r.rhs ∧ ∀ x ∈ p.rhs, x.isNonterminal ↔ x.name ∈ d.heads

theorem mem_leaves : a ∈ d.leaves ↔ (∃ r ∈ d.rules, a ∈ r.rhs) ∧ a ≠ epsilonName ∧ a ∉ d.heads := by
  rw [leaves, List.mem_filter, List.mem_flatMap, decide_eq_true_eq]

namespace Undeclared

theorem allNonterminals_eq (h : d.Undeclared) : d.allNonterminals = d.heads.eraseDups := by
  rw [allNonterminals, h.nonterminals]
  exact NameTable.names_ofList d.heads

theorem mem_allNonterminals (h : d.Undeclared) : a ∈ d.allNonterminals ↔ a ∈ d.heads := by
  rw [h.allNonterminals_eq, List.mem_eraseDups]

theorem allTerminals_eq (h : d.Undeclared) : d.allTerminals = d.leaves.eraseDups := by
  rw [allTerminals, h.terminals, leaves]
  simp only [h.mem_allNonterminals]
  exact NameTable.names_ofList _

theorem mem_allTerminals (h : d.Undeclared) : a ∈ d.allTerminals ↔ a ∈ d.leaves := by
  rw [h.allTerminals_eq, List.mem_eraseDups]

theorem start?_eq (h : d.Undeclared) : d.start? = d.heads.head? := by
  rw [start?, h.start, h.allNonterminals_eq, ← NameTable.names_ofList]
  exact NameTable.head?_names_ofList d.heads

theorem exists_rule_of_mem_names (h : d.Undeclared)
    (ha : a ∈ d.allTerminals ++ d.allNonterminals) :
    a ≠ epsilonName ∧ ∃ r ∈ d.rules, a ∈ r.lhs :: r.rhs := by
  rcases List.mem_append.1 ha with ha | ha
  · obtain ⟨⟨r, hr, ha⟩, hne, -⟩ := mem_leaves.1 (h.mem_allTerminals.1 ha)
    exact ⟨hne, r, hr, List.mem_cons_of_mem _ ha⟩
  · obtain ⟨r, hr, rfl⟩ := List.mem_map.1 (h.mem_allNonterminals.1 ha)
    exact ⟨h.lhs r hr, r, hr, List.mem_cons_self⟩

theorem declarable (h : d.Undeclared) : Declarable (d.allTerminals ++ d.allNonterminals) where
  unreserved a ha := by
    obtain ⟨hepsilon, r, hr, ha⟩ := h.exists_rule_of_mem_names ha
    obtain ⟨-, harrow, hend⟩ := h.words r hr a ha
    simp only [reserved, List.mem_cons, List.not_mem_nil, hepsilon, hend, harrow, or_self,
      not_false_eq_true]
  nodup := by
    rw [h.allTerminals_eq, h.allNonterminals_eq, ← NameTable.names_ofList,
      ← NameTable.names_ofList]
    refine List.nodup_append'.2 ⟨NameTable.nodup _, NameTable.nodup _, ?_⟩
    intro a hleaf hhead
    exact (mem_leaves.1 (NameTable.mem_ofList.1 hleaf)).2.2 (NameTable.mem_ofList.1 hhead)

/-- Words on the right are declared, as what is on the left or else as terminals. -/
theorem mem_names_iff (h : d.Undeclared) (hr : r ∈ d.rules) (ha : a ∈ r.rhs) :
    a ∈ d.allTerminals ++ d.allNonterminals ↔ a ≠ epsilonName := by
  constructor
  · intro hnames
    exact (h.exists_rule_of_mem_names hnames).1
  · intro hne
    rw [List.mem_append, h.mem_allTerminals, h.mem_allNonterminals, mem_leaves]
    by_cases hhead : a ∈ d.heads
    · exact .inr hhead
    · exact .inl ⟨⟨r, hr, ha⟩, hne, hhead⟩

theorem isWord_of_mem_words (h : d.Undeclared) (hr : r ∈ d.rules) : ∀ a ∈ r.words, IsWord a := by
  obtain ⟨hlhs, hrhs⟩ := List.forall_mem_cons.1 (h.words r hr)
  have harrow : IsWord arrow := by decide +kernel
  exact List.forall_mem_cons.2 ⟨hlhs.1, List.forall_mem_cons.2 ⟨harrow, fun a ha => (hrhs a ha).1⟩⟩

theorem words_text (h : d.Undeclared) (hr : r ∈ d.rules) : Text.words r.text = r.words := by
  rw [r.words_text]
  exact flatMap_words_eq_self_iff.2 (h.isWord_of_mem_words hr)

theorem isRule_iff (h : d.Undeclared) (hr : r ∈ d.rules) :
    IsRule d.allTerminals d.allNonterminals (Text.words r.text) ↔ r.IsFormed := by
  rw [h.words_text hr, RuleDefinition.words]
  constructor
  · intro hrule
    obtain ⟨_, right, hwords, -, hright⟩ := hrule
    obtain rfl : r.rhs = right := (List.cons.inj (List.cons.inj hwords).2).2
    apply hright.imp_right
    intro hnames
    exact ⟨hnames.1, fun he => (h.mem_names_iff hr he).1 (hnames.2 _ he) rfl⟩
  · intro hformed
    have hlhs : r.lhs ∈ d.allNonterminals := h.mem_allNonterminals.2 (List.mem_map_of_mem hr)
    refine ⟨r.lhs, r.rhs, rfl, hlhs, hformed.imp_right ?_⟩
    intro hwords
    refine ⟨hwords.1, fun b hb => (h.mem_names_iff hr hb).2 ?_⟩
    rintro rfl
    exact hwords.2 hb

theorem loadable_iff (h : d.Undeclared) (hstart : d.start? = some start) :
    Loadable (d.rules.map RuleDefinition.text) d.allTerminals d.allNonterminals start ↔
      ∀ r ∈ d.rules, r.IsFormed := by
  have hrules : (∀ text ∈ d.rules.map RuleDefinition.text,
      IsRule d.allTerminals d.allNonterminals (Text.words text)) ↔ ∀ r ∈ d.rules, r.IsFormed := by
    rw [List.forall_mem_map]
    exact forall₂_congr fun r hr => h.isRule_iff hr
  constructor
  · intro hload
    exact hrules.1 hload.rules
  · intro hformed
    rw [h.start?_eq] at hstart
    exact ⟨h.declarable, h.mem_allNonterminals.2 (List.mem_of_head? hstart), hrules.2 hformed⟩

theorem exists_start?_iff (h : d.Undeclared) : (∃ start, d.start? = some start) ↔ d.rules ≠ [] := by
  rw [h.start?_eq, heads, List.head?_map]
  cases d.rules <;> simp

theorem exists_toGrammar_iff (h : d.Undeclared) :
    (∃ g, d.toGrammar = .ok g) ↔ d.rules ≠ [] ∧ ∀ r ∈ d.rules, r.IsFormed := by
  rw [← h.exists_start?_iff, ← exists_and_right]
  simp only [toGrammar_eq_ok_iff]
  rw [exists_comm]
  apply exists_congr
  intro start
  rw [exists_and_left]
  apply and_congr_right
  intro hstart
  rw [Grammar.exists_load_iff, h.loadable_iff hstart]

theorem map_words_eq (h : d.Undeclared) (hg : d.toGrammar = .ok g) :
    g.rules.map Production.words = d.rules.map RuleDefinition.words := by
  rw [words_of_toGrammar hg]
  apply List.map_congr_left
  intro r hr
  exact flatMap_words_eq_self_iff.2 (h.isWord_of_mem_words hr)

theorem exists_production {i : Nat} (h : d.Undeclared) (hg : d.toGrammar = .ok g)
    (hr : d.rules[i]? = some r) :
    ∃ p, g.productions[i + 1]? = some p ∧ p.lhs = r.lhs ∧ p.rightWords = r.rhs := by
  have hi := congrArg (·[i]?) (h.map_words_eq hg)
  simp only [List.getElem?_map, hr, Option.map_some] at hi
  obtain ⟨p, hp, hwords⟩ := Option.map_eq_some_iff.1 hi
  rw [p.words_eq, RuleDefinition.words] at hwords
  obtain ⟨hlhs, hrhs⟩ := List.cons.inj hwords
  exact ⟨p, hp, hlhs, (List.cons.inj hrhs).2⟩

theorem isNonterminal_iff (ht : g.terminals.names = d.leaves.eraseDups)
    (hn : g.nonterminals.names = d.heads.eraseDups) {x : Symbol} (hx : x ∈ g.symbols) :
    x.isNonterminal ↔ x.name ∈ d.heads := by
  cases x with
  | terminal a =>
    have hleaf : a ∈ g.terminals := Vocabulary.terminal_mem_symbols.1 hx
    rw [NameTable.mem_iff, ht, List.mem_eraseDups] at hleaf
    exact iff_of_false nofun (mem_leaves.1 hleaf).2.2
  | nonterminal a =>
    have hhead : a ∈ g.nonterminals := Vocabulary.nonterminal_mem_symbols.1 hx
    rw [NameTable.mem_iff, hn, List.mem_eraseDups] at hhead
    exact iff_of_true rfl hhead
  | epsilon => exact absurd hx Vocabulary.epsilon_not_mem_symbols
  | endMarker => exact absurd hx Vocabulary.endMarker_not_mem_symbols

theorem infers (h : d.Undeclared) (hg : d.toGrammar = .ok g) : d.Infers g := by
  obtain ⟨start, hstart, hload⟩ := toGrammar_eq_ok_iff.1 hg
  obtain ⟨⟨ht, hn⟩, rfl, -⟩ := Grammar.load_eq_ok_iff_words.1 hload
  rw [h.allTerminals_eq] at ht
  rw [h.allNonterminals_eq] at hn
  rw [h.start?_eq] at hstart
  have hlength := congrArg List.length (h.map_words_eq hg)
  rw [List.length_map, List.length_map] at hlength
  refine ⟨hn, ht, hstart, congrArg (· + 1) hlength, ?_⟩
  intro i r hr
  obtain ⟨p, hp, hlhs, hrhs⟩ := h.exists_production hg hr
  refine ⟨p, hp, hlhs, hrhs, fun x hx => isNonterminal_iff ht hn ?_⟩
  exact Grammar.mem_symbols_of_mem_rhs (List.mem_of_getElem? hp) hx

end Undeclared

/-- A definition without directives is loaded exactly if it has rules and all right-hand sides are
formed. The symbols are then the words of its rules, of which those on the left are the
nonterminals. -/
theorem toGrammar_of_undeclared (h : d.Undeclared) :
    ((∃ g, d.toGrammar = .ok g) ↔ d.rules ≠ [] ∧ ∀ r ∈ d.rules, r.IsFormed) ∧
      ∀ g, d.toGrammar = .ok g → d.Infers g :=
  ⟨h.exists_toGrammar_iff, fun _ => h.infers⟩

/-- `T` comes on the right before it has a rule, and `E` has a second one. With `ε` behind another
word the definition is not loaded. -/
theorem toGrammar_with_late_nonterminal :
    let d : Definition := ⟨none, none, none,
      [⟨"E", ["E", "+", "T"], 1⟩, ⟨"T", ["id", "+"], 2⟩, ⟨"E", ["ε"], 4⟩]⟩
    let d' : Definition := ⟨none, none, none, [⟨"E", ["T"], 1⟩, ⟨"T", ["id", "ε"], 2⟩]⟩
    (d.Undeclared ∧ ∃ g, d.toGrammar = .ok g ∧ g.nonterminals.names = ["E", "T"] ∧
      g.terminals.names = ["+", "id"] ∧ g.start = "E" ∧ g.productions.length = 4 ∧
      ∃ p, g.productions[1]? = some p ∧ p.lhs = "E" ∧ p.rightWords = ["E", "+", "T"] ∧
        ∀ x ∈ p.rhs, x.isNonterminal ↔ x.name ∈ ["E", "T", "E"]) ∧
      d'.Undeclared ∧ ¬ ∃ g, d'.toGrammar = .ok g := by
  intro d d'
  have hd : d.Undeclared := ⟨rfl, rfl, rfl, by decide +kernel, by decide⟩
  have hd' : d'.Undeclared := ⟨rfl, rfl, rfl, by decide +kernel, by decide⟩
  have hformed : ∀ r ∈ d.rules, r.IsFormed := by decide
  obtain ⟨g, hg⟩ := (toGrammar_of_undeclared hd).1.2 ⟨List.cons_ne_nil _ _, hformed⟩
  have h := (toGrammar_of_undeclared hd).2 g hg
  have hmixed : ¬ ∀ r ∈ d'.rules, r.IsFormed := by decide
  exact ⟨⟨hd, g, hg, h.nonterminals, h.terminals, (Option.some.inj h.start).symm, h.length,
    h.productions 0 _ rfl⟩, hd', fun hload => hmixed ((toGrammar_of_undeclared hd').1.1 hload).2⟩

end Definition

end SimpleLR
