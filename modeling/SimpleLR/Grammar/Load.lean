import SimpleLR.Error
import SimpleLR.Grammar.Basic
import SimpleLR.Outcome
import SimpleLR.Saturation
import SimpleLR.Text.Blank

namespace SimpleLR

open Text

namespace Vocabulary

def declareTerminal (v : Vocabulary) (a : String) : Except GrammarError Vocabulary :=
  if hr : a ∈ reserved then .error (.reservedSymbol a)
  else if hd : a ∈ v.terminals ∨ a ∈ v.nonterminals then .error (.duplicateSymbol a)
  else .ok {
    terminals := v.terminals.insert a
    nonterminals := v.nonterminals
    disjoint := by grind [v.disjoint, NameTable.mem_insert]
    unreserved := by grind [v.unreserved, NameTable.mem_insert] }

def declareNonterminal (v : Vocabulary) (a : String) : Except GrammarError Vocabulary :=
  if hr : a ∈ reserved then .error (.reservedSymbol a)
  else if hd : a ∈ v.terminals ∨ a ∈ v.nonterminals then .error (.duplicateSymbol a)
  else .ok {
    terminals := v.terminals
    nonterminals := v.nonterminals.insert a
    disjoint := by grind [v.disjoint, NameTable.mem_insert]
    unreserved := by grind [v.unreserved, NameTable.mem_insert] }

def declare (terminals nonterminals : List String) : Except GrammarError Vocabulary := do
  let v ← terminals.foldlM declareTerminal ∅
  nonterminals.foldlM declareNonterminal v

/-- Adds quotes to a name until it is not declared. -/
def freshen (v : Vocabulary) (a : String) : String :=
  if a ∈ v.names then v.freshen (a ++ "'") else a
termination_by v.names.countP (a.length ≤ ·.length)
decreasing_by
  have hlength : (a ++ "'").length = a.length + 1 := String.length_append ..
  apply countP_lt_countP
  · intro b _ hb
    simp only [decide_eq_true_eq] at hb ⊢
    omega
  · refine ⟨a, ‹a ∈ v.names›, ?_⟩
    simp only [decide_eq_true_eq]
    omega

theorem freshen_not_mem (v : Vocabulary) (a : String) : v.freshen a ∉ v.names := by
  fun_induction v.freshen a <;> assumption

end Vocabulary

def splitRule (words : List String) : Option (List String × List String) :=
  match words.splitOn arrow with
  | [left, right] => some (left, right)
  | _ => none

/-- Reads the right-hand side of the rule `text`, other than the single word `ε`. -/
def readRight (v : Vocabulary) (text : String) : List String → Except GrammarError (List Symbol) :=
  List.mapM fun word =>
    if word = epsilonName then .error (.malformedRule text .epsilonAmongOthers)
    else match v.symbol? word with
      | some x => .ok x
      | none => .error (.undefinedSymbol text word)

def readRule (v : Vocabulary) (text : String) : Except GrammarError Production :=
  match splitRule (words text) with
  | none => .error (.malformedRule text .arrowCount)
  | some ([], _) => .error (.malformedRule text .noLeft)
  | some ([a], right) =>
    if a ∉ v.nonterminals then .error (.malformedRule text .leftNotNonterminal)
    else if right = [] then .error (.malformedRule text .emptyRight)
    else if right = [epsilonName] then .ok ⟨a, []⟩
    else (readRight v text right).map (⟨a, ·⟩)
  | some (_ :: _ :: _, _) => .error (.malformedRule text .longLeft)

theorem mem_symbols_of_readRight {v : Vocabulary} {text : String} {right : List String}
    {rhs : List Symbol} (h : readRight v text right = .ok rhs) {x : Symbol} (hx : x ∈ rhs) :
    x ∈ v.symbols := by
  obtain ⟨word, _, h⟩ := mem_of_mapM_eq_ok h hx
  grind [Vocabulary.symbol?_eq_some_iff]

theorem over_of_readRule {v : Vocabulary} {text : String} {p : Production}
    (h : readRule v text = .ok p) : p.Over v := by
  unfold readRule at h
  split at h <;> try contradiction
  rename_i a right _
  split at h <;> try contradiction
  rename_i ha
  split at h <;> try contradiction
  split at h
  · cases h
    exact ⟨Decidable.not_not.1 ha, by simp⟩
  · cases hr : readRight v text right with
    | error => simp [hr, Except.map] at h
    | ok rhs =>
      simp only [hr, Except.map, Except.ok.injEq] at h
      subst h
      exact ⟨Decidable.not_not.1 ha, fun _ => mem_symbols_of_readRight hr⟩

/-- Loads a grammar: the declarations are read first, then the start symbol, then the rules. -/
def Grammar.load (rules terminals nonterminals : List String) (start : String) :
    Except GrammarError Grammar := do
  let v ← Vocabulary.declare terminals nonterminals
  if hs : start ∈ v.nonterminals then
    match hr : rules.mapM (readRule v) with
    | .error e => .error e
    | .ok rules => .ok {
        toVocabulary := v
        start := start
        augmentedStart := v.freshen (start ++ "'")
        rules := rules
        start_mem := hs
        augmentedStart_not_mem := by
          have := v.freshen_not_mem (start ++ "'")
          rwa [Vocabulary.mem_names, not_or] at this
        rules_over := fun p hp => by
          obtain ⟨text, _, h⟩ := mem_of_mapM_eq_ok hr hp
          exact over_of_readRule h }
  else .error (.unknownStart start)

end SimpleLR
