import SimpleLR.Error
import SimpleLR.Text.Blank
import SimpleLR.Vocabulary

namespace SimpleLR

open Text

structure Declarable (names : List String) : Prop where
  unreserved : ∀ a ∈ names, a ∉ reserved
  nodup : names.Nodup

inductive NameError (before : List String) (a : String) : GrammarError → Prop where
  | reservedSymbol (ha : a ∈ reserved) : NameError before a (.reservedSymbol a)
  | duplicateSymbol (ha : a ∈ before) : NameError before a (.duplicateSymbol a)

section

variable (terminals nonterminals : List String)

/-- The words of a rule: a nonterminal, an arrow, and `ε` alone or declared names. -/
def IsRule (words : List String) : Prop :=
  ∃ a right, words = a :: arrow :: right ∧ a ∈ nonterminals ∧
    (right = [epsilonName] ∨ right ≠ [] ∧ ∀ b ∈ right, b ∈ terminals ++ nonterminals)

def declaredSymbol (a : String) : Symbol :=
  if a ∈ terminals then .terminal a else .nonterminal a

def symbolsOfWords (right : List String) : List Symbol :=
  if right = [epsilonName] then [] else right.map (declaredSymbol terminals)

/-- There is one arrow, with a nonterminal for its left side, and `b` is the first of the words on
the right that is not declared. -/
def FirstUndeclared (words : List String) (b : String) : Prop :=
  ∃ a left right, words = a :: arrow :: (left ++ b :: right) ∧ words.count arrow = 1 ∧
    a ∈ nonterminals ∧ (∀ c ∈ left, c ∈ terminals ++ nonterminals) ∧ b ∉ terminals ++ nonterminals

/-- The words have the fault, and none that is looked for before it. -/
def RuleFault.Describes (words : List String) : RuleFault → Prop
  | arrowCount => words.count arrow ≠ 1
  | noLeft => words.count arrow = 1 ∧ ∃ right, words = arrow :: right
  | longLeft => words.count arrow = 1 ∧ ∃ a b left right, words = a :: b :: left ++ arrow :: right
  | leftNotNonterminal =>
    words.count arrow = 1 ∧ ∃ a right, words = a :: arrow :: right ∧ a ∉ nonterminals
  | emptyRight => words.count arrow = 1 ∧ ∃ a ∈ nonterminals, words = [a, arrow]
  | epsilonAmongOthers =>
    FirstUndeclared terminals nonterminals words epsilonName ∧ ¬ IsRule terminals nonterminals words
  | other _ => False

inductive RuleError (text : String) : GrammarError → Prop where
  | undefinedSymbol {b : String} (hb : FirstUndeclared terminals nonterminals (words text) b)
    (hne : b ≠ epsilonName) :
    RuleError text (.undefinedSymbol text b)
  | malformedRule {fault : RuleFault} (hrule : ¬ IsRule terminals nonterminals (words text))
    (hothers : ∀ b, FirstUndeclared terminals nonterminals (words text) b → b = epsilonName)
    (hfault : fault.Describes terminals nonterminals (words text)) :
    RuleError text (.malformedRule text fault)

end

section

variable (rules terminals nonterminals : List String) (start : String)

structure Loadable : Prop where
  names : Declarable (terminals ++ nonterminals)
  start : start ∈ nonterminals
  rules : ∀ text ∈ rules, IsRule terminals nonterminals (words text)

/-- The error for what is wrong first, in the order terminals, nonterminals, start, rules. -/
inductive FirstViolation : GrammarError → Prop where
  | name {before after : List String} {a : String} {e : GrammarError}
    (h : terminals ++ nonterminals = before ++ a :: after) (hbefore : Declarable before)
    (ha : NameError before a e) :
    FirstViolation e
  | start (hnames : Declarable (terminals ++ nonterminals)) (hs : start ∉ nonterminals) :
    FirstViolation (.unknownStart start)
  | rule {before after : List String} {text : String} {e : GrammarError}
    (hnames : Declarable (terminals ++ nonterminals)) (hs : start ∈ nonterminals)
    (h : rules = before ++ text :: after)
    (hbefore : ∀ t ∈ before, IsRule terminals nonterminals (words t))
    (htext : RuleError terminals nonterminals text e) :
    FirstViolation e

end

end SimpleLR
