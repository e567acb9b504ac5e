import SimpleLR.Definition.Clause
import SimpleLR.Grammar.Load

namespace SimpleLR

structure RuleDefinition where
  lhs : String
  rhs : List String
  line : Nat
deriving DecidableEq, Repr

def RuleDefinition.text (r : RuleDefinition) : String :=
  " ".intercalate (r.lhs :: arrow :: r.rhs)

structure Definition where
  terminals : Option (List String)
  nonterminals : Option (List String)
  start : Option String
  rules : List RuleDefinition
deriving DecidableEq, Repr

namespace Definition

def empty : Definition :=
  ⟨none, none, none, []⟩

/-- Adds line number `n`. A directive can be given once. -/
def addLine (d : Definition) (n : Nat) : Line → Except GrammarError Definition
  | .empty => .ok d
  | .terminals names =>
    if d.terminals.isSome then .error (.malformedLine n (.duplicate .terminals))
    else .ok { d with terminals := some names }
  | .nonterminals names =>
    if d.nonterminals.isSome then .error (.malformedLine n (.duplicate .nonterminals))
    else .ok { d with nonterminals := some names }
  | .start name =>
    if d.start.isSome then .error (.malformedLine n (.duplicate .start))
    else .ok { d with start := some name }
  | .rule lhs rhs => .ok { d with rules := d.rules ++ [⟨lhs, rhs, n⟩] }

def readTokens (t : NameTable) (d : Definition) (n : Nat) (tokens : List Token) :
    Except GrammarError Definition :=
  if tokens = [] then .ok d
  else match Clause.ofTokens? tokens with
    | some c => d.addLine n (c.toLine fun i => (t.name? i).getD "")
    | none => .error (.malformedLine n .unexpected)

/-- Reads a definition file, whose lines are numbered from one. -/
def read (source : String) : Except GrammarError Definition := do
  let (tokens, t) ← tokenize source
  ((tokens.splitOn .lineFeed).zipIdx 1).foldlM (fun d (line, n) => d.readTokens t n line) empty

def allNonterminals (d : Definition) : List String :=
  d.nonterminals.getD (NameTable.ofList (d.rules.map RuleDefinition.lhs)).names

/-- The terminals that are declared, or else the words on right-hand sides that are neither
nonterminals nor `ε`. -/
def allTerminals (d : Definition) : List String :=
  let words := d.rules.flatMap RuleDefinition.rhs
  d.terminals.getD (NameTable.ofList
    (words.filter fun word => word ≠ epsilonName ∧ word ∉ d.allNonterminals)).names

def start? (d : Definition) : Option String :=
  d.start.or d.allNonterminals.head?

def toGrammar (d : Definition) : Except GrammarError Grammar :=
  match d.start? with
  | none => .error (.malformedLine 1 .noNonterminals)
  | some start =>
    Grammar.load (d.rules.map RuleDefinition.text) d.allTerminals d.allNonterminals start

end Definition

def Grammar.ofSource (source : String) : Except GrammarError Grammar :=
  Definition.read source >>= Definition.toGrammar

end SimpleLR
