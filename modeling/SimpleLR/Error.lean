import SimpleLR.Action
import SimpleLR.Symbol
import SimpleLR.Text.Quoted

namespace SimpleLR

open Text

/-- What is wrong with the form of a rule; `other` is for a caller's own checks. -/
inductive RuleFault where
  | arrowCount
  | noLeft
  | longLeft
  | leftNotNonterminal
  | emptyRight
  | epsilonAmongOthers
  | other (reason : String)
deriving DecidableEq, Repr

def RuleFault.message : RuleFault → String
  | arrowCount => "expected exactly one `->`"
  | noLeft => "missing left-hand side"
  | longLeft => "left-hand side must be a single symbol"
  | leftNotNonterminal => "left-hand side is not a declared nonterminal"
  | emptyRight => "empty right-hand side"
  | epsilonAmongOthers => "`ε` must be the whole right-hand side"
  | other reason => reason

inductive Directive where
  | terminals
  | nonterminals
  | start
deriving DecidableEq, Repr

def Directive.word : Directive → String
  | terminals => "%terminals"
  | nonterminals => "%nonterminals"
  | start => "%start"

inductive LineFault where
  | duplicate (directive : Directive)
  | unexpected
  | noNonterminals
  | other (message : String)
deriving DecidableEq, Repr

def LineFault.message : LineFault → String
  | duplicate directive => s!"duplicate {directive.word} directive"
  | unexpected => "expected a directive or `LHS -> symbols`"
  | noNonterminals => "grammar has no nonterminals"
  | other message => message

inductive TableFault where
  | noHeader
  | header (found expected : List String)
  | noSeparator
  | separator
  | row (line : String)
  | cellCount (line : String) (found expected : Nat)
  | stateIndex (cell : String)
  | stateOrder (expected found : Nat)
  | gotoCell (cell : String) (state : Nat)
  | actionCell (cell : String) (state : Nat)
  | other (message : String)
deriving DecidableEq, Repr

def TableFault.message : TableFault → String
  | noHeader => "missing header row"
  | header found expected =>
    s!"header {quoteList found} does not match grammar columns {quoteList expected}"
  | noSeparator => "missing separator row"
  | separator => "malformed separator row"
  | row line => s!"malformed row {quote line}"
  | cellCount line found expected => s!"row {quote line} has {found} cells, expected {expected}"
  | stateIndex cell => s!"bad state index {quote cell}"
  | stateOrder expected found => s!"expected state {expected}, found {found}"
  | gotoCell cell state => s!"bad goto cell {quote cell} in state {state}"
  | actionCell cell state => s!"bad action cell {quote cell} in state {state}"
  | other message => message

inductive GrammarError where
  | malformedRule (rule : String) (fault : RuleFault)
  | undefinedSymbol (rule symbol : String)
  | unknownStart (name : String)
  | duplicateSymbol (name : String)
  | reservedSymbol (name : String)
  | conflict (state : Nat) (symbol : Symbol) (actions : List Action)
  | malformedLine (line : Nat) (fault : LineFault)
  | malformedTable (fault : TableFault)
deriving DecidableEq, Repr

def GrammarError.message : GrammarError → String
  | malformedRule rule fault => s!"malformed rule {quote rule}: {fault.message}"
  | undefinedSymbol rule symbol => s!"undefined symbol {quote symbol} in rule {quote rule}"
  | unknownStart name => s!"start symbol {quote name} is not a declared nonterminal"
  | duplicateSymbol name => s!"symbol {quote name} is declared more than once"
  | reservedSymbol name => s!"symbol {quote name} is reserved"
  | conflict state symbol actions =>
    s!"grammar is not SLR(1): conflict in state {state} on {symbol.name}: " ++
      " / ".intercalate (actions.map Action.text)
  | malformedLine line fault => s!"syntax error on line {line}: {fault.message}"
  | malformedTable fault => s!"malformed table: {fault.message}"

end SimpleLR
