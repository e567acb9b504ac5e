import SimpleLR.Definition.Lexer

namespace SimpleLR

/-- A parser takes some tokens and leaves the others. -/
abbrev TokenParser (α : Type) :=
  StateT (List Token) Option α

namespace TokenParser

variable {α : Type}

def one (select : Token → Option α) : TokenParser α
  | [] => none
  | token :: tokens => (select token).map (·, tokens)

def manyFrom (select : Token → Option α) : List Token → List α × List Token
  | [] => ([], [])
  | token :: tokens =>
    match select token with
    | none => ([], token :: tokens)
    | some a => (manyFrom select tokens).map (a :: ·) id

def many (select : Token → Option α) : TokenParser (List α) :=
  fun tokens => some (manyFrom select tokens)

def keyword (token : Token) : TokenParser Unit :=
  one fun token' => guard (token' = token)

def ending : TokenParser Unit :=
  fun tokens => if tokens = [] then some ((), []) else none

end TokenParser

def Token.word? : Token → Option Nat
  | .word i => some i
  | _ => none

/-- A line of a definition file, with its names given by their positions in a table. -/
inductive Clause where
  | terminals (names : List Nat)
  | nonterminals (names : List Nat)
  | start (name : Nat)
  | rule (lhs : Nat) (rhs : List Nat)
deriving DecidableEq, Repr

namespace Clause

open TokenParser

def parser : TokenParser Clause :=
  (do
    keyword (.directive .terminals)
    return terminals (← many Token.word?)) <|>
  (do
    keyword (.directive .nonterminals)
    return nonterminals (← many Token.word?)) <|>
  (do
    keyword (.directive .start)
    return start (← one Token.word?)) <|>
  (do
    let lhs ← one Token.word?
    keyword .arrow
    return rule lhs (← many Token.word?))

def ofTokens? (tokens : List Token) : Option Clause :=
  (parser <* ending).run' tokens

def toLine (name : Nat → String) : Clause → Line
  | terminals names => .terminals (names.map name)
  | nonterminals names => .nonterminals (names.map name)
  | start i => .start (name i)
  | rule lhs rhs => .rule (name lhs) (rhs.map name)

end Clause

end SimpleLR
