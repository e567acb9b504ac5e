import SimpleLR.Error

namespace SimpleLR

inductive Line where
  | empty
  | terminals (names : List String)
  | nonterminals (names : List String)
  | start (name : String)
  | rule (lhs : String) (rhs : List String)
deriving DecidableEq, Repr

namespace Line

def isSeparator (c : Char) : Bool :=
  c = ' ' || c = '\t' || c = '\x0c' || c = '\r'

end Line

end SimpleLR
