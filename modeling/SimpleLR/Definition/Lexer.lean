import SimpleLR.Definition.Line
import SimpleLR.NameTable

namespace SimpleLR

open Text

/-- A word is kept in a table of names, and its token has its position there. -/
inductive Token where
  | lineFeed
  | arrow
  | directive (d : Directive)
  | word (i : Nat)
deriving DecidableEq, Repr

/-- A literal, and after it the longest run of characters of a class. -/
structure Pattern where
  literal : List Char
  repeats : Char → Bool

namespace Pattern

def ofLiteral (a : String) : Pattern :=
  ⟨a.toList, fun _ => false⟩

def size (p : Pattern) (s : List Char) : Nat :=
  if p.literal <+: s then
    p.literal.length + ((s.drop p.literal.length).takeWhile p.repeats).length
  else 0

/-- Each character of a literal counts twice as much as a class. -/
def priority (p : Pattern) : Nat :=
  if p.literal = [] then 1 else 2 * p.literal.length

end Pattern

inductive Lexeme where
  | gap
  | lineFeed
  | comment
  | arrow
  | directive (d : Directive)
  | word
deriving DecidableEq, Repr

namespace Lexeme

def all : List Lexeme :=
  [gap, lineFeed, comment, arrow, directive .terminals, directive .nonterminals,
    directive .start, word]

def inWord (c : Char) : Bool :=
  !Line.isSeparator c && c ≠ '\n'

def pattern : Lexeme → Pattern
  | gap => ⟨[], Line.isSeparator⟩
  | lineFeed => .ofLiteral "\n"
  | comment => ⟨['-', '-'], (· ≠ '\n')⟩
  | arrow => .ofLiteral SimpleLR.arrow
  | directive d => .ofLiteral d.word
  | word => ⟨[], inWord⟩

def size (k : Lexeme) (s : List Char) : Nat :=
  k.pattern.size s

def Beats (s : List Char) (k k' : Lexeme) : Prop :=
  k'.size s < k.size s ∨ k'.size s = k.size s ∧ k'.pattern.priority < k.pattern.priority

instance (s : List Char) (k k' : Lexeme) : Decidable (Beats s k k') :=
  inferInstanceAs (Decidable (_ ∨ _))

def better (s : List Char) (best : Option Lexeme) (k : Lexeme) : Option Lexeme :=
  match best with
  | none => some k
  | some k' => if Beats s k k' then some k else some k'

def longest? (s : List Char) : Option Lexeme :=
  (all.filter fun k => 0 < k.size s).foldl (better s) none

def token? (t : NameTable) (text : String) : Lexeme → Option Token × NameTable
  | gap => (none, t)
  | lineFeed => (some .lineFeed, t)
  | comment => (none, t)
  | arrow => (some .arrow, t)
  | directive d => (some (.directive d), t)
  | word =>
    let (i, t) := t.intern text
    (some (.word i), t)

end Lexeme

/-- The tokens of a text in line number `line`, after its first characters, which belong to the
lexeme before. -/
def tokensFrom (line : Nat) (t : NameTable) :
    Nat → List Char → Except GrammarError (List Token × NameTable)
  | _, [] => .ok ([], t)
  | skipped + 1, _ :: s => tokensFrom line t skipped s
  | 0, c :: s =>
    match Lexeme.longest? (c :: s) with
    | none => .error (.malformedLine line (.other s!"unrecognized input {quote c.toString}"))
    | some k =>
      let n := k.size (c :: s)
      let (token?, t) := k.token? t (String.ofList ((c :: s).take n))
      let line := if k = .lineFeed then line + 1 else line
      (tokensFrom line t (n - 1) s).map fun (tokens, t) => (token?.toList ++ tokens, t)

def tokenize (source : String) : Except GrammarError (List Token × NameTable) :=
  tokensFrom 1 ∅ 0 source.toList

end SimpleLR
