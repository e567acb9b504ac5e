import SimpleLR.Definition.Basic
import SimpleLR.FileSystem
import SimpleLR.Listing
import SimpleLR.Table.Construction
import SimpleLR.Table.Text

namespace SimpleLR

inductive Failure where
  | reading (path : String) (cause : FileError)
  | loading (path : String) (cause : GrammarError)
  | creating (path : String) (cause : FileError)
  | building (path : String) (cause : GrammarError)
deriving DecidableEq, Repr

namespace Failure

def context : Failure → String
  | reading path _ => s!"can't read grammar {path}"
  | loading path _ => s!"invalid grammar {path}"
  | creating path _ => s!"can't create {path}"
  | building path _ => s!"can't build table for {path}"

def reason : Failure → String
  | reading _ cause => cause.message
  | loading _ cause => cause.message
  | creating _ cause => cause.message
  | building _ cause => cause.message

def chain (f : Failure) : List String :=
  [f.context, f.reason]

def message (f : Failure) : String :=
  ": ".intercalate f.chain

end Failure

section

variable {m : Type → Type} [Monad m] [FileAccess m]

/-- Does something of which an error is a failure of the whole. -/
def attempt {ε α : Type} (fail : ε → Failure) (act : m (Except ε α)) : ExceptT Failure m α :=
  ExceptT.mk (Except.mapError fail <$> act)

/-- Reads a grammar definition and writes its table. A listing is written first if one is asked
for, so that it is there even if the grammar has no table. -/
def generate (source output : String) (withListing : Bool) : ExceptT Failure m Unit := do
  let text ← attempt (.reading source) (FileAccess.readText source)
  let g ← attempt (.loading source) (pure (Grammar.ofSource text))
  let a := Automaton.ofGrammar g
  let first := First.sets g
  let follow := Follow.sets g first
  if withListing then
    let path := Listing.path output
    attempt (.creating path) (FileAccess.writeText path (Listing.all g a first follow))
  let t ← attempt (.building source) (pure (ParseTable.ofAutomaton g a follow))
  attempt (.creating output) (FileAccess.writeText output (t.text g))

end

def FileSystem.generate (fs : FileSystem) (source output : String) (withListing : Bool) :
    Except Failure Unit × FileSystem :=
  (SimpleLR.generate (m := StateM FileSystem) source output withListing).run.run fs

end SimpleLR
