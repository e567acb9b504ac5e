import SimpleLR.Family
import SimpleLR.Grammar.Basic

namespace SimpleLR

namespace First

def ofSymbol (K : Family) : Symbol → SymbolSet
  | .nonterminal a => K.lookup a
  | x => {x}

/-- FIRST of a sequence, which holds `ε` if every symbol can become empty. -/
def ofSequence (K : Family) : List Symbol → SymbolSet
  | [] => {.epsilon}
  | x :: α =>
    let s := ofSymbol K x
    if .epsilon ∈ s then s.erase .epsilon ∪ ofSequence K α else s

def isNullable (K : Family) (a : String) : Bool :=
  .epsilon ∈ K.lookup a

/-- A set that a pass has found, and the sets of the nonterminals that it has done by then. -/
abbrev Finding := SymbolSet × Family

def scanSymbol (visit : String → Family → Finding) : Symbol → Family → Finding
  | .nonterminal a, done => visit a done
  | x, done => ({x}, done)

def scan (visit : String → Family → Finding) : List Symbol → Family → Finding
  | [], done => ({.epsilon}, done)
  | x :: α, done =>
    let head := scanSymbol visit x done
    if .epsilon ∈ head.1 then
      let tail := scan visit α head.2
      (head.1.erase .epsilon ∪ tail.1, tail.2)
    else head

def scanAll (visit : String → Family → Finding) : List (List Symbol) → Family → Finding
  | [], done => (∅, done)
  | α :: αs, done =>
    let head := scan visit α done
    let tail := scanAll visit αs head.2
    (head.1 ∪ tail.1, tail.2)

theorem length_erase_lt {names : List String} {a : String} (h : a ∈ names) :
    (names.erase a).length < names.length := by
  have := List.length_pos_of_mem h
  rw [List.length_erase_of_mem h]
  omega

/-- FIRST of a nonterminal within a pass. A nonterminal that is neither done nor waiting is being
visited already, and has the set that earlier passes know. -/
def visit (g : Grammar) (K : Family) (waiting : List String) (a : String) (done : Family) :
    Finding :=
  match done.get? a with
  | some s => (s, done)
  | none =>
    if _ : a ∈ waiting then
      let found := scanAll (visit g K (waiting.erase a)) (g.alternatives a) done
      (found.1, found.2.add a found.1)
    else (K.lookup a, done)
termination_by waiting.length
decreasing_by exact length_erase_lt ‹_›

def pass (g : Grammar) (K : Family) : Family :=
  g.heads.foldl (fun done a => (visit g K g.heads a done).2) ∅

def step (g : Grammar) (K : Family) : Family :=
  K.merge (pass g K)

def Settled (g : Grammar) (K : Family) : Prop :=
  step g K ≤ K

instance (g : Grammar) : DecidablePred (Settled g) :=
  fun K => inferInstanceAs (Decidable (step g K ≤ K))

end First

end SimpleLR
