import SimpleLR.Automaton.Basic
import SimpleLR.Follow

namespace SimpleLR

/-- An item, with a period for its dot. A dot past the end is not shown. -/
def Item.text (g : Grammar) (i : Item) : String :=
  match g.productions[i.production]? with
  | none => s!"<bad item Item \x7b prod: {i.production}, dot: {i.dot} \x7d>"
  | some p =>
    let before := p.rhs.take i.dot
    let after := p.rhs.drop i.dot
    let dot := if i.dot < p.rhs.length then ". " else if i.dot = p.rhs.length then "." else ""
    s!"{p.lhs} {arrow} " ++ String.join (before.map (·.name ++ " ")) ++ dot ++
      String.join (after.map (·.name ++ " "))

namespace Listing

def path (output : String) : String :=
  output ++ ".lst"

def productions (g : Grammar) : String :=
  s!"PS,{g.productions.length}\n\n" ++
    String.join (g.productions.zipIdx.map fun (p, i) => s!"P,{i},{p.text}\n")

def state (g : Grammar) (s : State) (i : Nat) : String :=
  String.join (s.items.toList.map fun item => s!"C,{i},{item.text g}\n") ++ "\n"

def transition (t : Transition) : String :=
  s!"T,{t.source},{t.symbol.name},{t.target}\n"

def states (g : Grammar) (a : Automaton) : String :=
  s!"CS,{a.size}\n\n" ++ String.join (a.states.zipIdx.map fun (s, i) => state g s i) ++
    String.join (a.transitions.map transition)

def symbolSet (label a : String) (s : SymbolSet) : String :=
  s!"{label},{a}," ++ "\x7b" ++ String.join (s.toList.map (·.name ++ ", ")) ++ "\x7d\n"

def sets (first follow : Family) : String :=
  String.join (first.toList.map fun (a, s) => symbolSet "FIRST" a s) ++ "\n" ++
    String.join (follow.toList.map fun (a, s) => symbolSet "FOLLOW" a s)

def all (g : Grammar) (a : Automaton) (first follow : Family) : String :=
  productions g ++ "\n" ++ states g a ++ "\n" ++ sets first follow

end Listing

end SimpleLR
