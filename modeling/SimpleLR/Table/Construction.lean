import Std.Data.ExtTreeSet
import SimpleLR.Automaton.Collection
import SimpleLR.Error
import SimpleLR.Follow
import SimpleLR.Table.Basic

namespace SimpleLR

/-- The actions that an item calls for in a state, each with the symbol that it is for: to shift
over a terminal after the dot, to accept at the end of the start production, and to reduce at the
end of another production before each symbol that can follow its nonterminal. -/
def Item.candidates (g : Grammar) (follow : Family) (s : State) (i : Item) :
    List (Symbol × Action) :=
  match i.next? g with
  | some (.terminal a) => s.edges[Symbol.terminal a]?.toList.map fun j => (.terminal a, .shift j)
  | some _ => []
  | none =>
    if i.production = 0 then [(.endMarker, .accept)]
    else match g.productions[i.production]? with
      | none => []
      | some p => (follow.lookup p.lhs).toList.map fun x => (x, .reduce i.production)

namespace State

def candidates (g : Grammar) (follow : Family) (s : State) : List (Symbol × Action) :=
  s.items.toList.flatMap (·.candidates g follow s)

def gotos (g : Grammar) (s : State) : Std.ExtTreeMap String Nat :=
  .ofList (g.nonterminals.names.filterMap fun a =>
    s.edges[Symbol.nonterminal a]?.map (a, ·))

end State

def gather (cs : List (Symbol × Action)) : Std.ExtTreeMap Symbol (Std.ExtTreeSet Action) :=
  cs.foldl (fun m (x, act) => m.insert x ((m.getD x ∅).insert act)) ∅

theorem mem_gather {cs : List (Symbol × Action)} {x : Symbol} {act : Action} :
    act ∈ (gather cs).getD x ∅ ↔ (x, act) ∈ cs := by
  have h (cs : List (Symbol × Action)) : ∀ m : Std.ExtTreeMap Symbol (Std.ExtTreeSet Action),
      act ∈ (cs.foldl (fun m (x, act) => m.insert x ((m.getD x ∅).insert act)) m).getD x ∅ ↔
        act ∈ m.getD x ∅ ∨ (x, act) ∈ cs := by
    induction cs with
    | nil => simp
    | cons c cs ih =>
      intro m
      rw [List.foldl_cons, ih, Std.ExtTreeMap.getD_insert]
      grind
  simp [gather, h]

theorem mem_keys_gather {cs : List (Symbol × Action)} {x : Symbol} :
    x ∈ gather cs ↔ ∃ act, (x, act) ∈ cs := by
  have h (cs : List (Symbol × Action)) : ∀ m : Std.ExtTreeMap Symbol (Std.ExtTreeSet Action),
      x ∈ cs.foldl (fun m (x, act) => m.insert x ((m.getD x ∅).insert act)) m ↔
        x ∈ m ∨ ∃ act, (x, act) ∈ cs := by
    induction cs with
    | nil => simp
    | cons c cs ih =>
      intro m
      rw [List.foldl_cons, ih, Std.ExtTreeMap.mem_insert]
      grind
  simp [gather, h]

/-- The only action for a symbol in state `i`, or a conflict. -/
def resolve (i : Nat) (x : Symbol) (acts : Std.ExtTreeSet Action) :
    Except GrammarError (Symbol × Action) :=
  match acts.toList with
  | [act] => .ok (x, act)
  | acts => .error (.conflict i x acts)

def State.row (g : Grammar) (follow : Family) (s : State) (i : Nat) : Except GrammarError Row := do
  let actions ← (gather (s.candidates g follow)).toList.mapM fun (x, acts) => resolve i x acts
  return ⟨.ofList actions, s.gotos g⟩

namespace ParseTable

def ofAutomaton (g : Grammar) (a : Automaton) (follow : Family) :
    Except GrammarError ParseTable := do
  let rows ← a.states.zipIdx.mapM fun (s, i) => s.row g follow i
  return ⟨rows⟩

def ofGrammar (g : Grammar) : Except GrammarError ParseTable :=
  ofAutomaton g (.ofGrammar g) (Follow.sets g (First.sets g))

end ParseTable

end SimpleLR
