import Std.Data.ExtTreeMap
import SimpleLR.Item

namespace SimpleLR

@[ext] structure State where
  items : ItemSet
  edges : Std.ExtTreeMap Symbol Nat
deriving DecidableEq

structure Transition where
  source : Nat
  symbol : Symbol
  target : Nat
deriving DecidableEq, Repr

@[ext] structure Automaton where
  states : List State
deriving DecidableEq

namespace Automaton

def size (a : Automaton) : Nat :=
  a.states.length

def isEmpty (a : Automaton) : Bool :=
  a.states.isEmpty

def itemSets (a : Automaton) : List ItemSet :=
  a.states.map State.items

def index? (a : Automaton) (I : ItemSet) : Option Nat :=
  a.itemSets.idxOf? I

def goto (a : Automaton) (i : Nat) (x : Symbol) : Option Nat :=
  a.states[i]?.bind (·.edges[x]?)

/-- All transitions, ordered by source and symbol. -/
def transitions (a : Automaton) : List Transition :=
  a.states.zipIdx.flatMap fun (s, i) => s.edges.toList.map fun (x, j) => ⟨i, x, j⟩

def addState (a : Automaton) (I : ItemSet) : Automaton :=
  ⟨a.states ++ [⟨I, ∅⟩]⟩

/-- Records that `x` leads from state `i` to state `j`. -/
def addEdge (a : Automaton) (i : Nat) (x : Symbol) (j : Nat) : Automaton :=
  ⟨a.states.modify i fun s => { s with edges := s.edges.insert x j }⟩

variable {a : Automaton} {i : Nat} {I : ItemSet}

theorem mem_transitions {t : Transition} :
    t ∈ a.transitions ↔ a.goto t.source t.symbol = some t.target := by
  cases t
  simp only [transitions, goto, List.mem_flatMap, List.mem_map, Prod.exists,
    List.mem_zipIdx_iff_getElem?, Transition.mk.injEq, Option.bind_eq_some_iff,
    Std.ExtTreeMap.mem_toList_iff_getElem?_eq_some]
  grind

theorem length_itemSets (a : Automaton) : a.itemSets.length = a.size :=
  List.length_map _

theorem itemSets_eq_some_iff :
    a.itemSets[i]? = some I ↔ ∃ s, a.states[i]? = some s ∧ s.items = I := by
  rw [itemSets, List.getElem?_map, Option.map_eq_some_iff]

@[simp] theorem itemSets_addState (a : Automaton) (I : ItemSet) :
    (a.addState I).itemSets = a.itemSets ++ [I] :=
  List.map_append

@[simp] theorem itemSets_addEdge (a : Automaton) (i : Nat) (x : Symbol) (j : Nat) :
    (a.addEdge i x j).itemSets = a.itemSets := by
  apply List.ext_getElem?
  intro k
  rw [itemSets, List.getElem?_map, addEdge, List.getElem?_modify, itemSets, List.getElem?_map,
    Option.map_eq_map, Option.map_map]
  congr 1
  funext s
  rw [Function.comp_apply]
  split <;> rfl

@[simp] theorem goto_addState (a : Automaton) (I : ItemSet) (i : Nat) (x : Symbol) :
    (a.addState I).goto i x = a.goto i x := by
  rw [goto, addState, List.getElem?_append, goto]
  split
  · rfl
  · rename_i hi
    rw [List.getElem?_eq_none (Nat.le_of_not_lt hi), Option.bind_none, List.getElem?_singleton]
    split
    · exact Std.ExtTreeMap.getElem?_empty
    · rfl

theorem goto_addEdge (hi : i < a.size) (x : Symbol) (j k : Nat) (y : Symbol) :
    (a.addEdge i x j).goto k y = if k = i ∧ y = x then some j else a.goto k y := by
  rw [goto, addEdge, List.getElem?_modify, goto]
  by_cases hk : i = k
  · subst hk
    have hs : a.states[i]? = some a.states[i] := List.getElem?_eq_getElem hi
    simp only [hs, if_true, Option.map_eq_map, Option.map_some, Option.bind_some,
      Std.ExtTreeMap.getElem?_insert, Std.LawfulEqCmp.compare_eq_iff_eq, true_and,
      eq_comm (a := x)]
  · simp only [hk, if_false, Option.map_eq_map, Option.map_id_fun', id, Ne.symm hk, false_and]

end Automaton

end SimpleLR
