import Std.Data.ExtTreeMap
import SimpleLR.Action
import SimpleLR.Symbol

namespace SimpleLR

structure Row where
  actions : Std.ExtTreeMap Symbol Action
  gotos : Std.ExtTreeMap String Nat
deriving DecidableEq

structure ParseTable where
  rows : List Row
deriving DecidableEq

namespace ParseTable

def size (t : ParseTable) : Nat :=
  t.rows.length

def isEmpty (t : ParseTable) : Bool :=
  t.rows.isEmpty

def action? (t : ParseTable) (i : Nat) (x : Symbol) : Option Action :=
  t.rows[i]?.bind (·.actions[x]?)

def goto? (t : ParseTable) (i : Nat) (a : String) : Option Nat :=
  t.rows[i]?.bind (·.gotos[a]?)

def actions (t : ParseTable) : List (Nat × Symbol × Action) :=
  t.rows.zipIdx.flatMap fun (r, i) => r.actions.toList.map fun (x, act) => (i, x, act)

def gotos (t : ParseTable) : List (Nat × String × Nat) :=
  t.rows.zipIdx.flatMap fun (r, i) => r.gotos.toList.map fun (a, j) => (i, a, j)

theorem mem_actions {t : ParseTable} {i : Nat} {x : Symbol} {act : Action} :
    (i, x, act) ∈ t.actions ↔ t.action? i x = some act := by
  simp only [actions, action?, List.mem_flatMap, List.mem_map, Prod.exists, Prod.mk.injEq,
    List.mem_zipIdx_iff_getElem?, Option.bind_eq_some_iff,
    Std.ExtTreeMap.mem_toList_iff_getElem?_eq_some]
  grind

theorem mem_gotos {t : ParseTable} {i : Nat} {a : String} {j : Nat} :
    (i, a, j) ∈ t.gotos ↔ t.goto? i a = some j := by
  simp only [gotos, goto?, List.mem_flatMap, List.mem_map, Prod.exists, Prod.mk.injEq,
    List.mem_zipIdx_iff_getElem?, Option.bind_eq_some_iff,
    Std.ExtTreeMap.mem_toList_iff_getElem?_eq_some]
  grind

end ParseTable

end SimpleLR
