import Std.Data.ExtTreeMap
import SimpleLR.Automaton.Basic
import SimpleLR.Lookup

namespace SimpleLR

def Grammar.items (g : Grammar) : List Item :=
  g.productions.zipIdx.flatMap fun (p, i) => (List.range (p.rhs.length + 1)).map (⟨i, ·⟩)

theorem Grammar.mem_items {g : Grammar} {i : Item} : i ∈ g.items ↔ i.InRange g := by
  cases i
  simp only [items, Item.InRange, List.mem_flatMap, List.mem_map, List.mem_range, Prod.exists,
    List.mem_zipIdx_iff_getElem?, Item.mk.injEq]
  grind

namespace ItemSet

instance : Ord ItemSet :=
  ⟨compareOn Std.ExtTreeSet.toList⟩

instance : Std.TransOrd ItemSet :=
  inferInstanceAs (Std.TransCmp (compareOn Std.ExtTreeSet.toList))

instance : Std.LawfulEqOrd ItemSet where
  eq_of_compare h := Std.ExtTreeSet.toList_inj.1 (Std.LawfulEqCmp.eq_of_compare h)

def subsets : List Item → List ItemSet
  | [] => [∅]
  | i :: is => subsets is ++ (subsets is).map (·.insert i)

theorem mem_subsets {is : List Item} {I : ItemSet} (h : ∀ i ∈ I, i ∈ is) : I ∈ subsets is := by
  induction is generalizing I with
  | nil =>
    rw [subsets, List.mem_singleton, Std.ExtTreeSet.eq_empty_iff_forall_not_mem]
    exact fun i hi => List.not_mem_nil (h i hi)
  | cons i is ih =>
    rw [subsets, List.mem_append, List.mem_map]
    by_cases hi : i ∈ I
    · refine .inr ⟨I.erase i, ih fun j hj => ?_, Std.ExtTreeSet.ext_mem fun j => ?_⟩
      · simp only [Std.ExtTreeSet.mem_erase, ne_eq, Std.LawfulEqCmp.compare_eq_iff_eq] at hj
        exact (List.mem_cons.1 (h j hj.2)).resolve_left (Ne.symm hj.1)
      · grind
    · exact .inl (ih fun j hj => (List.mem_cons.1 (h j hj)).resolve_left (by grind))

end ItemSet

/-- The part of the automaton of a grammar that has been found, and the number of each item set in
it. -/
structure Collection (g : Grammar) extends Automaton where
  index : Std.ExtTreeMap ItemSet Nat
  getElem?_index (I : ItemSet) (i : Nat) : index[I]? = some i ↔ toAutomaton.itemSets[i]? = some I
  inRange : ∀ I ∈ toAutomaton.itemSets, I.InRange g

namespace Collection

variable {g : Grammar}

theorem nodup (c : Collection g) : c.itemSets.Nodup :=
  nodup_of_positions c.getElem?_index

theorem length_le (c : Collection g) : c.itemSets.length ≤ (ItemSet.subsets g.items).length :=
  c.nodup.length_le_of_subset fun I hI =>
    ItemSet.mem_subsets fun i hi => Grammar.mem_items.2 (c.inRange I hI i hi)

theorem not_mem_of_index {c : Collection g} {I : ItemSet} (h : c.index[I]? = none) :
    I ∉ c.itemSets := by
  intro hI
  obtain ⟨i, hi⟩ := List.mem_iff_getElem?.1 hI
  cases h.symm.trans ((c.getElem?_index I i).2 hi)

def initial (g : Grammar) : Collection g where
  states := [⟨ItemSet.closure g {⟨0, 0⟩}, ∅⟩]
  index := .insert ∅ (ItemSet.closure g {⟨0, 0⟩}) 0
  getElem?_index := positions_concat (l := []) (by simp) List.not_mem_nil
  inRange I hI := by
    obtain rfl := List.mem_singleton.1 hI
    refine ItemSet.InRange.closure fun i hi => ?_
    obtain rfl : ⟨0, 0⟩ = i := by simpa using hi
    exact ⟨g.startProduction, rfl, Nat.zero_le _⟩

/-- Adds a state for a new item set, which gets the next number. -/
def add (c : Collection g) (I : ItemSet) (hI : I.InRange g) (hnew : c.index[I]? = none) :
    Collection g where
  toAutomaton := c.addState I
  index := c.index.insert I c.size
  getElem?_index := by
    rw [Automaton.itemSets_addState, ← Automaton.length_itemSets]
    exact positions_concat c.getElem?_index (not_mem_of_index hnew)
  inRange := by
    rw [Automaton.itemSets_addState]
    exact List.forall_mem_append.2 ⟨c.inRange, List.forall_mem_singleton.2 hI⟩

/-- The number of an item set after it has been added, unless it is there already, and the
collection with it. -/
def intern (c : Collection g) (I : ItemSet) (hI : I.InRange g) : Nat × Collection g :=
  match h : c.index[I]? with
  | some i => (i, c)
  | none => (c.size, c.add I hI h)

def connect (c : Collection g) (i : Nat) (x : Symbol) (j : Nat) : Collection g where
  toAutomaton := c.addEdge i x j
  index := c.index
  getElem?_index := by
    rw [Automaton.itemSets_addEdge]
    exact c.getElem?_index
  inRange := by
    rw [Automaton.itemSets_addEdge]
    exact c.inRange

/-- Moves over a symbol from state `i`, whose items are those of `I`, and records where that leads
if it leads anywhere. -/
def move (c : Collection g) (i : Nat) (I : ItemSet) (x : Symbol) : Collection g :=
  let J := ItemSet.goto g I x
  if J = ∅ then c
  else
    let (j, c) := c.intern J (ItemSet.inRange_goto g I x)
    c.connect i x j

def moves (c : Collection g) (i : Nat) (I : ItemSet) (xs : List Symbol) : Collection g :=
  xs.foldl (fun c x => c.move i I x) c

/-- Expands all states from state `n` on, in the order in which they are found, by the moves over
the symbols of the grammar. -/
def expandFrom (c : Collection g) (n : Nat) : Collection g :=
  if h : n < c.itemSets.length then (c.moves n c.itemSets[n] g.symbols).expandFrom (n + 1) else c
termination_by (ItemSet.subsets g.items).length - n
decreasing_by
  have := c.length_le
  omega

def canonical (g : Grammar) : Collection g :=
  (initial g).expandFrom 0

end Collection

def Automaton.ofGrammar (g : Grammar) : Automaton :=
  (Collection.canonical g).toAutomaton

end SimpleLR
