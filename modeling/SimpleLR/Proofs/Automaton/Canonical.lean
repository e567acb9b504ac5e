import SimpleLR.Proofs.Automaton.Search

namespace SimpleLR

/-- Transitions come by source, then by symbol. -/
def Transition.Precedes (t u : Transition) : Prop :=
  t.source < u.source ∨ t.source = u.source ∧ compare t.symbol u.symbol = .lt

namespace Automaton

variable {g : Grammar} {i : Nat} {x : Symbol} {I : ItemSet}

theorem pairwise_transitions (a : Automaton) : a.transitions.Pairwise Transition.Precedes := by
  apply List.pairwise_flatMap.2
  apply And.intro
  · intro c _
    obtain ⟨s, i⟩ := c
    apply List.pairwise_map.2
    apply s.edges.ordered_keys_toList.imp
    intro e e' hlt
    exact .inr ⟨rfl, hlt⟩
  · apply (pairwise_zipIdx a.states).imp
    intro c c' hlt t ht t' ht'
    obtain ⟨e, -, rfl⟩ := List.mem_map.1 ht
    obtain ⟨e', -, rfl⟩ := List.mem_map.1 ht'
    exact .inl hlt

theorem goto_eq_index? (h : (ofGrammar g).itemSets[i]? = some I) (x : Symbol) :
    (ofGrammar g).goto i x = (ofGrammar g).index? (ItemSet.goto g I x) := by
  apply Option.ext
  intro j
  rw [goto_eq_some_iff, index?_eq_some_iff]
  apply Iff.intro
  · intro h'
    obtain ⟨J, hJ, hj⟩ := h'
    obtain rfl := Option.some.inj (h.symm.trans hJ)
    exact hj
  · intro hj
    exact ⟨I, h, hj⟩

/-- The canonical automaton of a grammar. The search for its states ends after a round for each of
them, and what it holds then is the automaton. At any time before, its index has the states found so
far with their numbers, and the edges from the states expanded so far are recorded. A symbol leads
from a state to the one that holds just what the items move to, and there is such a state if they
move at all. The transitions are in order, so none of them comes twice. -/
structure IsCanonical (g : Grammar) (a : Automaton) : Prop where
  bounded : ∀ n c, Collection.Search g n c → n ≤ a.size
  finished : ∃ c, Collection.Search g a.size c ∧ c.toAutomaton = a
  indexed : ∀ n c I i, Collection.Search g n c →
    (c.index[I]? = some i ↔ i < c.size ∧ a.index? I = some i)
  recorded : ∀ n c i x, Collection.Search g n c →
    c.goto i x = if i < n then a.goto i x else none
  initial : a.itemSets[0]? = some (ItemSet.closure g {⟨0, 0⟩})
  closed : ∀ I ∈ a.itemSets, ∀ x, ItemSet.goto g I x ≠ ∅ → ItemSet.goto g I x ∈ a.itemSets
  nonempty : ∅ ∉ a.itemSets
  nodup : a.itemSets.Nodup
  reached : ∀ i < a.size, ∃ γ, a.follow γ = some i
  inRange : ∀ I ∈ a.itemSets, ∀ i ∈ I,
    ∃ p, g.productions[i.production]? = some p ∧ i.dot ≤ p.rhs.length
  moves : ∀ i I x, a.itemSets[i]? = some I → a.goto i x = a.index? (ItemSet.goto g I x)
  transitions : ∀ t, t ∈ a.transitions ↔
    ∃ I, a.itemSets[t.source]? = some I ∧ a.index? (ItemSet.goto g I t.symbol) = some t.target
  ordered : a.transitions.Pairwise Transition.Precedes

theorem isCanonical_ofGrammar (g : Grammar) : (ofGrammar g).IsCanonical g where
  bounded n c h := by
    rw [← length_itemSets]
    exact Nat.le_trans h.le_length h.prefix_canonical.length_le
  finished := by
    rw [← length_itemSets]
    exact ⟨_, Collection.search_canonical g, rfl⟩
  indexed _ _ _ _ h := index_of_search h
  recorded _ _ i x h := goto_eq_ite_of_search h i x
  initial := itemSets_zero g
  closed I hI x hne := by
    obtain ⟨i, hi⟩ := List.mem_iff_getElem?.1 hI
    obtain ⟨j, -, hj⟩ := exists_goto_of_ne_empty hi hne
    exact List.mem_of_getElem? hj
  nonempty := empty_not_mem_itemSets g
  nodup := itemSets_nodup g
  reached i hi := by
    obtain ⟨I, hI⟩ := exists_itemSet hi
    exact exists_follow_of_itemSets hI
  inRange := (Collection.canonical g).inRange
  moves i I x hI := goto_eq_index? hI x
  transitions t := by
    rw [mem_transitions, goto_eq_some_iff]
    apply exists_congr
    intro I
    rw [index?_eq_some_iff]
  ordered := pairwise_transitions (ofGrammar g)

/-- The state after `(` goes to itself on `(`, and an undeclared symbol leads nowhere. -/
theorem isCanonical_nested :
    ∃ g, Grammar.load ["S -> ( S )", "S -> a"] ["(", ")", "a"] ["S"] "S" = .ok g ∧
      (ofGrammar g).IsCanonical g ∧ (ofGrammar g).size = 6 ∧
      (ofGrammar g).goto 1 (.terminal "(") = some 1 ∧
      (ofGrammar g).goto 1 (.terminal "[") = none := by
  obtain ⟨g, hg, h⟩ := exists_ok_of_any
    (r := Grammar.load ["S -> ( S )", "S -> a"] ["(", ")", "a"] ["S"] "S")
    (p := fun g => (ofGrammar g).size = 6 ∧ (ofGrammar g).goto 1 (.terminal "(") = some 1 ∧
      (ofGrammar g).goto 1 (.terminal "[") = none)
    (by decide +kernel)
  exact ⟨g, hg, isCanonical_ofGrammar g, of_decide_eq_true h⟩

end Automaton

end SimpleLR
