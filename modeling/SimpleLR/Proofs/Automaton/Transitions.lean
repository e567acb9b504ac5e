import Mathlib.Data.List.Nodup
import SimpleLR.Automaton.Validity
import SimpleLR.Proofs.Automaton.Collection

namespace SimpleLR

namespace Automaton

variable {g : Grammar} {i j : Nat} {x : Symbol} {I : ItemSet} {item : Item}

/-- An automaton is known by its item sets and by where it goes. -/
theorem ext_goto {a b : Automaton} (hsets : a.itemSets = b.itemSets)
    (hgoto : ∀ i x, a.goto i x = b.goto i x) : a = b := by
  apply Automaton.ext
  apply List.ext_getElem?
  intro i
  have hitems : a.states[i]?.map State.items = b.states[i]?.map State.items := by
    rw [← List.getElem?_map, ← List.getElem?_map]
    exact congrArg (·[i]?) hsets
  have hedges : ∀ x, a.states[i]?.bind (·.edges[x]?) = b.states[i]?.bind (·.edges[x]?) := hgoto i
  cases hs : a.states[i]? with
  | none =>
    rw [hs] at hitems
    exact (Option.map_eq_none_iff.1 hitems.symm).symm
  | some s =>
    rw [hs] at hitems hedges
    obtain ⟨t, ht, hst⟩ := Option.map_eq_some_iff.1 hitems.symm
    rw [ht] at hedges
    rw [ht, Option.some.injEq]
    exact State.ext hst.symm (Std.ExtTreeMap.ext_getElem? hedges)

theorem itemSets_nodup (g : Grammar) : (ofGrammar g).itemSets.Nodup :=
  (Collection.canonical g).nodup

theorem itemSets_zero (g : Grammar) :
    (ofGrammar g).itemSets[0]? = some (ItemSet.closure g {⟨0, 0⟩}) :=
  getElem?_mono Collection.Search.initial.prefix_canonical rfl

theorem index?_eq_some_iff : (ofGrammar g).index? I = some i ↔
    (ofGrammar g).itemSets[i]? = some I := by
  rw [index?, List.idxOf?_eq_some_iff, List.getElem?_eq_some_iff]
  apply Iff.intro
  · intro h
    obtain ⟨hi, hI, -⟩ := h
    exact ⟨hi, hI⟩
  · intro h
    obtain ⟨hi, hI⟩ := h
    have hfirst : ∀ k (_ : k < i), ¬ (ofGrammar g).itemSets[k] = I := by
      intro k hk hk'
      have heq := (itemSets_nodup g).getElem_inj_iff.1 (hk'.trans hI.symm)
      omega
    exact ⟨hi, hI, hfirst⟩

theorem empty_not_mem_itemSets (g : Grammar) : ∅ ∉ (ofGrammar g).itemSets :=
  (Collection.search_canonical g).empty_not_mem

theorem ne_empty_of_itemSets (h : (ofGrammar g).itemSets[i]? = some I) : I ≠ ∅ := by
  rintro rfl
  exact empty_not_mem_itemSets g (List.mem_of_getElem? h)

theorem mem_symbols_of_itemSets (h : (ofGrammar g).itemSets[j]? = some (ItemSet.goto g I x)) :
    x ∈ g.symbols := by
  apply Decidable.by_contra
  intro hx
  exact ne_empty_of_itemSets h (ItemSet.goto_eq_empty_of_not_mem_symbols hx)

theorem lt_size_of_itemSets (h : (ofGrammar g).itemSets[i]? = some I) :
    i < (ofGrammar g).size :=
  Collection.lt_size_of_getElem? h

/-- All moves that lead somewhere have been recorded at the end of the search, and nothing else. -/
theorem recorded_ofGrammar (g : Grammar) :
    (Collection.canonical g).Recorded (ofGrammar g).size [] := by
  rw [← length_itemSets]
  exact (Collection.search_canonical g).recorded

theorem exists_goto_of_ne_empty (hI : (ofGrammar g).itemSets[i]? = some I)
    (hne : ItemSet.goto g I x ≠ ∅) : ∃ j, (ofGrammar g).goto i x = some j ∧
      (ofGrammar g).itemSets[j]? = some (ItemSet.goto g I x) := by
  have hmade : Collection.Made (ofGrammar g).size [] i x :=
    Collection.made_nil.2 (lt_size_of_itemSets hI)
  obtain ⟨j, hj⟩ := (recorded_ofGrammar g).complete i x I hmade hI hne
  obtain ⟨-, J, hJ, hgoto⟩ := (recorded_ofGrammar g).sound i x j hj
  obtain rfl := Option.some.inj (hI.symm.trans hJ)
  exact ⟨j, hj, hgoto⟩

theorem goto_eq_some_iff : (ofGrammar g).goto i x = some j ↔
    ∃ I, (ofGrammar g).itemSets[i]? = some I ∧
      (ofGrammar g).itemSets[j]? = some (ItemSet.goto g I x) := by
  constructor
  · intro h
    exact ((recorded_ofGrammar g).sound i x j h).2
  · intro h
    obtain ⟨I, hI, hj⟩ := h
    obtain ⟨k, hk, hgoto⟩ := exists_goto_of_ne_empty hI (ne_empty_of_itemSets hj)
    rw [← index?_eq_some_iff, index?_eq_some_iff.2 hj] at hgoto
    rw [hk, hgoto]

theorem mem_symbols_of_goto (h : (ofGrammar g).goto i x = some j) : x ∈ g.symbols := by
  obtain ⟨I, -, hj⟩ := goto_eq_some_iff.1 h
  exact mem_symbols_of_itemSets hj

theorem exists_itemSet (h : i < (ofGrammar g).size) :
    ∃ I, (ofGrammar g).itemSets[i]? = some I := by
  rw [← length_itemSets] at h
  exact ⟨_, List.getElem?_eq_getElem h⟩

theorem lt_size_of_goto (h : (ofGrammar g).goto i x = some j) : j < (ofGrammar g).size := by
  obtain ⟨I, -, hj⟩ := goto_eq_some_iff.1 h
  exact lt_size_of_itemSets hj

theorem exists_next?_of_goto (h : (ofGrammar g).goto i x = some j) :
    ∃ I item, (ofGrammar g).itemSets[i]? = some I ∧ item ∈ I ∧ item.next? g = some x := by
  obtain ⟨I, hI, hj⟩ := goto_eq_some_iff.1 h
  apply Classical.byContradiction
  intro hnone
  apply ne_empty_of_itemSets hj
  apply ItemSet.goto_eq_empty_iff.2
  intro item hitem hx
  exact hnone ⟨I, item, hI, hitem, hx⟩

theorem goto_ne_zero : (ofGrammar g).goto i x ≠ some 0 := by
  intro h
  obtain ⟨I, item, hI, hitem, hx⟩ := exists_next?_of_goto h
  obtain ⟨J, hJ, hzero⟩ := goto_eq_some_iff.1 h
  obtain rfl := Option.some.inj (hI.symm.trans hJ)
  rw [itemSets_zero] at hzero
  have hadvance := ItemSet.advance_mem_goto hitem hx
  rw [← Option.some.inj hzero] at hadvance
  exact Nat.succ_ne_zero item.dot (ItemSet.dot_eq_zero_of_mem_closure_start hadvance)

theorem exists_goto_of_mem (hI : (ofGrammar g).itemSets[i]? = some I) (hi : item ∈ I)
    (hx : item.next? g = some x) : ∃ j J, (ofGrammar g).goto i x = some j ∧
      (ofGrammar g).itemSets[j]? = some J ∧ item.advance ∈ J := by
  have hne : ItemSet.goto g I x ≠ ∅ :=
    fun hempty => ItemSet.goto_eq_empty_iff.1 hempty item hi hx
  obtain ⟨j, hj, hJ⟩ := exists_goto_of_ne_empty hI hne
  exact ⟨j, _, hj, hJ, ItemSet.advance_mem_goto hi hx⟩

end Automaton

end SimpleLR
