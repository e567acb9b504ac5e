import Mathlib.Data.List.Basic
import SimpleLR.Proofs.Automaton.ViablePrefix

namespace SimpleLR

variable {g : Grammar} {i j k n : Nat} {x : Symbol} {I K : ItemSet} {xs : List Symbol}

namespace Automaton

open Collection

variable {c : Collection g}

theorem mem_iff_getElem? (hc : c.itemSets <+: (canonical g).itemSets)
    (hK : (ofGrammar g).itemSets[k]? = some K) : K ∈ c.itemSets ↔ c.itemSets[k]? = some K := by
  apply Iff.intro
  · intro h
    obtain ⟨m, hm⟩ := List.mem_iff_getElem?.1 h
    have hindex : (ofGrammar g).index? K = some m := index?_eq_some_iff.2 (getElem?_mono hc hm)
    rw [index?_eq_some_iff.2 hK] at hindex
    rwa [Option.some.inj hindex]
  · exact List.mem_of_getElem?

theorem mem_iff_lt_length (hc : c.itemSets <+: (canonical g).itemSets)
    (hK : (ofGrammar g).itemSets[k]? = some K) : K ∈ c.itemSets ↔ k < c.itemSets.length := by
  rw [mem_iff_getElem? hc hK]
  apply Iff.intro
  · exact lt_length_of_getElem?
  · intro hk
    exact getElem?_of_mono hc hk hK

theorem exists_goto_eq_iff (hI : (ofGrammar g).itemSets[n]? = some I)
    (hK : (ofGrammar g).itemSets[k]? = some K) :
    (∃ x ∈ xs, K = ItemSet.goto g I x ∧ K ≠ ∅) ↔ ∃ x ∈ xs, (ofGrammar g).goto n x = some k := by
  apply Iff.intro
  · intro h
    obtain ⟨x, hx, rfl, -⟩ := h
    exact ⟨x, hx, goto_eq_some_iff.2 ⟨I, hI, hK⟩⟩
  · intro h
    obtain ⟨x, hx, hk⟩ := h
    obtain ⟨J, hJ, hK'⟩ := goto_eq_some_iff.1 hk
    obtain rfl := Option.some.inj (hI.symm.trans hJ)
    obtain rfl := Option.some.inj (hK.symm.trans hK')
    exact ⟨x, hx, rfl, ne_empty_of_itemSets hK⟩

/-- The state is the initial one, or a move leads to it that comes before the moves from state `n`
over the symbols from position `t` on. Moves are made state by state, and from each state in the
order of the symbols. -/
def FoundBefore (g : Grammar) (n t k : Nat) : Prop :=
  k = 0 ∨ ∃ m x, (ofGrammar g).goto m x = some k ∧ (m < n ∨ m = n ∧ g.symbols.idxOf x < t)

theorem foundBefore_succ : FoundBefore g (n + 1) 0 k ↔ FoundBefore g n g.symbols.length k := by
  apply or_congr_right
  apply Iff.intro
  · intro h
    obtain ⟨m, x, hx, hm⟩ := h
    have hlt := List.idxOf_lt_length_of_mem (mem_symbols_of_goto hx)
    exact ⟨m, x, hx, by omega⟩
  · intro h
    obtain ⟨m, x, hx, hm⟩ := h
    exact ⟨m, x, hx, by omega⟩

theorem mem_moves_iff (hc : K ∈ c.itemSets ↔ FoundBefore g n 0 k)
    (hI : (ofGrammar g).itemSets[n]? = some I) (hK : (ofGrammar g).itemSets[k]? = some K)
    (t : Nat) : K ∈ (c.moves n I (g.symbols.take t)).itemSets ↔ FoundBefore g n t k := by
  rw [mem_moves, hc, exists_goto_eq_iff hI hK, FoundBefore, or_assoc]
  apply or_congr_right
  apply Iff.intro
  · intro h
    rcases h with ⟨m, x, hx, hm⟩ | ⟨x, hxs, hx⟩
    · exact ⟨m, x, hx, by omega⟩
    · have hlt := (List.mem_take_iff_idxOf_lt (mem_symbols_of_goto hx)).1 hxs
      exact ⟨n, x, hx, .inr ⟨rfl, hlt⟩⟩
  · intro h
    obtain ⟨m, x, hx, hm | ⟨rfl, hlt⟩⟩ := h
    · exact .inl ⟨m, x, hx, .inl hm⟩
    · exact .inr ⟨x, (List.mem_take_iff_idxOf_lt (mem_symbols_of_goto hx)).2 hlt, hx⟩

theorem itemSets_eq_some_of_search (h : Search g n c) (hn : n < c.itemSets.length) :
    (ofGrammar g).itemSets[n]? = some c.itemSets[n] :=
  getElem?_mono h.prefix_canonical (List.getElem?_eq_getElem hn)

theorem mem_search_iff (h : Search g n c) (hK : (ofGrammar g).itemSets[k]? = some K) :
    K ∈ c.itemSets ↔ FoundBefore g n 0 k := by
  induction h with
  | initial =>
    rw [mem_iff_lt_length Search.initial.prefix_canonical hK, FoundBefore]
    simp only [Nat.not_lt_zero, and_false, or_self, exists_false, or_false]
    exact Nat.lt_one_iff
  | expand h hn ih =>
    rw [foundBefore_succ, ← mem_moves_iff ih (itemSets_eq_some_of_search h hn) hK,
      List.take_length]

theorem goto_of_search (h : Search g n c) (hj : c.goto i x = some j) :
    (ofGrammar g).goto i x = some j := by
  obtain ⟨-, I, hI, hJ⟩ := h.recorded.sound i x j hj
  exact goto_eq_some_iff.2
    ⟨I, getElem?_mono h.prefix_canonical hI, getElem?_mono h.prefix_canonical hJ⟩

/-- After `n` rounds the edges from the first `n` states have been recorded, with the numbers that
the states keep, and no others. -/
theorem goto_eq_ite_of_search (h : Search g n c) (i : Nat) (x : Symbol) :
    c.goto i x = if i < n then (ofGrammar g).goto i x else none := by
  apply Option.ext
  intro j
  split
  · rename_i hi
    apply Iff.intro
    · exact goto_of_search h
    · intro hj
      obtain ⟨I, hI, hJ⟩ := goto_eq_some_iff.1 hj
      have hlt := Nat.lt_of_lt_of_le hi h.le_length
      have hc := getElem?_of_mono h.prefix_canonical hlt hI
      obtain ⟨k, hk⟩ := h.recorded.complete i x I (made_nil.2 hi) hc (ne_empty_of_itemSets hJ)
      rw [hk, ← goto_of_search h hk, hj]
  · rename_i hi
    apply Iff.intro
    · intro hj
      exact absurd (made_nil.1 (h.recorded.sound i x j hj).1) hi
    · exact nofun

theorem index_of_search (h : Search g n c) :
    c.index[I]? = some i ↔ i < c.size ∧ (ofGrammar g).index? I = some i := by
  rw [c.getElem?_index, index?_eq_some_iff, ← length_itemSets]
  apply Iff.intro
  · intro hi
    exact ⟨lt_length_of_getElem? hi, getElem?_mono h.prefix_canonical hi⟩
  · rintro ⟨hlt, hi⟩
    exact getElem?_of_mono h.prefix_canonical hlt hi

/-- What has been found before a move is an initial part of the states, and the state from which the
move is made belongs to it. -/
theorem exists_lt_iff_foundBefore (hn : n < (ofGrammar g).size) (t : Nat) :
    ∃ m, n < m ∧ ∀ k < (ofGrammar g).size, k < m ↔ FoundBefore g n t k := by
  rw [← length_itemSets] at hn
  obtain ⟨c, hc⟩ := exists_search (Nat.le_of_lt hn)
  have hlt := hc.lt_length hn
  have hI := itemSets_eq_some_of_search hc hlt
  have hrest := prefix_moves (c.moves n c.itemSets[n] (g.symbols.take t)) n c.itemSets[n]
    (g.symbols.drop t)
  rw [← moves_append, List.take_append_drop] at hrest
  have hprefix := hrest.trans (hc.expand hlt).prefix_canonical
  refine ⟨(c.moves n c.itemSets[n] (g.symbols.take t)).itemSets.length, ?_, ?_⟩
  · exact Nat.lt_of_lt_of_le hlt (prefix_moves ..).length_le
  · intro k hk
    obtain ⟨K, hK⟩ := exists_itemSet hk
    rw [← mem_iff_lt_length hprefix hK, mem_moves_iff (mem_search_iff hc hK) hI hK]

end Automaton

end SimpleLR
