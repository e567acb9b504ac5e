import SimpleLR.Proofs.Automaton.Transitions
import SimpleLR.Proofs.Grammar.Renaming

namespace SimpleLR

namespace Grammar.Renames

variable {g g' : Grammar} {π : Equiv.Perm String} {I : ItemSet} {i j : Item} {x : Symbol}

theorem next?_eq (h : g.Renames g' π) (i : Item) :
    i.next? g' = (i.next? g).map (Symbol.rename π) := by
  rw [Item.next?, Item.next?, h.productions, List.getElem?_map]
  cases g.productions[i.production]? with
  | none => rfl
  | some p => exact List.getElem?_map

theorem next?_eq_some_iff (h : g.Renames g' π) :
    i.next? g' = some (x.rename π) ↔ i.next? g = some x := by
  rw [h.next?_eq, ← Option.map_some, (Option.map_injective (Symbol.rename_injective π)).eq_iff]

theorem mem_expansion (h : g.Renames g' π) (hj : j ∈ i.expansion g) : j ∈ i.expansion g' := by
  obtain ⟨a, p, hx, hp, rfl, hdot⟩ := Item.mem_expansion.1 hj
  have hp' : g'.productions[j.production]? = some (p.rename π) := by
    rw [h.productions, List.getElem?_map, hp, Option.map_some]
  exact Item.mem_expansion.2 ⟨_, p.rename π, h.next?_eq_some_iff.2 hx, hp', rfl, hdot⟩

theorem mem_closure (h : g.Renames g' π) : ∀ i ∈ ItemSet.closure g I, i ∈ ItemSet.closure g' I := by
  apply ItemSet.closure_induction
  · exact fun i hi => ItemSet.mem_closure_of_mem hi
  · exact fun i hi j hj => ItemSet.mem_closure_of_mem_expansion hi (h.mem_expansion hj)

theorem closure_eq (h : g.Renames g' π) (I : ItemSet) :
    ItemSet.closure g' I = ItemSet.closure g I :=
  Std.ExtTreeSet.ext_mem fun i => ⟨h.symm.mem_closure i, h.mem_closure i⟩

theorem goto_eq (h : g.Renames g' π) (I : ItemSet) (x : Symbol) :
    ItemSet.goto g' I (x.rename π) = ItemSet.goto g I x := by
  have hadvance : ItemSet.advance g' I (x.rename π) = ItemSet.advance g I x := by
    apply Std.ExtTreeSet.ext_mem
    intro j
    simp only [ItemSet.mem_advance, h.next?_eq_some_iff]
  rw [ItemSet.goto, hadvance, h.closure_eq, ItemSet.goto]

variable {c : Collection g} {c' : Collection g'}

theorem itemSets_moves (h : g.Renames g' π) (hc : c'.itemSets = c.itemSets) (n : Nat)
    (I : ItemSet) (xs : List Symbol) :
    (c'.moves n I (xs.map (Symbol.rename π))).itemSets = (c.moves n I xs).itemSets := by
  induction xs generalizing c c' with
  | nil => exact hc
  | cons x xs ih =>
    apply ih
    rw [Collection.itemSets_move, Collection.itemSets_move, h.goto_eq, hc]

theorem itemSets_expandFrom (h : g.Renames g' π) (hc : c'.itemSets = c.itemSets) (n : Nat) :
    (c'.expandFrom n).itemSets = (c.expandFrom n).itemSets := by
  fun_induction Collection.expandFrom c n generalizing c' with
  | case1 c n hn ih =>
    have hn' : n < c'.itemSets.length := by rwa [hc]
    rw [Collection.expandFrom, dif_pos hn']
    apply ih
    simp only [hc, h.symbols_eq]
    exact h.itemSets_moves hc n _ g.symbols
  | case2 c n hn =>
    have hn' : ¬ n < c'.itemSets.length := by rwa [hc]
    rw [Collection.expandFrom, dif_neg hn', hc]

theorem itemSets_eq (h : g.Renames g' π) :
    (Automaton.ofGrammar g').itemSets = (Automaton.ofGrammar g).itemSets := by
  have hinitial : (Collection.initial g').itemSets = (Collection.initial g).itemSets :=
    congrArg (fun I => [I]) (h.closure_eq _)
  exact h.itemSets_expandFrom hinitial 0

theorem automaton_eq (h : g.Renames g' π) :
    Automaton.ofGrammar g' = (Automaton.ofGrammar g).rename π := by
  apply Automaton.ext_goto
  · rw [Automaton.itemSets_rename, h.itemSets_eq]
  · intro i y
    obtain ⟨x, rfl⟩ : ∃ x, Symbol.rename π x = y := ⟨_, Symbol.rename_symm π y⟩
    apply Option.ext
    intro j
    rw [Automaton.goto_rename, Automaton.goto_eq_some_iff, Automaton.goto_eq_some_iff,
      h.itemSets_eq]
    simp only [h.goto_eq]

theorem automaton_goto_eq (h : g.Renames g' π) (n : Nat) (x : Symbol) :
    (Automaton.ofGrammar g').goto n (x.rename π) = (Automaton.ofGrammar g).goto n x := by
  rw [h.automaton_eq, Automaton.goto_rename]

end Grammar.Renames

theorem Grammar.rename_automaton_congr {g : Grammar} {ρ ρ' : String → String}
    (h : ∀ a ∈ g.augmentedStart :: g.names, ρ a = ρ' a) :
    (Automaton.ofGrammar g).rename ρ = (Automaton.ofGrammar g).rename ρ' :=
  Automaton.rename_congr fun _ _ _ hj => rename_symbols_congr h (Automaton.mem_symbols_of_goto hj)

end SimpleLR
