import SimpleLR.Proofs.Automaton.Reordering
import SimpleLR.Proofs.Table.Monotonicity

namespace SimpleLR

variable {g g' : Grammar} {σ π : Equiv.Perm Nat} {i : Nat} {x : Symbol} {act : Action}
  {t t' : ParseTable}

/-- The action with other numbers for productions and states. -/
def Action.renumber (σ π : Nat → Nat) : Action → Action
  | shift j => shift (π j)
  | reduce q => reduce (σ q)
  | accept => accept

theorem Action.renumber_symm (σ π : Equiv.Perm Nat) (act : Action) :
    (act.renumber σ.symm π.symm).renumber σ π = act := by
  cases act <;> simp only [renumber, Equiv.apply_symm_apply]

namespace Grammar.Reorders

open Automaton

theorem exists_state (hπ : MapsStates g g' σ π) {s : State}
    (hs : (ofGrammar g).states[i]? = some s) :
    ∃ s', (ofGrammar g').states[π i]? = some s' ∧ s'.items = s.items.renumber σ := by
  have hi := hπ i
  rw [itemSets_eq_some_iff.2 ⟨s, hs, rfl⟩] at hi
  exact itemSets_eq_some_iff.1 hi

theorem candidate (h : g.Reorders g' σ) (hπ : MapsStates g g' σ π)
    (hc : Candidate g (ofGrammar g) (Follow.sets g (First.sets g)) i x act) :
    Candidate g' (ofGrammar g') (Follow.sets g' (First.sets g')) (π i) x (act.renumber σ π) := by
  have hitem {s s' : State} {item : Item} (hs' : s'.items = s.items.renumber σ)
      (hi : item ∈ s.items) : item.renumber σ ∈ s'.items := by
    rw [hs', ItemSet.mem_renumber]
    simpa only [Item.renumber, Equiv.symm_apply_apply] using hi
  cases hc with
  | shift hs hi hx hj =>
    obtain ⟨s', hs', hitems⟩ := exists_state hπ hs
    rw [← h.embeds.next?_renumber] at hx
    refine .shift hs' (hitem hitems hi) hx ?_
    rw [h.goto_eq_map hπ, hj, Option.map_some]
  | accept hs hi hx h₀ =>
    obtain ⟨s', hs', hitems⟩ := exists_state hπ hs
    rw [← h.embeds.next?_renumber] at hx
    exact .accept hs' (hitem hitems hi) hx ((congrArg σ h₀).trans h.zero)
  | reduce hs hi hx h₀ hp hfollow =>
    obtain ⟨s', hs', hitems⟩ := exists_state hπ hs
    rw [← h.embeds.next?_renumber] at hx
    rw [← h.productions] at hp
    rw [h.follow_eq] at hfollow
    have h₀' : σ _ ≠ 0 := fun hzero => h₀ (σ.injective (hzero.trans h.zero.symm))
    exact .reduce hs' (hitem hitems hi) hx h₀' hp hfollow

theorem candidate_iff (h : g.Reorders g' σ) (hπ : MapsStates g g' σ π) {act' : Action} :
    Candidate g' (ofGrammar g') (Follow.sets g' (First.sets g')) (π i) x act' ↔
      ∃ act, Candidate g (ofGrammar g) (Follow.sets g (First.sets g)) i x act ∧
        act.renumber σ π = act' := by
  constructor
  · intro hc
    have hc := h.symm.candidate hπ.symm hc
    rw [Equiv.symm_apply_apply] at hc
    exact ⟨_, hc, Action.renumber_symm σ π act'⟩
  · rintro ⟨act, hc, rfl⟩
    exact h.candidate hπ hc

theorem exists_table_iff (h : g.Reorders g' σ) :
    (∃ t, ParseTable.ofGrammar g = .ok t) ↔ ∃ t', ParseTable.ofGrammar g' = .ok t' :=
  ⟨h.symm.embeds.exists_table, h.embeds.exists_table⟩

theorem action?_eq_map (h : g.Reorders g' σ) (hπ : MapsStates g g' σ π)
    (ht : ParseTable.ofGrammar g = .ok t) (ht' : ParseTable.ofGrammar g' = .ok t') (i : Nat)
    (x : Symbol) : t'.action? (π i) x = (t.action? i x).map (Action.renumber σ π) := by
  apply Option.ext
  intro act
  rw [ParseTable.action?_eq_some_iff ht', h.candidate_iff hπ, Option.map_eq_some_iff]
  simp only [ParseTable.action?_eq_some_iff ht]

theorem goto?_eq_map (h : g.Reorders g' σ) (hπ : MapsStates g g' σ π)
    (ht : ParseTable.ofGrammar g = .ok t) (ht' : ParseTable.ofGrammar g' = .ok t') (i : Nat)
    (a : String) : t'.goto? (π i) a = (t.goto? i a).map π := by
  apply Option.ext
  intro j
  simp only [ParseTable.goto?_eq_some_iff ht', h.goto_eq_map hπ, Option.map_eq_some_iff,
    ParseTable.goto?_eq_some_iff ht, ← h.nonterminals, and_assoc, exists_and_left]

end Grammar.Reorders

/-- Of grammars that are declared in another order, FIRST and FOLLOW are the same. There is a
renumbering of the productions that takes one list of rules to the other, and for each such
renumbering one of the states that agrees with it: the states hold the same items, the automata go
the same ways, and the tables are there together and have the same entries. -/
theorem ParseTable.entries_of_perm {rules rules' terminals terminals' nonterminals nonterminals' :
      List String} {start : String} (hterminals : terminals.Perm terminals')
    (hnonterminals : nonterminals.Perm nonterminals') (hrules : rules.Perm rules')
    (hg : Grammar.load rules terminals nonterminals start = .ok g)
    (hg' : Grammar.load rules' terminals' nonterminals' start = .ok g') :
    First.sets g = First.sets g' ∧
      Follow.sets g (First.sets g) = Follow.sets g' (First.sets g') ∧
      (∃ σ, Renumbers σ rules rules') ∧
      ∀ σ, Renumbers σ rules rules' → (∀ i, g'.productions[σ i]? = g.productions[i]?) ∧
        ∃ π : Equiv.Perm Nat, π 0 = 0 ∧
          (Automaton.ofGrammar g').size = (Automaton.ofGrammar g).size ∧
          (∀ i, (Automaton.ofGrammar g').itemSets[π i]? =
            (Automaton.ofGrammar g).itemSets[i]?.map (ItemSet.renumber σ)) ∧
          (∀ i x, (Automaton.ofGrammar g').goto (π i) x =
            ((Automaton.ofGrammar g).goto i x).map π) ∧
          ((∃ t, ofGrammar g = .ok t) ↔ ∃ t', ofGrammar g' = .ok t') ∧
          ∀ t t', ofGrammar g = .ok t → ofGrammar g' = .ok t' → t'.size = t.size ∧
            (∀ i x, t'.action? (π i) x = (t.action? i x).map (Action.renumber σ π)) ∧
            ∀ i a, t'.goto? (π i) a = (t.goto? i a).map π := by
  have hreorders (σ : Equiv.Perm Nat) (hσ : Renumbers σ rules rules') : g.Reorders g' σ :=
    Grammar.reorders_of_load hg hg' hterminals hnonterminals hσ
  obtain ⟨σ, hσ⟩ := exists_renumbers hrules
  have hfirst := (hreorders σ hσ).first_eq
  have hfollow := (hreorders σ hσ).follow_eq
  refine ⟨hfirst, hfollow, ⟨σ, hσ⟩, ?_⟩
  intro σ hσ
  have h := hreorders σ hσ
  obtain ⟨π, hπ⟩ := h.exists_mapsStates
  refine ⟨h.productions, π, h.map_zero hπ, h.size_eq, hπ, h.goto_eq_map hπ, h.exists_table_iff, ?_⟩
  intro t t' ht ht'
  refine ⟨?_, h.action?_eq_map hπ ht ht', h.goto?_eq_map hπ ht ht'⟩
  rw [size_eq ht, size_eq ht', h.size_eq]

/-- With the rules and the terminals the other way round, the states after `a` and after `b` change
places, and so do the productions. -/
theorem ParseTable.entries_reversed :
    ∃ g g' t t', Grammar.load ["S -> a S", "S -> b"] ["a", "b"] ["S"] "S" = .ok g ∧
      Grammar.load ["S -> b", "S -> a S"] ["b", "a"] ["S"] "S" = .ok g' ∧
      ofGrammar g = .ok t ∧ ofGrammar g' = .ok t' ∧ First.sets g = First.sets g' ∧
      ∃ σ π : Equiv.Perm Nat, Renumbers σ ["S -> a S", "S -> b"] ["S -> b", "S -> a S"] ∧
        π 1 = 2 ∧ π 2 = 1 ∧ t'.action? 1 .endMarker = some (.reduce (σ 2)) := by
  have hrules : ["S -> a S", "S -> b"].Perm ["S -> b", "S -> a S"] := by decide
  obtain ⟨g, hg, hcheck⟩ := exists_ok_of_any
    (r := Grammar.load ["S -> a S", "S -> b"] ["a", "b"] ["S"] "S")
    (p := fun g => (Automaton.ofGrammar g).goto 0 (.terminal "a") = some 1 ∧
      (Automaton.ofGrammar g).goto 0 (.terminal "b") = some 2 ∧
      (ofGrammar g).toOption.any fun t => t.action? 2 .endMarker = some (.reduce 2))
    (by decide +kernel)
  obtain ⟨ha, hb, htable⟩ := of_decide_eq_true hcheck
  obtain ⟨t, ht, hreduce⟩ := exists_ok_of_any htable
  obtain ⟨g', hg', hcheck'⟩ := exists_ok_of_any
    (r := Grammar.load ["S -> b", "S -> a S"] ["b", "a"] ["S"] "S")
    (p := fun g => (Automaton.ofGrammar g).goto 0 (.terminal "a") = some 2 ∧
      (Automaton.ofGrammar g).goto 0 (.terminal "b") = some 1)
    (by decide +kernel)
  obtain ⟨ha', hb'⟩ := of_decide_eq_true hcheck'
  obtain ⟨hfirst, -, ⟨σ, hσ⟩, hstates⟩ :=
    entries_of_perm (by decide) (.refl _) hrules hg hg'
  obtain ⟨-, π, hzero, -, -, hgoto, htables, hentries⟩ := hstates σ hσ
  obtain ⟨t', ht'⟩ := htables.1 ⟨t, ht⟩
  have hπ {x : Symbol} {i j : Nat} (hi : (Automaton.ofGrammar g).goto 0 x = some i)
      (hj : (Automaton.ofGrammar g').goto 0 x = some j) : π i = j := by
    have h := hgoto 0 x
    rw [hzero, hi, hj] at h
    exact (Option.some.inj h).symm
  obtain ⟨-, haction, -⟩ := hentries t t' ht ht'
  have hreduce' := haction 2 .endMarker
  rw [hπ hb hb', of_decide_eq_true hreduce] at hreduce'
  exact ⟨g, g', t, t', hg, hg', ht, ht', hfirst, σ, π, hσ, hπ ha ha', hπ hb hb', hreduce'⟩

end SimpleLR
