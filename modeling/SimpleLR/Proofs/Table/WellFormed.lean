import SimpleLR.Grammar.Load
import SimpleLR.Proofs.Automaton.ViablePrefix
import SimpleLR.Proofs.Follow.Exactness
import SimpleLR.Proofs.Table.Entries

namespace SimpleLR

variable {g : Grammar} {t : ParseTable} {follow : Family} {i j : Nat} {x : Symbol} {act : Action}

theorem Grammar.CanFollow.eq_endMarker_or_terminal {a : String} (h : g.CanFollow a x) :
    x = .endMarker ∨ ∃ b ∈ g.terminals, x = .terminal b := by
  cases x with
  | terminal b =>
    have hb := h.mem_symbols.resolve_right nofun
    exact .inr ⟨b, Vocabulary.terminal_mem_symbols.1 hb, rfl⟩
  | endMarker => exact .inl rfl
  | nonterminal | epsilon => exact h.elim

namespace Automaton

theorem follow_singleton (a : Automaton) (x : Symbol) : a.follow [x] = a.goto 0 x :=
  follow_concat a [] x

theorem exists_goto_start (g : Grammar) :
    ∃ j, (ofGrammar g).goto 0 (.nonterminal g.start) = some j :=
  exists_goto_of_valid (γ := []) rfl (.start_zero g) rfl

theorem exists_follow_of_states {s : State} (hs : (ofGrammar g).states[i]? = some s) :
    ∃ γ, (ofGrammar g).follow γ = some i ∧ ∀ item ∈ s.items, item.Valid g γ := by
  have hI := itemSets_eq_some_iff.2 ⟨s, hs, rfl⟩
  obtain ⟨γ, hγ⟩ := exists_follow_of_itemSets hI
  exact ⟨γ, hγ, valid_of_follow hγ hI⟩

end Automaton

open Automaton

namespace Candidate

theorem accept_iff : Candidate g (ofGrammar g) follow i x .accept ↔
    (ofGrammar g).goto 0 (.nonterminal g.start) = some i ∧ x = .endMarker := by
  rw [← follow_singleton]
  apply Iff.intro
  · intro h
    cases h with
    | accept hs hi hn hp =>
      obtain ⟨γ, hγ, hvalid⟩ := exists_follow_of_states hs
      rw [(hvalid _ hi).eq_start_of_complete hp hn] at hγ
      exact ⟨hγ, rfl⟩
  · intro h
    obtain ⟨hstart, rfl⟩ := h
    have hv : Item.Valid g [.nonterminal g.start] ⟨0, 1⟩ := .start (Nat.le_refl 1)
    obtain ⟨s, hs, hi⟩ := exists_state_of_valid hstart hv
    exact .accept hs hi rfl rfl

theorem lt_size {a : Automaton} (h : Candidate g a follow i x act) : i < a.size := by
  obtain ⟨s, hs⟩ := h.exists_state
  exact (List.getElem?_eq_some_iff.1 hs).1

theorem eq_endMarker_or_terminal {a : Automaton}
    (h : Candidate g a (Follow.sets g (First.sets g)) i x act) :
    x = .endMarker ∨ ∃ b ∈ g.terminals, x = .terminal b := by
  cases h with
  | shift _ _ hn =>
    have hb := Vocabulary.terminal_mem_symbols.1 (Item.mem_symbols_of_next? hn)
    exact .inr ⟨_, hb, rfl⟩
  | accept => exact .inl rfl
  | reduce _ _ _ _ _ hx => exact (Follow.mem_lookup_sets.1 hx).eq_endMarker_or_terminal

end Candidate

namespace ParseTable

/-- Actions are for declared terminals and the end marker, gotos for declared nonterminals. No
entry leads to the initial state. The parser reduces by rules only, and accepts at one place: at the
end of the input, in the state to which the start symbol leads from the initial one. -/
structure WellFormed (g : Grammar) (t : ParseTable) : Prop where
  action : ∀ i x act, t.action? i x = some act →
    i < t.size ∧ (x = .endMarker ∨ ∃ b ∈ g.terminals, x = .terminal b)
  goto : ∀ i a j, t.goto? i a = some j →
    i < t.size ∧ a ∈ g.nonterminals ∧ 1 ≤ j ∧ j < t.size
  shift : ∀ i x j, t.action? i x = some (.shift j) → x ≠ .endMarker ∧ 1 ≤ j ∧ j < t.size
  reduce : ∀ i x q, t.action? i x = some (.reduce q) → 1 ≤ q ∧ q < g.productions.length
  accept : ∃ j, t.goto? 0 g.start = some j ∧
    ∀ i x, t.action? i x = some .accept ↔ i = j ∧ x = .endMarker

theorem target_of_goto (ht : ofGrammar g = .ok t) (h : (Automaton.ofGrammar g).goto i x = some j) :
    1 ≤ j ∧ j < t.size := by
  rw [size_eq ht]
  apply And.intro
  · apply Nat.one_le_iff_ne_zero.2
    intro hzero
    rw [hzero] at h
    exact goto_ne_zero h
  · exact lt_size_of_goto h

theorem wellFormed_of_ofGrammar (ht : ofGrammar g = .ok t) : t.WellFormed g where
  action i x act hact := by
    have hc := (action?_eq_some_iff ht).1 hact
    rw [size_eq ht]
    exact ⟨hc.lt_size, hc.eq_endMarker_or_terminal⟩
  goto i a j hj := by
    obtain ⟨ha, hgoto⟩ := (goto?_eq_some_iff ht).1 hj
    obtain ⟨I, hI, -⟩ := goto_eq_some_iff.1 hgoto
    have hi := lt_size_of_itemSets hI
    rw [← size_eq ht] at hi
    exact ⟨hi, ha, target_of_goto ht hgoto⟩
  shift i x j hact := by
    cases (action?_eq_some_iff ht).1 hact with
    | shift _ _ _ hj => exact ⟨nofun, target_of_goto ht hj⟩
  reduce i x q hact := by
    cases (action?_eq_some_iff ht).1 hact with
    | reduce _ _ _ h₀ hp =>
      exact ⟨Nat.one_le_iff_ne_zero.2 h₀, (List.getElem?_eq_some_iff.1 hp).1⟩
  accept := by
    obtain ⟨j, hj⟩ := exists_goto_start g
    refine ⟨j, (goto?_eq_some_iff ht).2 ⟨g.start_mem, hj⟩, ?_⟩
    intro i x
    rw [action?_eq_some_iff ht, Candidate.accept_iff, hj, Option.some_inj, eq_comm]

/-- The start symbol derives nothing but itself, and the first name for the augmented start is
taken. -/
theorem wellFormed_recursive :
    ∃ g t, Grammar.load ["S -> a S"] ["a"] ["S", "S'"] "S" = .ok g ∧ ofGrammar g = .ok t ∧
      t.WellFormed g ∧ t.goto? 0 "S" = some 2 ∧ t.action? 2 .endMarker = some .accept ∧
      t.action? 3 .endMarker = some (.reduce 1) := by
  obtain ⟨g, hg, h⟩ := exists_ok_of_any
    (r := Grammar.load ["S -> a S"] ["a"] ["S", "S'"] "S")
    (p := fun g => (ofGrammar g).toOption.any fun t => t.goto? 0 "S" = some 2 ∧
      t.action? 2 .endMarker = some .accept ∧ t.action? 3 .endMarker = some (.reduce 1))
    (by decide +kernel)
  obtain ⟨t, ht, h⟩ := exists_ok_of_any h
  exact ⟨g, t, hg, ht, wellFormed_of_ofGrammar ht, of_decide_eq_true h⟩

end ParseTable

end SimpleLR
