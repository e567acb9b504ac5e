import SimpleLR.Proofs.Automaton.Renaming
import SimpleLR.Proofs.Grammar.RenamedRules
import SimpleLR.Proofs.Table.Conflicts

namespace SimpleLR

variable {g g' : Grammar} {π : Equiv.Perm String} {i : Nat} {x : Symbol} {act : Action}
  {t : ParseTable}

namespace Grammar.Renames

open Automaton

theorem candidate (h : g.Renames g' π)
    (hc : Candidate g (ofGrammar g) (Follow.sets g (First.sets g)) i x act) :
    Candidate g' (ofGrammar g') (Follow.sets g' (First.sets g')) i (x.rename π) act := by
  have hstate {s : State} (hs : (ofGrammar g).states[i]? = some s) :
      (ofGrammar g').states[i]? = some (s.rename π) := by
    rw [h.automaton_eq, Automaton.rename, List.getElem?_map, hs, Option.map_some]
  cases hc with
  | @shift j s item b hs hi hx hj =>
    have hj' := (h.automaton_goto_eq i (.terminal b)).trans hj
    exact .shift (hstate hs) hi (h.next?_eq_some_iff.2 hx) hj'
  | accept hs hi hx h₀ =>
    refine .accept (hstate hs) hi ?_ h₀
    rw [h.next?_eq, hx, Option.map_none]
  | reduce hs hi hx h₀ hp hfollow =>
    have hp' := congrArg (Option.map (Production.rename π)) hp
    rw [← List.getElem?_map, ← h.productions, Option.map_some] at hp'
    refine .reduce (hstate hs) hi ?_ h₀ hp' ?_
    · rw [h.next?_eq, hx, Option.map_none]
    · rw [h.follow_eq]
      exact Family.mem_lookup_rename.2 hfollow

theorem candidate_iff (h : g.Renames g' π) :
    Candidate g' (ofGrammar g') (Follow.sets g' (First.sets g')) i (x.rename π) act ↔
      Candidate g (ofGrammar g) (Follow.sets g (First.sets g)) i x act := by
  constructor
  · intro hc
    have hback := h.symm.candidate hc
    rwa [Symbol.symm_rename] at hback
  · exact h.candidate

theorem oneAction (h : g.Renames g' π)
    (hone : OneAction g (ofGrammar g) (Follow.sets g (First.sets g)) i) :
    OneAction g' (ofGrammar g') (Follow.sets g' (First.sets g')) i := by
  intro y act act' hact hact'
  rw [← Symbol.rename_symm π y, h.candidate_iff] at hact hact'
  exact hone _ act act' hact hact'

theorem oneAction_iff (h : g.Renames g' π) :
    OneAction g' (ofGrammar g') (Follow.sets g' (First.sets g')) i ↔
      OneAction g (ofGrammar g) (Follow.sets g (First.sets g)) i :=
  ⟨h.symm.oneAction, h.oneAction⟩

theorem table_eq (h : g.Renames g' π) (ht : ParseTable.ofGrammar g = .ok t) :
    ParseTable.ofGrammar g' = .ok (t.rename π) := by
  have hone := ParseTable.exists_ofAutomaton_iff.1 ⟨t, ht⟩
  obtain ⟨t', ht'⟩ := ParseTable.exists_ofAutomaton_iff.2 fun i => h.oneAction (hone i)
  have hsize : t'.size = t.size := by
    rw [ParseTable.size_eq ht', ParseTable.size_eq ht, h.automaton_eq]
    exact List.length_map _
  have haction (i : Nat) (x : Symbol) : t'.action? i (x.rename π) = t.action? i x := by
    apply Option.ext
    intro act
    rw [ParseTable.action?_eq_some_iff ht', ParseTable.action?_eq_some_iff ht, h.candidate_iff]
  have hgoto (i : Nat) (a : String) : t'.goto? i (π a) = t.goto? i a := by
    apply Option.ext
    intro j
    have hedge : (ofGrammar g').goto i (.nonterminal (π a)) =
        (ofGrammar g).goto i (.nonterminal a) := h.automaton_goto_eq i (.nonterminal a)
    rw [ParseTable.goto?_eq_some_iff ht', ParseTable.goto?_eq_some_iff ht, hedge,
      NameTable.mem_iff, h.nonterminals, List.mem_map_of_injective π.injective, NameTable.mem_iff]
  rw [← ParseTable.eq_rename hsize haction hgoto]
  exact ht'

theorem conflict_eq (h : g.Renames g' π) {e : GrammarError}
    (he : ParseTable.ofGrammar g = .error e) : ∃ i x acts x' acts', e = .conflict i x acts ∧
      ParseTable.ofGrammar g' = .error (.conflict i x' acts') := by
  obtain ⟨i, x, acts, rfl, hi, hbefore⟩ := ParseTable.ofAutomaton_eq_conflict he
  cases ht' : ParseTable.ofGrammar g' with
  | ok t' =>
    have ht := h.symm.table_eq ht'
    cases he.symm.trans ht
  | error e' =>
    obtain ⟨i', x', acts', rfl, hi', hbefore'⟩ := ParseTable.ofAutomaton_eq_conflict ht'
    rw [h.oneAction_iff] at hi'
    have hle : i ≤ i' := Nat.le_of_not_lt fun hlt => hi' (hbefore i' hlt)
    have hge : i' ≤ i := Nat.le_of_not_lt fun hlt => hi (h.oneAction_iff.1 (hbefore' i hlt))
    obtain rfl := Nat.le_antisymm hle hge
    exact ⟨i, x, acts, x', acts', rfl, rfl⟩

end Grammar.Renames

variable {ρ ρ' : String → String}

theorem Grammar.rename_table_congr (h : ∀ a ∈ g.augmentedStart :: g.names, ρ a = ρ' a)
    (ht : ParseTable.ofGrammar g = .ok t) : t.rename ρ = t.rename ρ' := by
  apply ParseTable.rename_congr
  · intro i x act hact
    cases (ParseTable.action?_eq_some_iff ht).1 hact with
    | shift _ _ hx => exact rename_symbols_congr h (Item.mem_symbols_of_next? hx)
    | accept => rfl
    | reduce _ _ _ _ _ hfollow => exact rename_mem_follow_congr h hfollow
  · intro i a j hj
    obtain ⟨ha, -⟩ := (ParseTable.goto?_eq_some_iff ht).1 hj
    exact rename_heads_congr h (List.mem_cons_of_mem _ ha)

/-- Names have no part in what a grammar is: with others in their place, that can stand in rules
and tell the symbols apart, it loads. Then FIRST, FOLLOW and the automaton are the same but for the
names, a table is there if one was there before and is the same but for the names, and a conflict is
reported in the same state. -/
theorem ParseTable.rename_of_load {rules terminals nonterminals : List String} {start : String}
    (hg : Grammar.load rules terminals nonterminals start = .ok g)
    (hinj : ∀ a ∈ g.names, ∀ b ∈ g.names, ρ a = ρ b → a = b)
    (hρ : ∀ a ∈ g.names, Text.IsWord (ρ a) ∧ ρ a ∉ reserved) :
    ∃ g', Grammar.load (rules.map (renameRule ρ)) (terminals.map ρ) (nonterminals.map ρ) (ρ start) =
        .ok g' ∧
      g'.productions = g.productions.map (Production.rename (g.extendRenaming g' ρ)) ∧
      First.sets g' = (First.sets g).rename (g.extendRenaming g' ρ) ∧
      Follow.sets g' (First.sets g') =
        (Follow.sets g (First.sets g)).rename (g.extendRenaming g' ρ) ∧
      (Automaton.ofGrammar g').itemSets = (Automaton.ofGrammar g).itemSets ∧
      Automaton.ofGrammar g' = (Automaton.ofGrammar g).rename (g.extendRenaming g' ρ) ∧
      ((∃ t', ofGrammar g' = .ok t') ↔ ∃ t, ofGrammar g = .ok t) ∧
      (∀ t, ofGrammar g = .ok t → ofGrammar g' = .ok (t.rename (g.extendRenaming g' ρ))) ∧
      ∀ e, ofGrammar g = .error e → ∃ i x acts x' acts', e = .conflict i x acts ∧
        ofGrammar g' = .error (.conflict i x' acts') := by
  obtain ⟨g', π, hg', h, hπ⟩ := Grammar.exists_load_rename hg hinj hρ
  have hautomaton := h.automaton_eq
  have htable {t : ParseTable} (ht : ofGrammar g = .ok t) :
      ofGrammar g' = .ok (t.rename (g.extendRenaming g' ρ)) := by
    rw [Grammar.rename_table_congr hπ ht]
    exact h.table_eq ht
  refine ⟨g', hg', ?_, ?_, ?_, ?_, ?_, ?_, fun t => htable, fun e => h.conflict_eq⟩
  · rw [Grammar.rename_productions_congr hπ, h.productions]
  · rw [Grammar.rename_first_congr hπ, h.first_eq]
  · rw [Grammar.rename_follow_congr hπ, h.follow_eq]
  · rw [hautomaton, Automaton.itemSets_rename]
  · rw [Grammar.rename_automaton_congr hπ, hautomaton]
  · constructor
    · rintro ⟨t', ht'⟩
      exact ⟨_, h.symm.table_eq ht'⟩
    · rintro ⟨t, ht⟩
      exact ⟨_, htable ht⟩

/-- `S` and `a` change names, so that the terminals are listed the other way round; and as no
terminal has the new start symbol's name with a quote, one quote makes the augmented start. -/
theorem ParseTable.rename_exchanged :
    ∃ g g' t, Grammar.load ["S -> S' S", "S -> a"] ["S'", "a"] ["S"] "S" = .ok g ∧
      Grammar.load ["a -> z a", "a -> S"] ["z", "S"] ["a"] "a" = .ok g' ∧
      g.augmentedStart = "S''" ∧ g'.augmentedStart = "a'" ∧ ofGrammar g = .ok t ∧
      ofGrammar g' = .ok (t.rename (g.extendRenaming g' fun a =>
        if a = "S" then "a" else if a = "a" then "S" else "z")) := by
  obtain ⟨g, hg, hcheck⟩ := exists_ok_of_any
    (r := Grammar.load ["S -> S' S", "S -> a"] ["S'", "a"] ["S"] "S")
    (p := fun g => g.names = ["S'", "a", "S"] ∧ g.augmentedStart = "S''" ∧
      (ofGrammar g).toOption.any fun _ => true)
    (by decide +kernel)
  obtain ⟨hnames, haug, htable⟩ := of_decide_eq_true hcheck
  obtain ⟨t, ht, -⟩ := exists_ok_of_any htable
  obtain ⟨g', hg', haug'⟩ := exists_ok_of_any
    (r := Grammar.load ["a -> z a", "a -> S"] ["z", "S"] ["a"] "a")
    (p := fun g => g.augmentedStart = "a'") (by decide +kernel)
  obtain ⟨g₁, hg₁, -, -, -, -, -, -, htables, -⟩ := rename_of_load
    (ρ := fun a => if a = "S" then "a" else if a = "a" then "S" else "z") hg
    (by rw [hnames]; decide +kernel) (by rw [hnames]; decide +kernel)
  have hrules : ["S -> S' S", "S -> a"].map (renameRule fun a =>
      if a = "S" then "a" else if a = "a" then "S" else "z") = ["a -> z a", "a -> S"] := by
    decide +kernel
  rw [hrules] at hg₁
  obtain rfl := Except.ok.inj (hg'.symm.trans hg₁)
  exact ⟨g, g', t, hg, hg', haug, of_decide_eq_true haug', ht, htables t ht⟩

end SimpleLR
