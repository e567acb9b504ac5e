import SimpleLR.Grammar.Load
import SimpleLR.Proofs.Parser.Simulation
import SimpleLR.Proofs.Table.Conflicts

namespace SimpleLR

variable {g : Grammar} {t : ParseTable} {c d d' : Configuration} {w : List String} {is : List Nat}

namespace Configuration

theorem Accepting.step?_eq_none (h : c.Accepting t) : c.step? g t = none := by
  rw [step?, h]

theorem eq_of_reaches_accepting (hd : c.Reaches g t d) (hd' : c.Reaches g t d')
    (ha : d.Accepting t) (ha' : d'.Accepting t) : d = d' := by
  have hunique : Relator.RightUnique fun c d => step? g t c = some d :=
    fun _ _ _ h h' => Option.some.inj (h.symm.trans h')
  have hstop {e e' : Configuration} (h : e.Reaches g t e') (hstop : e.Accepting t) : e = e' := by
    rcases Relation.ReflTransGen.cases_head h with rfl | ⟨_, hs, _⟩
    · rfl
    · cases hstop.step?_eq_none.symm.trans hs
  rcases Relation.ReflTransGen.total_of_right_unique hunique hd hd' with h | h
  · exact hstop h ha
  · exact (hstop h ha').symm

end Configuration

theorem rightmostDerives_of_reaches (ht : ParseTable.ofGrammar g = .ok t)
    (hr : (Configuration.initial w).Reaches g t c) (ha : c.Accepting t) :
    g.RightmostDerives [.nonterminal g.start] c.reductions (w.map .terminal) := by
  obtain ⟨v, hv, hc⟩ := (Configuration.Shows.initial g w).reaches ht hr
  rw [Grammar.rightmostDerives_iff_parses, hc.reductions]
  exact ((View.undoes_initial g w).reaches hv).final ((hc.accepting_iff ht).1 ha)

theorem exists_reaches_of_rightmostDerives (ht : ParseTable.ofGrammar g = .ok t)
    (h : g.RightmostDerives [.nonterminal g.start] is (w.map .terminal)) :
    ∃ c, (Configuration.initial w).Reaches g t c ∧ c.Accepting t ∧ c.reductions = is := by
  obtain ⟨v, hv, hf, his⟩ := View.reaches_final h.parses
  obtain ⟨c, hr, hc⟩ := (Configuration.Shows.initial g w).reaches_of_reaches ht hv
  have hreductions : c.reductions = is := by
    rw [hc.reductions, his, List.reverse_reverse]
  exact ⟨c, hr, (hc.accepting_iff ht).2 hf, hreductions⟩

theorem exists_rightmostDerives_of_generates (h : g.Generates w) :
    ∃ is, g.RightmostDerives [.nonterminal g.start] is (w.map .terminal) := by
  obtain ⟨is, h⟩ := Grammar.exists_parses_of_derives h
  rw [← is.reverse_reverse] at h
  exact ⟨is.reverse, Grammar.rightmostDerives_iff_parses.2 h⟩

theorem not_ambiguous (ht : ParseTable.ofGrammar g = .ok t) : ¬ g.Ambiguous := by
  intro h
  obtain ⟨w, is, js, hne, his, hjs⟩ := h
  obtain ⟨c, hc, hac, rfl⟩ := exists_reaches_of_rightmostDerives ht his
  obtain ⟨d, hd, had, rfl⟩ := exists_reaches_of_rightmostDerives ht hjs
  exact hne (congrArg _ (Configuration.eq_of_reaches_accepting hc hd hac had))

theorem rightmostDerives_augmentedStart
    (h : g.RightmostDerives [.nonterminal g.start] is (w.map .terminal)) :
    g.RightmostDerives [.nonterminal g.augmentedStart] (0 :: is) (w.map .terminal) :=
  .step (p := g.startProduction) (α := []) (w := []) rfl h

theorem exists_leftRecursive :
    ∃ g t, Grammar.load ["S -> S a N", "S -> b", "N -> ε"] ["a", "b"] ["S", "N"] "S" = .ok g ∧
      ParseTable.ofGrammar g = .ok t ∧ (Configuration.initial ["a"]).action? t = none ∧
      g.RightmostDerives [.nonterminal g.start] [1, 3, 2] (["b", "a"].map .terminal) := by
  obtain ⟨g, hg, h⟩ := exists_ok_of_any
    (r := Grammar.load ["S -> S a N", "S -> b", "N -> ε"] ["a", "b"] ["S", "N"] "S")
    (p := fun g => g.start = "S" ∧
      g.rules = [⟨"S", [.nonterminal "S", .terminal "a", .nonterminal "N"]⟩,
        ⟨"S", [.terminal "b"]⟩, ⟨"N", []⟩] ∧
      (ParseTable.ofGrammar g).toOption.any fun t =>
        (Configuration.initial ["a"]).action? t = none)
    (by decide +kernel)
  obtain ⟨hstart, hrules, htable⟩ := of_decide_eq_true h
  obtain ⟨t, ht, hstuck⟩ := exists_ok_of_any htable
  refine ⟨g, t, hg, ht, of_decide_eq_true hstuck, ?_⟩
  have hp (i : Nat) : g.productions[i + 1]? = g.rules[i]? := rfl
  rw [hrules] at hp
  rw [hstart]
  exact .step (α := []) (w := []) (hp 0) (.step (α := [.nonterminal "S", .terminal "a"]) (w := [])
    (hp 2) (.step (α := []) (w := ["a"]) (hp 1) (.refl _)))

/-- A table accepts the strings that its grammar generates. -/
theorem ParseTable.accepts_iff_generates (ht : ParseTable.ofGrammar g = .ok t)
    (w : List String) : t.Accepts g w ↔ g.Generates w := by
  constructor
  · intro h
    obtain ⟨c, hr, ha⟩ := h
    exact (rightmostDerives_of_reaches ht hr ha).derives
  · intro h
    obtain ⟨is, his⟩ := exists_rightmostDerives_of_generates h
    obtain ⟨c, hr, ha, -⟩ := exists_reaches_of_rightmostDerives ht his
    exact ⟨c, hr, ha⟩

/-- With no `S` read yet there is no going on at `a`. -/
theorem ParseTable.accepts_leftRecursive :
    ∃ g t, Grammar.load ["S -> S a N", "S -> b", "N -> ε"] ["a", "b"] ["S", "N"] "S" = .ok g ∧
      ParseTable.ofGrammar g = .ok t ∧ t.Accepts g ["b", "a"] ∧ ¬ g.Generates ["a"] := by
  obtain ⟨g, t, hg, ht, hstuck, hd⟩ := exists_leftRecursive
  have haccepts := (accepts_iff_generates ht ["b", "a"]).2 hd.derives
  have hrefuses : ¬ t.Accepts g ["a"] := by
    intro h
    obtain ⟨c, hr, ha⟩ := h
    rcases Relation.ReflTransGen.cases_head hr with rfl | ⟨d, hs, -⟩
    · cases hstuck.symm.trans ha
    · rw [Configuration.step?, hstuck] at hs
      cases hs
  rw [accepts_iff_generates ht] at hrefuses
  exact ⟨g, t, hg, ht, haccepts, hrefuses⟩

/-- A grammar that has a table is unambiguous, and a parser reduces by the productions of the
derivation in reverse. An ambiguous grammar has a conflict. -/
theorem ParseTable.reductions_eq_derivation (g : Grammar) :
    (∀ t, ParseTable.ofGrammar g = .ok t → ¬ g.Ambiguous ∧ ∀ w, g.Generates w →
      ∃ is, g.RightmostDerives [.nonterminal g.start] is (w.map .terminal) ∧
        g.RightmostDerives [.nonterminal g.augmentedStart] (0 :: is) (w.map .terminal) ∧
        ∃ c, (Configuration.initial w).Reaches g t c ∧ c.Accepting t ∧ c.reductions = is) ∧
    (g.Ambiguous → ∃ i x acts, ParseTable.ofGrammar g = .error (.conflict i x acts)) := by
  constructor
  · intro t ht
    apply And.intro (not_ambiguous ht)
    intro w hw
    obtain ⟨is, his⟩ := exists_rightmostDerives_of_generates hw
    have hrun := exists_reaches_of_rightmostDerives ht his
    exact ⟨is, his, rightmostDerives_augmentedStart his, hrun⟩
  · intro ha
    cases ht : ParseTable.ofGrammar g with
    | ok t => exact absurd ha (not_ambiguous ht)
    | error e =>
      obtain ⟨i, x, acts, rfl⟩ := ParseTable.ofAutomaton_eq_error ht
      exact ⟨i, x, acts, rfl⟩

/-- The parser of the left recursive grammar reduces in one way, and a rule written twice is a
conflict. -/
theorem ParseTable.reductions_leftRecursive :
    (∃ g t, Grammar.load ["S -> S a N", "S -> b", "N -> ε"] ["a", "b"] ["S", "N"] "S" = .ok g ∧
      ParseTable.ofGrammar g = .ok t ∧ ∃ c, (Configuration.initial ["b", "a"]).Reaches g t c ∧
        c.Accepting t ∧ c.reductions = [1, 3, 2]) ∧
    ∃ g i x acts, Grammar.load ["S -> a", "S -> a"] ["a"] ["S"] "S" = .ok g ∧
      ParseTable.ofGrammar g = .error (.conflict i x acts) := by
  constructor
  · obtain ⟨g, t, hg, ht, -, hd⟩ := exists_leftRecursive
    obtain ⟨hunambiguous, hrun⟩ := (reductions_eq_derivation g).1 t ht
    obtain ⟨is, his, -, c, hr, ha, hc⟩ := hrun ["b", "a"] hd.derives
    have his : is = [1, 3, 2] := by
      apply Decidable.by_contra
      intro hne
      exact hunambiguous ⟨_, _, _, hne, his, hd⟩
    exact ⟨g, t, hg, ht, c, hr, ha, hc.trans his⟩
  · obtain ⟨g, hg, h⟩ := exists_ok_of_any (r := Grammar.load ["S -> a", "S -> a"] ["a"] ["S"] "S")
      (p := fun g => g.start = "S" ∧
        g.rules = [⟨"S", [.terminal "a"]⟩, ⟨"S", [.terminal "a"]⟩])
      (by decide +kernel)
    obtain ⟨hstart, hrules⟩ := of_decide_eq_true h
    have hp (i : Nat) : g.productions[i + 1]? = g.rules[i]? := rfl
    rw [hrules] at hp
    have hd (i : Nat) (hi : g.productions[i]? = some ⟨"S", [.terminal "a"]⟩) :
        g.RightmostDerives [.nonterminal g.start] [i] (["a"].map .terminal) := by
      rw [hstart]
      exact .step (α := []) (w := []) hi (.refl _)
    have hambiguous : g.Ambiguous := ⟨["a"], [1], [2], by decide, hd 1 (hp 0), hd 2 (hp 1)⟩
    obtain ⟨i, x, acts, he⟩ := (reductions_eq_derivation g).2 hambiguous
    exact ⟨g, i, x, acts, hg, he⟩

end SimpleLR
