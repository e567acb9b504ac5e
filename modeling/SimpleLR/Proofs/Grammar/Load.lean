import SimpleLR.Grammar.Load

namespace SimpleLR.Grammar

variable {g g' : Grammar} {rules rules' terminals nonterminals : List String} {start : String}

theorem load_eq_ok_iff : load rules terminals nonterminals start = .ok g ↔
    Vocabulary.declare terminals nonterminals = .ok g.toVocabulary ∧ g.start = start ∧
      g.augmentedStart = g.freshen (start ++ "'") ∧
      rules.mapM (readRule g.toVocabulary) = .ok g.rules := by
  unfold load
  rw [bind_eq_ok_iff]
  constructor
  · intro h
    obtain ⟨v, hv, h⟩ := h
    split at h
    · split at h
      · cases h
      · rename_i hr
        obtain rfl := Except.ok.inj h
        exact ⟨hv, rfl, rfl, hr⟩
    · cases h
  · intro h
    obtain ⟨hv, hstart, haug, hrules⟩ := h
    have hs : start ∈ g.nonterminals := by
      rw [← hstart]
      exact g.start_mem
    refine ⟨g.toVocabulary, hv, ?_⟩
    rw [dif_pos hs]
    split
    · rename_i hr
      cases hrules.symm.trans hr
    · rename_i hr
      obtain rfl := Except.ok.inj (hrules.symm.trans hr)
      congr 1
      exact Grammar.ext rfl rfl hstart.symm haug.symm rfl

/-- With some of its rules left out a grammar still loads, and stays as it is otherwise. -/
theorem exists_load_of_sublist (hs : rules.Sublist rules')
    (h : load rules' terminals nonterminals start = .ok g') :
    ∃ g, load rules terminals nonterminals start = .ok g ∧ g.toVocabulary = g'.toVocabulary ∧
      g.startProduction = g'.startProduction ∧ g.rules.Sublist g'.rules := by
  obtain ⟨hv, hstart, haug, hrules'⟩ := load_eq_ok_iff.1 h
  obtain ⟨ps, hps, hsub⟩ := exists_sublist_of_mapM_eq_ok hs hrules'
  have hover : ∀ p ∈ ps, p.Over g'.toVocabulary := fun p hp => g'.rules_over p (hsub.mem hp)
  let g : Grammar := { g' with rules := ps, rules_over := hover }
  have hload : load rules terminals nonterminals start = .ok g :=
    load_eq_ok_iff.2 ⟨hv, hstart, haug, hps⟩
  exact ⟨g, hload, rfl, rfl, hsub⟩

end SimpleLR.Grammar
