import SimpleLR.Proofs.Grammar.RuleFaults

namespace SimpleLR

open Text

namespace Vocabulary

variable {v : Vocabulary} {a : String} {terminals nonterminals : List String} {e : GrammarError}

theorem declarable_names (v : Vocabulary) : Declarable v.names :=
  ⟨fun a ha => v.unreserved a (mem_names.1 ha), v.nodup_names⟩

theorem names_of_declare (h : declare terminals nonterminals = .ok v) :
    v.names = terminals ++ nonterminals := by
  obtain ⟨ht, hn⟩ := declare_eq_ok_iff.1 h
  rw [names, ht, hn]

theorem exists_declare_iff :
    (∃ v, declare terminals nonterminals = .ok v) ↔ Declarable (terminals ++ nonterminals) := by
  constructor
  · intro h
    obtain ⟨v, hv⟩ := h
    rw [← names_of_declare hv]
    exact v.declarable_names
  · intro h
    obtain ⟨v, hv⟩ := exists_of_names h.nodup h.unreserved
    exact ⟨v, declare_eq_ok_iff.2 hv⟩

theorem nameError_of_reserved (ha : a ∈ reserved) :
    NameError v.names a e ↔ e = .reservedSymbol a := by
  constructor
  · intro h
    cases h with
    | reservedSymbol _ => rfl
    | duplicateSymbol hd => exact absurd ha (v.declarable_names.unreserved a hd)
  · rintro rfl
    exact .reservedSymbol ha

theorem nameError_of_not_reserved (ha : a ∉ reserved) :
    NameError v.names a e ↔ (a ∈ v.terminals ∨ a ∈ v.nonterminals) ∧ e = .duplicateSymbol a := by
  rw [← mem_names]
  constructor
  · intro h
    cases h with
    | reservedSymbol hr => exact absurd hr ha
    | duplicateSymbol hd => exact ⟨hd, rfl⟩
  · rintro ⟨hd, rfl⟩
    exact .duplicateSymbol hd

theorem declareTerminal_eq_error_iff : v.declareTerminal a = .error e ↔ NameError v.names a e := by
  unfold declareTerminal
  by_cases hr : a ∈ reserved
  · rw [dif_pos hr, nameError_of_reserved hr, Except.error.injEq, eq_comm]
  · rw [dif_neg hr, nameError_of_not_reserved hr]
    by_cases hd : a ∈ v.terminals ∨ a ∈ v.nonterminals
    · rw [dif_pos hd, and_iff_right hd, Except.error.injEq, eq_comm]
    · rw [dif_neg hd]
      simp only [reduceCtorEq, hd, false_and]

theorem declareNonterminal_eq_error_iff :
    v.declareNonterminal a = .error e ↔ NameError v.names a e := by
  rw [← declareTerminal_eq_error_iff]
  unfold declareNonterminal declareTerminal
  by_cases hr : a ∈ reserved
  · rw [dif_pos hr, dif_pos hr]
  · by_cases hd : a ∈ v.terminals ∨ a ∈ v.nonterminals
    · rw [dif_neg hr, dif_neg hr, dif_pos hd, dif_pos hd]
    · rw [dif_neg hr, dif_neg hr, dif_neg hd, dif_neg hd]
      simp only [reduceCtorEq]

theorem foldlM_declareTerminal_eq (names : List String) :
    names.foldlM declareTerminal ∅ = declare names [] := by
  rw [declare]
  exact (bind_pure _).symm

/-- Declarations fail at the first name that is reserved or comes again. -/
theorem declare_eq_error_iff : declare terminals nonterminals = .error e ↔
    ∃ before a after, terminals ++ nonterminals = before ++ a :: after ∧ Declarable before ∧
      NameError before a e := by
  unfold declare
  rw [bind_eq_error_iff]
  constructor
  · intro h
    rcases h with h | ⟨v, hv, h⟩
    · obtain ⟨before, a, after, m, rfl, hm, ha⟩ := foldlM_eq_error_iff.1 h
      rw [foldlM_declareTerminal_eq] at hm
      rw [declareTerminal_eq_error_iff, names_of_declare hm, List.append_nil] at ha
      have hbefore : Declarable before := by
        simpa only [List.append_nil] using exists_declare_iff.1 ⟨m, hm⟩
      exact ⟨before, a, after ++ nonterminals, List.append_assoc .., hbefore, ha⟩
    · obtain ⟨before, a, after, m, rfl, hm, ha⟩ := foldlM_eq_error_iff.1 h
      have hdeclare : declare terminals before = .ok m := bind_eq_ok_iff.2 ⟨v, hv, hm⟩
      rw [declareNonterminal_eq_error_iff, names_of_declare hdeclare] at ha
      exact ⟨terminals ++ before, a, after, (List.append_assoc ..).symm,
        exists_declare_iff.1 ⟨m, hdeclare⟩, ha⟩
  · intro h
    obtain ⟨before, a, after, he, hbefore, ha⟩ := h
    rcases append_eq_append_cons he with ⟨after', rfl, -⟩ | ⟨before', rfl, rfl⟩
    · rw [← List.append_nil before] at hbefore
      obtain ⟨m, hm⟩ := exists_declare_iff.2 hbefore
      have hnames := names_of_declare hm
      rw [List.append_nil] at hnames
      rw [← foldlM_declareTerminal_eq] at hm
      rw [← hnames, ← declareTerminal_eq_error_iff] at ha
      exact .inl (foldlM_eq_error_iff.2 ⟨before, a, after', m, rfl, hm, ha⟩)
    · obtain ⟨m, hm⟩ := exists_declare_iff.2 hbefore
      rw [← names_of_declare hm, ← declareNonterminal_eq_error_iff] at ha
      obtain ⟨v, hv, hm⟩ := bind_eq_ok_iff.1 hm
      exact .inr ⟨v, hv, foldlM_eq_error_iff.2 ⟨before', a, after, m, rfl, hm, ha⟩⟩

end Vocabulary

namespace Grammar

variable {rules terminals nonterminals : List String} {start : String} {e : GrammarError}

theorem load_eq_error_iff : load rules terminals nonterminals start = .error e ↔
    Vocabulary.declare terminals nonterminals = .error e ∨
      ∃ v, Vocabulary.declare terminals nonterminals = .ok v ∧
        (start ∉ v.nonterminals ∧ e = .unknownStart start ∨
          start ∈ v.nonterminals ∧ rules.mapM (readRule v) = .error e) := by
  unfold load
  rw [bind_eq_error_iff]
  refine or_congr_right (exists_congr fun v => and_congr_right fun _ => ?_)
  by_cases hs : start ∈ v.nonterminals
  · rw [dif_pos hs, or_iff_right fun h => h.1 hs, and_iff_right hs]
    split
    · rename_i hrules
      rw [hrules, Except.error.injEq, Except.error.injEq]
    · rename_i hrules
      refine iff_of_false nofun ?_
      intro he
      cases hrules.symm.trans he
  · rw [dif_neg hs, or_iff_left fun h => hs h.1, and_iff_right hs, Except.error.injEq, eq_comm]

theorem loadable_of_load {g : Grammar} (h : load rules terminals nonterminals start = .ok g) :
    Loadable rules terminals nonterminals start := by
  obtain ⟨hdeclare, rfl, -, hrules⟩ := load_eq_ok_iff.1 h
  have hnames := Vocabulary.exists_declare_iff.1 ⟨_, hdeclare⟩
  obtain ⟨rfl, rfl⟩ := Vocabulary.declare_eq_ok_iff.1 hdeclare
  refine ⟨hnames, g.start_mem, ?_⟩
  intro text htext
  obtain ⟨p, -, hp⟩ := exists_mem_of_mapM_eq_ok hrules htext
  exact isRule_iff_exists_readRule.2 ⟨p, hp⟩

theorem exists_load_iff : (∃ g, load rules terminals nonterminals start = .ok g) ↔
    Loadable rules terminals nonterminals start := by
  constructor
  · intro h
    obtain ⟨g, hg⟩ := h
    exact loadable_of_load hg
  · intro h
    obtain ⟨v, hv⟩ := Vocabulary.exists_declare_iff.2 h.names
    cases hload : load rules terminals nonterminals start with
    | ok g => exact ⟨g, rfl⟩
    | error e =>
      exfalso
      rcases load_eq_error_iff.1 hload with he | ⟨v', hv', he⟩
      · cases hv.symm.trans he
      · obtain ⟨rfl, rfl⟩ := Vocabulary.declare_eq_ok_iff.1 hv'
        rcases he with ⟨hs, -⟩ | ⟨-, hrules⟩
        · exact hs h.start
        · obtain ⟨text, htext, hread⟩ := exists_mem_of_mapM_eq_error hrules
          obtain ⟨p, hp⟩ := isRule_iff_exists_readRule.1 (h.rules text htext)
          cases hp.symm.trans hread

/-- The rules of a loaded grammar are the productions after the one for the augmented start. -/
theorem productions_of_load {g : Grammar} (h : load rules terminals nonterminals start = .ok g) :
    g.productions.length = rules.length + 1 ∧
      g.productions[0]? = some ⟨g.augmentedStart, [.nonterminal start]⟩ ∧
      ∀ (i : Nat) text, rules[i]? = some text → ∃ a right, words text = a :: arrow :: right ∧
        g.productions[i + 1]? = some ⟨a, symbolsOfWords terminals right⟩ := by
  obtain ⟨hdeclare, rfl, -, hrules⟩ := load_eq_ok_iff.1 h
  obtain ⟨rfl, rfl⟩ := Vocabulary.declare_eq_ok_iff.1 hdeclare
  refine ⟨congrArg (· + 1) (length_of_mapM_eq_ok hrules), rfl, ?_⟩
  intro i text htext
  rcases getElem?_of_mapM_eq_ok hrules i with ⟨hnone, -⟩ | ⟨text', p, htext', hp, hread⟩
  · cases hnone.symm.trans htext
  · obtain rfl := Option.some.inj (htext.symm.trans htext')
    obtain ⟨a, right, hwords, ha, hright⟩ := isRule_iff_exists_readRule.2 ⟨p, hread⟩
    have hp' := Except.ok.inj ((readRule_of_isRule hwords ha hright).symm.trans hread)
    exact ⟨a, right, hwords, hp.trans (congrArg some hp'.symm)⟩

theorem load_eq_error_of_readRule {v : Vocabulary} {before after : List String} {text : String}
    (hv : Vocabulary.declare terminals nonterminals = .ok v) (hs : start ∈ nonterminals)
    (h : rules = before ++ text :: after)
    (hbefore : ∀ t ∈ before, IsRule terminals nonterminals (words t))
    (htext : readRule v text = .error e) :
    load rules terminals nonterminals start = .error e := by
  obtain ⟨rfl, rfl⟩ := Vocabulary.declare_eq_ok_iff.1 hv
  have hread : ∀ t ∈ before, ∃ p, readRule v t = .ok p :=
    fun t ht => isRule_iff_exists_readRule.1 (hbefore t ht)
  exact load_eq_error_iff.2 (.inr ⟨v, hv, .inr ⟨hs, mapM_eq_error_iff.2
    ⟨before, text, after, h, hread, htext⟩⟩⟩)

theorem firstViolation_of_load (h : load rules terminals nonterminals start = .error e) :
    FirstViolation rules terminals nonterminals start e := by
  rcases load_eq_error_iff.1 h with hnames | ⟨v, hv, herror⟩
  · obtain ⟨before, a, after, he, hbefore, ha⟩ := Vocabulary.declare_eq_error_iff.1 hnames
    exact .name he hbefore ha
  · have hnames := Vocabulary.exists_declare_iff.1 ⟨v, hv⟩
    obtain ⟨rfl, rfl⟩ := Vocabulary.declare_eq_ok_iff.1 hv
    rcases herror with ⟨hs, rfl⟩ | ⟨hs, hrules⟩
    · exact .start hnames hs
    · obtain ⟨before, text, after, he, hbefore, hread⟩ := mapM_eq_error_iff.1 hrules
      have hbefore : ∀ t ∈ before, IsRule v.terminals.names v.nonterminals.names (words t) :=
        fun t ht => isRule_iff_exists_readRule.2 (hbefore t ht)
      exact .rule hnames hs he hbefore (readRule_eq_error_iff.1 hread)

theorem load_of_firstViolation (h : FirstViolation rules terminals nonterminals start e) :
    load rules terminals nonterminals start = .error e := by
  cases h with
  | name h hbefore ha =>
    have hnames : Vocabulary.declare terminals nonterminals = .error e :=
      Vocabulary.declare_eq_error_iff.2 ⟨_, _, _, h, hbefore, ha⟩
    exact load_eq_error_iff.2 (.inl hnames)
  | start hnames hs =>
    obtain ⟨v, hv⟩ := Vocabulary.exists_declare_iff.2 hnames
    obtain ⟨rfl, rfl⟩ := Vocabulary.declare_eq_ok_iff.1 hv
    exact load_eq_error_iff.2 (.inr ⟨v, hv, .inl ⟨hs, rfl⟩⟩)
  | rule hnames hs h hbefore htext =>
    obtain ⟨v, hv⟩ := Vocabulary.exists_declare_iff.2 hnames
    obtain ⟨rfl, rfl⟩ := Vocabulary.declare_eq_ok_iff.1 hv
    exact load_eq_error_of_readRule hv hs h hbefore (readRule_eq_error_iff.2 htext)

/-- What can be loaded becomes the grammar whose productions have the words of the rules, after one
for the augmented start, and all else is refused for what is wrong with it first. -/
theorem load_outcome (rules terminals nonterminals : List String) (start : String) :
    ((∃ g, load rules terminals nonterminals start = .ok g) ↔
        Loadable rules terminals nonterminals start) ∧
      (∀ g, load rules terminals nonterminals start = .ok g →
        g.productions.length = rules.length + 1 ∧
          g.productions[0]? = some ⟨g.augmentedStart, [.nonterminal start]⟩ ∧
          ∀ (i : Nat) text, rules[i]? = some text → ∃ a right, words text = a :: arrow :: right ∧
            g.productions[i + 1]? = some ⟨a, symbolsOfWords terminals right⟩) ∧
      ∀ e, load rules terminals nonterminals start = .error e ↔
        FirstViolation rules terminals nonterminals start e :=
  ⟨exists_load_iff, fun _ => productions_of_load,
    fun _ => ⟨firstViolation_of_load, load_of_firstViolation⟩⟩

/-- The blanks between words need not be spaces, and of two words on the right that cannot be there
the first one counts. -/
theorem load_wide_blank_and_two_faults :
    (Loadable ["S\u3000-> a S", "S -> ε"] ["a"] ["S"] "S" ∧
      ∃ g, load ["S\u3000-> a S", "S -> ε"] ["a"] ["S"] "S" = .ok g ∧
        g.productions[1]? = some ⟨"S", [.terminal "a", .nonterminal "S"]⟩ ∧
        g.productions[2]? = some ⟨"S", []⟩) ∧
      FirstViolation ["S -> x ε", "S -> ε x"] ["a"] ["S"] "S" (.undefinedSymbol "S -> x ε" "x") ∧
      FirstViolation ["S -> ε x", "S -> x ε"] ["a"] ["S"] "S"
        (.malformedRule "S -> ε x" .epsilonAmongOthers) := by
  refine ⟨?_, ?_, ?_⟩
  · obtain ⟨g, hg, hproductions⟩ := exists_ok_of_any
      (r := load ["S\u3000-> a S", "S -> ε"] ["a"] ["S"] "S")
      (p := fun g => g.productions[1]? = some ⟨"S", [.terminal "a", .nonterminal "S"]⟩ ∧
        g.productions[2]? = some ⟨"S", []⟩) (by decide +kernel)
    exact ⟨(load_outcome _ _ _ _).1.1 ⟨g, hg⟩, g, hg, of_decide_eq_true hproductions⟩
  · exact ((load_outcome _ _ _ _).2.2 _).1 (by rfl)
  · exact ((load_outcome _ _ _ _).2.2 _).1 (by rfl)

end Grammar

end SimpleLR
