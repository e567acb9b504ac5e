import SimpleLR.Grammar.Loadable
import SimpleLR.Proofs.Grammar.RuleText

namespace SimpleLR

open Text

theorem count_append_cons_eq_one_iff {left right : List String} {a : String} :
    (left ++ a :: right).count a = 1 ↔ a ∉ left ∧ a ∉ right := by
  rw [List.count_append, List.count_cons_self, ← List.count_eq_zero, ← List.count_eq_zero]
  omega

theorem splitRule_eq_some_iff_count {words left right : List String} :
    splitRule words = some (left, right) ↔
      words = left ++ arrow :: right ∧ words.count arrow = 1 := by
  rw [splitRule_eq_some_iff]
  apply and_congr_right
  rintro rfl
  exact count_append_cons_eq_one_iff.symm

theorem splitRule_eq_none_iff {words : List String} :
    splitRule words = none ↔ words.count arrow ≠ 1 := by
  constructor
  · intro h hcount
    have hmem : arrow ∈ words := List.count_pos_iff.1 (by omega)
    obtain ⟨left, right, he, -⟩ := List.eq_append_cons_of_mem hmem
    have hsplit := splitRule_eq_some_iff_count.2 ⟨he, hcount⟩
    rw [h] at hsplit
    cases hsplit
  · intro h
    apply Option.eq_none_iff_forall_ne_some.2
    intro parts hsplit
    exact h (splitRule_eq_some_iff_count.1 hsplit).2

theorem name_declaredSymbol (terminals : List String) (a : String) :
    (declaredSymbol terminals a).name = a := by
  unfold declaredSymbol
  split <;> rfl

variable {v : Vocabulary} {text a b : String} {right : List String} {e : GrammarError}

theorem declaredSymbol_mem_symbols (h : a ∈ v.names) :
    declaredSymbol v.terminals.names a ∈ v.symbols := by
  unfold declaredSymbol
  split
  · exact Vocabulary.terminal_mem_symbols.2 ‹_›
  · rename_i ht
    exact Vocabulary.nonterminal_mem_symbols.2 ((Vocabulary.mem_names.1 h).resolve_left ht)

theorem exists_readWord_iff : (∃ x, readWord v text b = .ok x) ↔ b ∈ v.names := by
  constructor
  · intro h
    obtain ⟨x, hx⟩ := h
    obtain ⟨hmem, hname⟩ := readWord_eq_ok_iff.1 hx
    rw [← hname]
    exact Vocabulary.name_mem_names hmem
  · intro h
    exact ⟨_, readWord_eq_ok_iff.2 ⟨declaredSymbol_mem_symbols h, name_declaredSymbol _ b⟩⟩

def wordError (text b : String) : GrammarError :=
  if b = epsilonName then .malformedRule text .epsilonAmongOthers else .undefinedSymbol text b

theorem eq_epsilonName_of_wordError {fault : RuleFault}
    (h : wordError text b = .malformedRule text fault) : b = epsilonName := by
  unfold wordError at h
  split at h
  · assumption
  · cases h

theorem readWord_of_not_mem (h : b ∉ v.names) :
    readWord v text b = .error (wordError text b) := by
  have hnone : v.symbol? b = none :=
    Vocabulary.symbol?_eq_none_iff.2 (not_or.1 (mt Vocabulary.mem_names.2 h))
  unfold readWord wordError
  rw [hnone]
  split <;> rfl

theorem readWord_eq_error_iff :
    readWord v text b = .error e ↔ b ∉ v.names ∧ e = wordError text b := by
  by_cases hb : b ∈ v.names
  · obtain ⟨x, hx⟩ := exists_readWord_iff.2 hb
    rw [hx]
    exact iff_of_false nofun fun h => h.1 hb
  · rw [readWord_of_not_mem hb, Except.error.injEq, and_iff_right hb, eq_comm]

theorem readRight_eq_error_iff : readRight v text right = .error e ↔
    ∃ before b after, right = before ++ b :: after ∧ (∀ c ∈ before, c ∈ v.names) ∧
      b ∉ v.names ∧ e = wordError text b := by
  simp only [readRight_eq, mapM_eq_error_iff, exists_readWord_iff, readWord_eq_error_iff]

theorem readRule_of_isRule (hwords : words text = a :: arrow :: right) (ha : a ∈ v.nonterminals)
    (hright : right = [epsilonName] ∨ right ≠ [] ∧ ∀ b ∈ right, b ∈ v.names) :
    readRule v text = .ok ⟨a, symbolsOfWords v.terminals.names right⟩ := by
  rw [readRule_eq_ok_iff, symbolsOfWords]
  split
  · rename_i he
    rw [he] at hwords
    exact ⟨⟨ha, fun _ => nofun⟩, hwords⟩
  · rename_i hne
    obtain ⟨hnil, hnames⟩ := hright.resolve_left hne
    have hover : ∀ x ∈ right.map (declaredSymbol v.terminals.names), x ∈ v.symbols := by
      intro x hx
      obtain ⟨b, hb, rfl⟩ := List.mem_map.1 hx
      exact declaredSymbol_mem_symbols (hnames b hb)
    have hmap : (right.map (declaredSymbol v.terminals.names)).map Symbol.name = right := by
      simp only [List.map_map, Function.comp_def, name_declaredSymbol, List.map_id']
    have hrhs : right.map (declaredSymbol v.terminals.names) ≠ [] := mt List.map_eq_nil_iff.1 hnil
    refine ⟨⟨ha, hover⟩, ?_⟩
    rw [hwords, Production.words, if_neg hrhs, hmap]

theorem isRule_iff_exists_readRule : IsRule v.terminals.names v.nonterminals.names (words text) ↔
    ∃ p, readRule v text = .ok p := by
  constructor
  · intro h
    obtain ⟨a, right, hwords, ha, hright⟩ := h
    exact ⟨_, readRule_of_isRule hwords ha hright⟩
  · intro h
    obtain ⟨p, hp⟩ := h
    obtain ⟨hover, hwords⟩ := readRule_eq_ok_iff.1 hp
    refine ⟨p.lhs, p.rightWords, hwords, hover.1, ?_⟩
    by_cases hrhs : p.rhs = []
    · exact .inl (hover.rightWords_eq_epsilon_iff.2 hrhs)
    · refine .inr ⟨p.rightWords_ne_nil, ?_⟩
      intro b hb
      rw [Production.rightWords, if_neg hrhs] at hb
      obtain ⟨x, hx, rfl⟩ := List.mem_map.1 hb
      exact Vocabulary.name_mem_names (hover.2 x hx)

theorem readRule_of_splitRule (hsplit : splitRule (words text) = some ([a], right))
    (ha : a ∈ v.nonterminals) (hnil : right ≠ []) (hne : right ≠ [epsilonName]) :
    readRule v text = (readRight v text right).map (⟨a, ·⟩) := by
  unfold readRule
  rw [hsplit]
  dsimp only
  rw [if_neg (not_not.2 ha), if_neg hnil, if_neg hne]

theorem readRule_of_firstUndeclared
    (h : FirstUndeclared v.terminals.names v.nonterminals.names (words text) b)
    (hbad : ¬ IsRule v.terminals.names v.nonterminals.names (words text)) :
    readRule v text = .error (wordError text b) := by
  obtain ⟨a, left, right, hwords, hcount, ha, hleft, hb⟩ := h
  have hsplit : splitRule (words text) = some ([a], left ++ b :: right) :=
    splitRule_eq_some_iff_count.2 ⟨hwords, hcount⟩
  have hnil : left ++ b :: right ≠ [] :=
    List.append_ne_nil_of_right_ne_nil left (List.cons_ne_nil b right)
  have hne : left ++ b :: right ≠ [epsilonName] := by
    intro he
    exact hbad ⟨a, left ++ b :: right, hwords, ha, .inl he⟩
  have hright : readRight v text (left ++ b :: right) = .error (wordError text b) :=
    readRight_eq_error_iff.2 ⟨left, b, right, rfl, hleft, hb, rfl⟩
  rw [readRule_of_splitRule hsplit ha hnil hne, hright]
  rfl

theorem FirstUndeclared.not_isRule {terminals nonterminals words : List String}
    (h : FirstUndeclared terminals nonterminals words b) (hne : b ≠ epsilonName) :
    ¬ IsRule terminals nonterminals words := by
  intro hrule
  obtain ⟨_, left, right, hwords, -, -, -, hb⟩ := h
  obtain ⟨_, right', hwords', -, hright⟩ := hrule
  rw [hwords'] at hwords
  obtain rfl : right' = left ++ b :: right := by simpa using (List.cons.inj hwords).2
  have hmem : b ∈ left ++ b :: right := List.mem_append_right left List.mem_cons_self
  rcases hright with he | ⟨-, hnames⟩
  · rw [he] at hmem
    exact hne (List.mem_singleton.1 hmem)
  · exact hb (hnames b hmem)

/-- Each fault is found where it is the first. -/
theorem readRule_of_describes {fault : RuleFault}
    (h : fault.Describes v.terminals.names v.nonterminals.names (words text)) :
    readRule v text = .error (.malformedRule text fault) := by
  cases fault with
  | arrowCount =>
    unfold readRule
    rw [splitRule_eq_none_iff.2 h]
  | noLeft =>
    obtain ⟨hcount, right, hwords⟩ := h
    have hsplit : splitRule (words text) = some ([], right) :=
      splitRule_eq_some_iff_count.2 ⟨hwords, hcount⟩
    unfold readRule
    rw [hsplit]
  | longLeft =>
    obtain ⟨hcount, a, b, left, right, hwords⟩ := h
    have hsplit : splitRule (words text) = some (a :: b :: left, right) :=
      splitRule_eq_some_iff_count.2 ⟨hwords, hcount⟩
    unfold readRule
    rw [hsplit]
  | leftNotNonterminal =>
    obtain ⟨hcount, a, right, hwords, ha⟩ := h
    have hsplit : splitRule (words text) = some ([a], right) :=
      splitRule_eq_some_iff_count.2 ⟨hwords, hcount⟩
    unfold readRule
    rw [hsplit]
    exact if_pos ha
  | emptyRight =>
    obtain ⟨hcount, a, ha, hwords⟩ := h
    have hsplit : splitRule (words text) = some ([a], []) :=
      splitRule_eq_some_iff_count.2 ⟨hwords, hcount⟩
    unfold readRule
    rw [hsplit]
    exact (if_neg (not_not.2 ha)).trans (if_pos rfl)
  | epsilonAmongOthers =>
    obtain ⟨hfirst, hbad⟩ := h
    have herror := readRule_of_firstUndeclared hfirst hbad
    rwa [wordError, if_pos rfl] at herror
  | other => exact h.elim

theorem exists_firstUndeclared_of_readRight
    (hwords : words text = a :: arrow :: right) (hcount : (words text).count arrow = 1)
    (ha : a ∈ v.nonterminals) (h : (readRight v text right).map (Production.mk a) = .error e) :
    ∃ b, FirstUndeclared v.terminals.names v.nonterminals.names (words text) b ∧
      e = wordError text b := by
  have hright : readRight v text right = .error e := by
    cases hr : readRight v text right with
    | error e' =>
      rw [hr] at h
      rw [Except.error.inj h]
    | ok rhs =>
      rw [hr] at h
      cases h
  obtain ⟨left, b, right, rfl, hleft, hb, he⟩ := readRight_eq_error_iff.1 hright
  exact ⟨b, ⟨a, left, right, hwords, hcount, ha, hleft, hb⟩, he⟩

theorem readRule_error_cases (h : readRule v text = .error e) :
    (∃ b, FirstUndeclared v.terminals.names v.nonterminals.names (words text) b ∧
        e = wordError text b) ∨
      ∃ fault : RuleFault, fault.Describes v.terminals.names v.nonterminals.names (words text) ∧
        e = .malformedRule text fault := by
  unfold readRule at h
  split at h
  · rename_i hsplit
    exact .inr ⟨.arrowCount, splitRule_eq_none_iff.1 hsplit, (Except.error.inj h).symm⟩
  · rename_i right hsplit
    obtain ⟨hwords, hcount⟩ := splitRule_eq_some_iff_count.1 hsplit
    exact .inr ⟨.noLeft, ⟨hcount, right, hwords⟩, (Except.error.inj h).symm⟩
  · rename_i a right hsplit
    obtain ⟨hwords, hcount⟩ := splitRule_eq_some_iff_count.1 hsplit
    split at h
    · rename_i ha
      exact .inr ⟨.leftNotNonterminal, ⟨hcount, a, right, hwords, ha⟩, (Except.error.inj h).symm⟩
    · rename_i ha
      rw [not_not] at ha
      split at h
      · rename_i hnil
        rw [hnil] at hwords
        exact .inr ⟨.emptyRight, ⟨hcount, a, ha, hwords⟩, (Except.error.inj h).symm⟩
      · split at h
        · cases h
        · exact .inl (exists_firstUndeclared_of_readRight hwords hcount ha h)
  · rename_i a b left right hsplit
    obtain ⟨hwords, hcount⟩ := splitRule_eq_some_iff_count.1 hsplit
    exact .inr ⟨.longLeft, ⟨hcount, a, b, left, right, hwords⟩, (Except.error.inj h).symm⟩

/-- A rule that is none is refused for its first undeclared word, unless that is `ε`, and else for
its form. -/
theorem readRule_eq_error_iff :
    readRule v text = .error e ↔ RuleError v.terminals.names v.nonterminals.names text e := by
  constructor
  · intro h
    have hrule : ¬ IsRule v.terminals.names v.nonterminals.names (words text) := by
      intro hrule
      obtain ⟨p, hp⟩ := isRule_iff_exists_readRule.1 hrule
      cases h.symm.trans hp
    have hothers {fault : RuleFault} (he : e = .malformedRule text fault) :
        ∀ b, FirstUndeclared v.terminals.names v.nonterminals.names (words text) b →
          b = epsilonName := by
      intro b hb
      rw [readRule_of_firstUndeclared hb hrule] at h
      exact eq_epsilonName_of_wordError ((Except.error.inj h).trans he)
    rcases readRule_error_cases h with ⟨b, hb, he⟩ | ⟨fault, hfault, he⟩
    · by_cases hne : b = epsilonName
      · rw [hne] at hb
        rw [wordError, if_pos hne] at he
        have hothers := hothers he
        rw [he]
        exact .malformedRule hrule hothers ⟨hb, hrule⟩
      · rw [he, wordError, if_neg hne]
        exact .undefinedSymbol hb hne
    · have hothers := hothers he
      rw [he]
      exact .malformedRule hrule hothers hfault
  · intro h
    cases h with
    | undefinedSymbol hb hne =>
      rw [readRule_of_firstUndeclared hb (hb.not_isRule hne), wordError, if_neg hne]
    | malformedRule _ _ hfault => exact readRule_of_describes hfault

end SimpleLR
