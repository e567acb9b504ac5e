import SimpleLR.Proofs.Grammar.Declaration
import SimpleLR.Proofs.Grammar.Load
import SimpleLR.Proofs.Words

namespace SimpleLR

open Text

theorem splitRule_eq_some_iff {words left right : List String} :
    splitRule words = some (left, right) ↔
      words = left ++ arrow :: right ∧ arrow ∉ left ∧ arrow ∉ right := by
  constructor
  · intro h
    have hsplit : words.splitOn arrow = [left, right] := by
      unfold splitRule at h
      split at h
      · rename_i hs
        obtain ⟨rfl, rfl⟩ := Prod.mk.inj (Option.some.inj h)
        exact hs
      · cases h
    have hwords : [arrow].intercalate (words.splitOn arrow) = words :=
      List.intercalate_splitOn arrow
    rw [hsplit, List.intercalate_cons_cons, List.intercalate_singleton, List.append_assoc,
      List.singleton_append] at hwords
    rw [List.splitOn_eq_splitOnP] at hsplit
    have hparts {part : List String} (hpart : part ∈ [left, right]) : arrow ∉ part := by
      rw [← hsplit] at hpart
      intro harrow
      simpa using not_separates_of_mem_splitOnP hpart arrow harrow
    have hright : arrow ∉ right := hparts (List.mem_cons_of_mem _ List.mem_cons_self)
    exact ⟨hwords.symm, hparts List.mem_cons_self, hright⟩
  · intro h
    obtain ⟨rfl, hleft, hright⟩ := h
    rw [splitRule, List.splitOn_append_cons_self, List.splitOn_eq_singleton hleft,
      List.splitOn_eq_singleton hright]
    rfl

namespace Vocabulary

variable {v : Vocabulary} {x : Symbol}

theorem name_not_mem_reserved (h : x ∈ v.symbols) : x.name ∉ reserved :=
  v.unreserved x.name (mem_names.1 (name_mem_names h))

theorem name_ne_epsilonName (h : x ∈ v.symbols) : x.name ≠ epsilonName := by
  intro he
  apply name_not_mem_reserved h
  rw [he]
  decide

theorem name_ne_arrow (h : x ∈ v.symbols) : x.name ≠ arrow := by
  intro he
  apply name_not_mem_reserved h
  rw [he]
  decide

end Vocabulary

def Production.rightWords (p : Production) : List String :=
  if p.rhs = [] then [epsilonName] else p.rhs.map Symbol.name

variable {v : Vocabulary} {text : String} {p : Production}

theorem Production.words_eq (p : Production) : p.words = p.lhs :: arrow :: p.rightWords :=
  rfl

theorem Production.rightWords_ne_nil (p : Production) : p.rightWords ≠ [] := by
  unfold rightWords
  split
  · exact List.cons_ne_nil _ _
  · rwa [ne_eq, List.map_eq_nil_iff]

theorem Production.Over.arrow_not_mem_rightWords (h : p.Over v) : arrow ∉ p.rightWords := by
  unfold Production.rightWords
  split
  · decide
  · intro ha
    obtain ⟨x, hx, ha⟩ := List.mem_map.1 ha
    exact Vocabulary.name_ne_arrow (h.2 x hx) ha

theorem Production.Over.lhs_ne_arrow (h : p.Over v) : p.lhs ≠ arrow :=
  Vocabulary.name_ne_arrow (Vocabulary.nonterminal_mem_symbols.2 h.1)

/-- The only words for an empty right-hand side are `ε` alone. -/
theorem Production.Over.rightWords_eq_epsilon_iff (h : p.Over v) :
    p.rightWords = [epsilonName] ↔ p.rhs = [] := by
  unfold Production.rightWords
  split
  · rename_i hrhs
    simp only [hrhs]
  · rename_i hrhs
    refine iff_of_false ?_ hrhs
    intro he
    obtain ⟨x, hx, hname⟩ := List.map_eq_singleton_iff.1 he
    have hmem : x ∈ p.rhs := by
      rw [hx]
      exact List.mem_singleton.2 rfl
    exact Vocabulary.name_ne_epsilonName (h.2 x hmem) hname

def readWord (v : Vocabulary) (text word : String) : Except GrammarError Symbol :=
  if word = epsilonName then .error (.malformedRule text .epsilonAmongOthers)
  else match v.symbol? word with
    | some x => .ok x
    | none => .error (.undefinedSymbol text word)

theorem readRight_eq (right : List String) :
    readRight v text right = right.mapM (readWord v text) :=
  rfl

theorem readWord_eq_ok_iff {word : String} {x : Symbol} :
    readWord v text word = .ok x ↔ x ∈ v.symbols ∧ x.name = word := by
  rw [← Vocabulary.symbol?_eq_some_iff, readWord]
  split
  · rename_i he
    constructor
    · intro h
      cases h
    · intro hx
      obtain ⟨hx, hname⟩ := Vocabulary.symbol?_eq_some_iff.1 hx
      exact absurd (hname.trans he) (Vocabulary.name_ne_epsilonName hx)
  · cases v.symbol? word <;> simp

theorem readRight_eq_ok_iff {right : List String} {rhs : List Symbol} :
    readRight v text right = .ok rhs ↔
      (∀ x ∈ rhs, x ∈ v.symbols) ∧ rhs.map Symbol.name = right := by
  rw [readRight_eq]
  induction right generalizing rhs with
  | nil =>
    constructor
    · intro h
      obtain rfl : [] = rhs := Except.ok.inj h
      exact ⟨fun x hx => absurd hx List.not_mem_nil, rfl⟩
    · intro h
      rw [List.map_eq_nil_iff.1 h.2]
      rfl
  | cons word right ih =>
    rw [mapM_cons_eq_ok_iff]
    constructor
    · intro h
      obtain ⟨x, rhs, rfl, hx, hrhs⟩ := h
      obtain ⟨hx, hname⟩ := readWord_eq_ok_iff.1 hx
      obtain ⟨hmem, rfl⟩ := ih.1 hrhs
      exact ⟨List.forall_mem_cons.2 ⟨hx, hmem⟩, by rw [List.map_cons, hname]⟩
    · intro h
      obtain ⟨hmem, hnames⟩ := h
      obtain ⟨x, rhs, rfl, hname, hnames⟩ := List.map_eq_cons_iff.1 hnames
      obtain ⟨hx, hmem⟩ := List.forall_mem_cons.1 hmem
      exact ⟨x, rhs, rfl, readWord_eq_ok_iff.2 ⟨hx, hname⟩, ih.2 ⟨hmem, hnames⟩⟩

theorem words_of_readRule (h : readRule v text = .ok p) : words text = p.words := by
  unfold readRule at h
  split at h <;> try contradiction
  rename_i a right hsplit
  obtain ⟨hwords, -, -⟩ := splitRule_eq_some_iff.1 hsplit
  split at h <;> try contradiction
  split at h <;> try contradiction
  split at h
  · rename_i hright
    obtain rfl := Except.ok.inj h
    rw [hwords, hright]
    rfl
  · rename_i hne hright
    cases hr : readRight v text right with
    | error e =>
      rw [hr] at h
      cases h
    | ok rhs =>
      rw [hr] at h
      obtain rfl := Except.ok.inj h
      obtain ⟨-, rfl⟩ := readRight_eq_ok_iff.1 hr
      rw [List.map_eq_nil_iff] at hne
      rw [hwords, Production.words, if_neg hne]
      rfl

theorem readRule_of_words (hover : p.Over v) (hwords : words text = p.words) :
    readRule v text = .ok p := by
  have hleft : arrow ∉ [p.lhs] := fun ha => hover.lhs_ne_arrow (List.mem_singleton.1 ha).symm
  have hsplit : splitRule (words text) = some ([p.lhs], p.rightWords) :=
    splitRule_eq_some_iff.2 ⟨hwords, hleft, hover.arrow_not_mem_rightWords⟩
  unfold readRule
  rw [hsplit]
  dsimp only
  rw [if_neg (not_not.2 hover.1), if_neg p.rightWords_ne_nil]
  split
  · rename_i he
    rw [← hover.rightWords_eq_epsilon_iff.1 he]
  · rename_i hne
    rw [hover.rightWords_eq_epsilon_iff] at hne
    have hright : readRight v text p.rightWords = .ok p.rhs := by
      rw [readRight_eq_ok_iff, Production.rightWords, if_neg hne]
      exact ⟨hover.2, rfl⟩
    rw [hright]
    rfl

theorem readRule_eq_ok_iff : readRule v text = .ok p ↔ p.Over v ∧ words text = p.words :=
  ⟨fun h => ⟨over_of_readRule h, words_of_readRule h⟩, fun h => readRule_of_words h.1 h.2⟩

theorem mapM_readRule_eq_ok_iff {texts : List String} {ps : List Production}
    (hover : ∀ p ∈ ps, p.Over v) :
    texts.mapM (readRule v) = .ok ps ↔ texts.map words = ps.map Production.words := by
  induction texts generalizing ps with
  | nil =>
    rw [List.map_nil, eq_comm (a := []), List.map_eq_nil_iff]
    exact ⟨fun h => (Except.ok.inj h).symm, fun h => h ▸ rfl⟩
  | cons text texts ih =>
    rw [mapM_cons_eq_ok_iff, List.map_cons]
    constructor
    · intro h
      obtain ⟨p, ps, rfl, hp, hps⟩ := h
      rw [ih (List.forall_mem_cons.1 hover).2] at hps
      rw [List.map_cons, hps, (readRule_eq_ok_iff.1 hp).2]
    · intro h
      obtain ⟨p, ps, rfl, hp, hps⟩ := List.map_eq_cons_iff.1 h.symm
      obtain ⟨hp', hover⟩ := List.forall_mem_cons.1 hover
      exact ⟨p, ps, rfl, readRule_eq_ok_iff.2 ⟨hp', hp.symm⟩, (ih hover).2 hps.symm⟩

/-- To load a grammar is to find the one that has these names and whose rules have these words. -/
theorem Grammar.load_eq_ok_iff_words {g : Grammar} {rules terminals nonterminals : List String}
    {start : String} : load rules terminals nonterminals start = .ok g ↔
      (g.terminals.names = terminals ∧ g.nonterminals.names = nonterminals) ∧ g.start = start ∧
        g.augmentedStart = g.freshen (start ++ "'") ∧
        rules.map words = g.rules.map Production.words := by
  rw [load_eq_ok_iff, Vocabulary.declare_eq_ok_iff, mapM_readRule_eq_ok_iff g.rules_over]

end SimpleLR
