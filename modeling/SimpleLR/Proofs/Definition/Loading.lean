import SimpleLR.Proofs.Definition.Parsing
import SimpleLR.Proofs.Grammar.RuleText

namespace SimpleLR

open Text

def RuleDefinition.words (r : RuleDefinition) : List String :=
  r.lhs :: arrow :: r.rhs

theorem RuleDefinition.words_text (r : RuleDefinition) :
    Text.words r.text = r.words.flatMap Text.words :=
  words_intercalate r.words

theorem Line.ne_empty_of_mem_words {line : List Char} {a : String} (h : a ∈ Line.words line) :
    a ≠ "" := by
  obtain ⟨w, hw, rfl⟩ := List.mem_map.1 h
  intro he
  exact ne_nil_of_mem_runs ((List.takeWhile_sublist _).subset hw) (String.ofList_eq_empty_iff.1 he)

namespace Definition

variable {d d' : Definition} {n : Nat} {r : RuleDefinition} {source : String}

theorem mem_rules_of_addLine {l : Line} (h : d.addLine n l = .ok d') (hr : r ∈ d'.rules) :
    r ∈ d.rules ∨ r.line = n ∧ l.toWords = r.words := by
  cases l with
  | empty =>
    obtain rfl := Except.ok.inj h
    exact .inl hr
  | rule lhs rhs =>
    obtain rfl := Except.ok.inj h
    rcases List.mem_append.1 hr with hr | hr
    · exact .inl hr
    · obtain rfl := List.mem_singleton.1 hr
      exact .inr ⟨rfl, rfl⟩
  | terminals | nonterminals | start =>
    dsimp only [addLine] at h
    split at h
    · cases h
    · obtain rfl := Except.ok.inj h
      exact .inl hr

theorem mem_rules_of_readWords {words : List String} (h : d.readWords n words = .ok d')
    (hr : r ∈ d'.rules) : r ∈ d.rules ∨ r.line = n ∧ words = r.words := by
  unfold readWords at h
  split at h
  · rename_i l hl
    rw [(Line.ofWords?_eq_some_iff.1 hl).1]
    exact mem_rules_of_addLine h hr
  · cases h

theorem mem_lines_of_mem_rules (h : read source = .ok d) (hr : r ∈ d.rules) :
    (r.words, r.line) ∈ (lines source).zipIdx 1 := by
  rw [read_eq] at h
  revert r
  apply foldlM_induction (P := fun d : Definition => ∀ {r}, r ∈ d.rules →
    (r.words, r.line) ∈ (lines source).zipIdx 1) h
  · exact fun hr => absurd hr List.not_mem_nil
  · intro d c m hd hc hm r hr
    rcases mem_rules_of_readWords hm hr with hr | ⟨hn, hwords⟩
    · exact hd hr
    · rwa [hn, ← hwords]

theorem ne_empty_of_mem_words (h : read source = .ok d) (hr : r ∈ d.rules) :
    ∀ a ∈ r.words, a ≠ "" := by
  have hmem : r.words ∈ lines source := List.fst_mem_of_mem_zipIdx (mem_lines_of_mem_rules h hr)
  obtain ⟨line, -, hwords⟩ := List.mem_map.1 hmem
  intro a ha
  rw [← hwords] at ha
  exact Line.ne_empty_of_mem_words ha

variable {g : Grammar}

theorem toGrammar_eq_ok_iff : d.toGrammar = .ok g ↔ ∃ start, d.start? = some start ∧
    Grammar.load (d.rules.map RuleDefinition.text) d.allTerminals d.allNonterminals start =
      .ok g := by
  unfold toGrammar
  cases d.start? with
  | none => exact ⟨nofun, fun h => nomatch h.choose_spec.1⟩
  | some start => simp only [Option.some.injEq, exists_eq_left']

theorem words_of_toGrammar (h : d.toGrammar = .ok g) :
    g.rules.map Production.words = d.rules.map fun r => r.words.flatMap Text.words := by
  obtain ⟨_, -, hload⟩ := toGrammar_eq_ok_iff.1 h
  rw [← (Grammar.load_eq_ok_iff_words.1 hload).2.2.2, List.map_map]
  exact List.map_congr_left fun r _ => r.words_text

/-- A grammar that is described by a definition file has a production for each rule, in their order,
with the words of the rule split at blanks. These are the words of the rule as it is written if none
of them has a blank in it, and otherwise they are not. -/
theorem productions_of_toGrammar (hd : read source = .ok d) (hg : d.toGrammar = .ok g) :
    g.productions.length = d.rules.length + 1 ∧
      ∀ i r, d.rules[i]? = some r → ∃ p, g.productions[i + 1]? = some p ∧
        p.words = r.words.flatMap Text.words ∧
        ((p.lhs = r.lhs ∧ p.rightWords = r.rhs) ↔
          ∀ a ∈ r.words, ∀ c ∈ a.toList, isBlank c = false) := by
  have hwords := words_of_toGrammar hg
  constructor
  · have hlength := congrArg List.length hwords
    rw [List.length_map, List.length_map] at hlength
    exact congrArg (· + 1) hlength
  · intro i r hr
    have hi := congrArg (·[i]?) hwords
    simp only [List.getElem?_map, hr, Option.map_some] at hi
    obtain ⟨p, hp, hpr⟩ := Option.map_eq_some_iff.1 hi
    refine ⟨p, hp, hpr, ?_⟩
    have hne := ne_empty_of_mem_words hd (List.mem_of_getElem? hr)
    have hblank : (∀ a ∈ r.words, IsWord a) ↔ ∀ a ∈ r.words, ∀ c ∈ a.toList, isBlank c = false :=
      ⟨fun h a ha => (h a ha).2, fun h a ha => ⟨hne a ha, h a ha⟩⟩
    rw [← hblank, ← flatMap_words_eq_self_iff, ← hpr, p.words_eq, RuleDefinition.words,
      List.cons.injEq, List.cons.injEq]
    simp only [true_and]

/-- The comment and the form feed are not in the words of the rules, and `ε` is in those of the
second one. -/
theorem productions_with_comment : ∃ d g p q,
    read "%start S\nS -> a\x0cS b -- again\nS -> ε\n" = .ok d ∧ d.toGrammar = .ok g ∧
      g.productions.length = 3 ∧ g.productions[1]? = some p ∧ g.productions[2]? = some q ∧
      (p.lhs = "S" ∧ p.rightWords = ["a", "S", "b"]) ∧ q.lhs = "S" ∧ q.rightWords = ["ε"] := by
  obtain ⟨d, hd, hcheck⟩ := exists_ok_of_any
    (r := read "%start S\nS -> a\x0cS b -- again\nS -> ε\n")
    (p := fun d => d.rules = [⟨"S", ["a", "S", "b"], 2⟩, ⟨"S", ["ε"], 3⟩] ∧
      d.toGrammar.toOption.any fun _ => true)
    (by decide +kernel)
  obtain ⟨hrules, hgrammar⟩ := of_decide_eq_true hcheck
  obtain ⟨g, hg, -⟩ := exists_ok_of_any hgrammar
  obtain ⟨hlength, hrule⟩ := productions_of_toGrammar hd hg
  rw [hrules] at hlength hrule
  obtain ⟨p, hp, -, hpr⟩ := hrule 0 _ rfl
  obtain ⟨q, hq, -, hqr⟩ := hrule 1 _ rfl
  have hsplit : ∀ a ∈ ["S", arrow, "a", "S", "b"], IsWord a := by decide +kernel
  have hsplit' : ∀ a ∈ ["S", arrow, "ε"], IsWord a := by decide +kernel
  have hpr := hpr.2 fun a ha => (hsplit a ha).2
  have hqr := hqr.2 fun a ha => (hsplit' a ha).2
  exact ⟨d, g, p, q, hd, hg, hlength, hp, hq, hpr, hqr⟩

/-- A no-break space is part of a word in a definition file, and a blank in the text of a rule. Here
it is in the name of a terminal, for which two others are put in. -/
theorem not_loaded_as_written : ¬ ∀ source d g, read source = .ok d → d.toGrammar = .ok g →
    g.productions.length = d.rules.length + 1 ∧
      ∀ i r, d.rules[i]? = some r → ∃ p, g.productions[i + 1]? = some p ∧
        p.lhs = r.lhs ∧ p.rightWords = r.rhs := by
  intro h
  obtain ⟨d, hd, hcheck⟩ := exists_ok_of_any
    (r := read "%terminals a b a\u00a0b\n%nonterminals S\nS -> a\u00a0b\n")
    (p := fun d => d.rules = [⟨"S", ["a\u00a0b"], 3⟩] ∧ d.toGrammar.toOption.any fun g =>
      g.productions[1]? = some ⟨"S", [.terminal "a", .terminal "b"]⟩)
    (by decide +kernel)
  obtain ⟨hrules, hgrammar⟩ := of_decide_eq_true hcheck
  obtain ⟨g, hg, hproduction⟩ := exists_ok_of_any hgrammar
  obtain ⟨p, hp, -, hright⟩ := (h _ d g hd hg).2 0 ⟨"S", ["a\u00a0b"], 3⟩ (by rw [hrules]; rfl)
  obtain rfl := Option.some.inj (hp.symm.trans (of_decide_eq_true hproduction))
  exact absurd hright (by decide +kernel)

end Definition

end SimpleLR
