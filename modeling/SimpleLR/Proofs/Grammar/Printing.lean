import SimpleLR.Proofs.Grammar.RuleText

namespace SimpleLR

open Text

theorem Production.words_text {p : Production} (h : ∀ a ∈ p.words, IsWord a) :
    Text.words p.text = p.words :=
  (words_intercalate p.words).trans (flatMap_words_eq_self_iff.2 h)

namespace Grammar

variable {g : Grammar} {rules terminals nonterminals : List String} {start : String}

/-- A name can be declared with blanks in it, but it does not get into a production then. -/
theorem isWord_of_load (h : load rules terminals nonterminals start = .ok g) {p : Production}
    (hp : p ∈ g.rules) : ∀ a ∈ p.words, IsWord a := by
  obtain ⟨-, -, -, hwords⟩ := load_eq_ok_iff_words.1 h
  have hmem : p.words ∈ rules.map words := by
    rw [hwords]
    exact List.mem_map_of_mem hp
  obtain ⟨text, -, htext⟩ := List.mem_map.1 hmem
  intro a ha
  rw [← htext] at ha
  exact isWord_of_mem_words ha

/-- A grammar is loaded again from the texts of its productions. -/
theorem load_text_of_load (h : load rules terminals nonterminals start = .ok g) :
    load (g.productions.tail.map Production.text) g.terminals.names g.nonterminals.names g.start =
      .ok g := by
  obtain ⟨-, hstart, haug, -⟩ := load_eq_ok_iff_words.1 h
  rw [← hstart] at haug
  refine load_eq_ok_iff_words.2 ⟨⟨rfl, rfl⟩, rfl, haug, ?_⟩
  rw [List.map_map]
  apply List.map_congr_left
  intro p hp
  exact Production.words_text (isWord_of_load h hp)

/-- The name `b c` is declared and no word, `S'` is taken, and the blanks in the rules are of
several kinds. -/
theorem load_text_of_wide_blanks : ∃ g,
    load ["S\u3000->  a\tS'", "S' -> ε ", "S -> S a ->a"] ["a", "b c", "->a"] ["S", "S'"] "S" =
        .ok g ∧
      g.augmentedStart = "S''" ∧
      load ["S -> a S'", "S' -> ε", "S -> S a ->a"] ["a", "b c", "->a"] ["S", "S'"] "S" =
        .ok g := by
  obtain ⟨g, hg, hcheck⟩ := exists_ok_of_any
    (r := load ["S\u3000->  a\tS'", "S' -> ε ", "S -> S a ->a"] ["a", "b c", "->a"] ["S", "S'"]
      "S")
    (p := fun g => g.productions.tail.map Production.text =
        ["S -> a S'", "S' -> ε", "S -> S a ->a"] ∧ g.augmentedStart = "S''")
    (by decide +kernel)
  obtain ⟨htexts, haug⟩ := of_decide_eq_true hcheck
  obtain ⟨⟨ht, hn⟩, hstart, -⟩ := load_eq_ok_iff_words.1 hg
  have hload := load_text_of_load hg
  rw [htexts, ht, hn, hstart] at hload
  exact ⟨g, hg, haug, hload⟩

end Grammar

end SimpleLR
