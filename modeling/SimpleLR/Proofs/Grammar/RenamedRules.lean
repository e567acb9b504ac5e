import SimpleLR.Proofs.Grammar.Renaming
import SimpleLR.Proofs.Grammar.RuleText

namespace SimpleLR

open Text

variable {ρ : String → String} {π : Equiv.Perm String}

namespace Vocabulary

theorem names_eq_map {v v' : Vocabulary} (ht : v'.terminals.names = v.terminals.names.map ρ)
    (hn : v'.nonterminals.names = v.nonterminals.names.map ρ) : v'.names = v.names.map ρ := by
  rw [names, names, ht, hn, List.map_append]

theorem exists_rename (v : Vocabulary) (hinj : ∀ a ∈ v.names, ∀ b ∈ v.names, ρ a = ρ b → a = b)
    (hρ : ∀ a ∈ v.names, ρ a ∉ reserved) : ∃ v' : Vocabulary,
      v'.terminals.names = v.terminals.names.map ρ ∧
        v'.nonterminals.names = v.nonterminals.names.map ρ := by
  have hnodup : (v.names.map ρ).Nodup := v.nodup_names.map_on hinj
  have hr : ∀ a ∈ v.names.map ρ, a ∉ reserved := by
    intro a ha
    obtain ⟨b, hb, rfl⟩ := List.mem_map.1 ha
    exact hρ b hb
  rw [names, List.map_append] at hnodup hr
  exact exists_of_names hnodup hr

end Vocabulary

section

variable {v : Vocabulary} {p : Production} {a : String}

theorem renameWord_of_mem_names (ha : a ∈ v.names) : renameWord ρ a = ρ a := by
  have hreserved := v.unreserved a (Vocabulary.mem_names.1 ha)
  apply if_neg
  rintro (rfl | rfl)
  · exact hreserved (by decide)
  · exact hreserved (by decide)

theorem name_rename {x : Symbol} (hx : x ∈ v.symbols) : (x.rename ρ).name = ρ x.name := by
  cases x with
  | terminal => rfl
  | nonterminal => rfl
  | epsilon => exact absurd hx Vocabulary.epsilon_not_mem_symbols
  | endMarker => exact absurd hx Vocabulary.endMarker_not_mem_symbols

namespace Production.Over

theorem words_rename (hp : p.Over v) : (p.rename ρ).words = p.words.map (renameWord ρ) := by
  have hlhs : renameWord ρ p.lhs = ρ p.lhs :=
    renameWord_of_mem_names (Vocabulary.mem_names.2 (.inr hp.1))
  have hrhs : (p.rename ρ).rightWords = p.rightWords.map (renameWord ρ) := by
    rw [rightWords, rightWords, rename]
    by_cases he : p.rhs = []
    · rw [he]
      rfl
    · rw [if_neg he, if_neg (mt List.map_eq_nil_iff.1 he), List.map_map, List.map_map]
      apply List.map_congr_left
      intro x hx
      have hname := Vocabulary.name_mem_names (hp.2 x hx)
      exact (name_rename (hp.2 x hx)).trans (renameWord_of_mem_names hname).symm
  rw [words_eq, words_eq, hrhs, List.map_cons, List.map_cons, hlhs]
  rfl

theorem isWord_of_mem_words (hp : p.Over v) (hρ : ∀ a ∈ v.names, IsWord (ρ a)) :
    ∀ a ∈ (p.rename ρ).words, IsWord a := by
  have hname {x : Symbol} (hx : x ∈ v.symbols) : IsWord (x.rename ρ).name := by
    rw [name_rename hx]
    exact hρ _ (Vocabulary.name_mem_names hx)
  rw [words_eq]
  refine List.forall_mem_cons.2 ⟨hname (Vocabulary.nonterminal_mem_symbols.2 hp.1), ?_⟩
  refine List.forall_mem_cons.2 ⟨by decide +kernel, ?_⟩
  rw [rightWords]
  split
  · decide +kernel
  · intro a ha
    obtain ⟨y, hy, rfl⟩ := List.mem_map.1 ha
    obtain ⟨x, hx, rfl⟩ := List.mem_map.1 hy
    exact hname (hp.2 x hx)

theorem flatMap_words_rename (hp : p.Over v) (hρ : ∀ a ∈ v.names, IsWord (ρ a)) :
    (p.words.map (renameWord ρ)).flatMap Text.words = (p.rename ρ).words := by
  rw [← hp.words_rename]
  exact flatMap_words_eq_self_iff.2 (hp.isWord_of_mem_words hρ)

end Production.Over

end

namespace Grammar

variable {g : Grammar} {rules terminals nonterminals : List String} {start : String}

theorem exists_rename (g : Grammar) (hinj : ∀ a ∈ g.names, ∀ b ∈ g.names, ρ a = ρ b → a = b)
    (hρ : ∀ a ∈ g.names, ρ a ∉ reserved) : ∃ g' : Grammar,
      g'.terminals.names = g.terminals.names.map ρ ∧
        g'.nonterminals.names = g.nonterminals.names.map ρ ∧ g'.start = ρ g.start ∧
        g'.augmentedStart = g'.freshen (ρ g.start ++ "'") ∧
        g'.rules = g.rules.map (Production.rename ρ) := by
  obtain ⟨v, ht, hn⟩ := g.toVocabulary.exists_rename hinj hρ
  have haug : v.freshen (ρ g.start ++ "'") ∉ v.names := v.freshen_not_mem _
  rw [Vocabulary.mem_names, not_or] at haug
  have hnonterminal {a : String} (ha : a ∈ g.nonterminals) : ρ a ∈ v.nonterminals := by
    rw [NameTable.mem_iff, hn]
    exact List.mem_map_of_mem ha
  have hover : ∀ p ∈ g.rules.map (Production.rename ρ), p.Over v := by
    intro q hq
    obtain ⟨p, hp, rfl⟩ := List.mem_map.1 hq
    obtain ⟨hlhs, hrhs⟩ := g.rules_over p hp
    refine ⟨hnonterminal hlhs, ?_⟩
    rw [Vocabulary.symbols_eq_map ht hn]
    intro y hy
    obtain ⟨x, hx, rfl⟩ := List.mem_map.1 hy
    exact List.mem_map_of_mem (hrhs x hx)
  exact ⟨⟨v, ρ g.start, _, _, hnonterminal g.start_mem, haug, hover⟩, ht, hn, rfl, rfl, rfl⟩

variable {g' : Grammar}

theorem exists_perm_augmentedStart (hinj : ∀ a ∈ g.names, ∀ b ∈ g.names, ρ a = ρ b → a = b)
    (hnames : g'.names = g.names.map ρ) :
    ∃ π : Equiv.Perm String, π g.augmentedStart = g'.augmentedStart ∧ ∀ a ∈ g.names, π a = ρ a := by
  have haug (g : Grammar) : g.augmentedStart ∉ g.names := by
    rw [Vocabulary.mem_names, not_or]
    exact g.augmentedStart_not_mem
  obtain ⟨π, hπ⟩ := exists_perm_eq_on hinj
  apply exists_perm_cons hπ (haug g)
  intro a ha he
  apply haug g'
  rw [← he, hnames]
  exact List.mem_map_of_mem ha

theorem extendRenaming_eq (haug : π g.augmentedStart = g'.augmentedStart)
    (hnames : ∀ a ∈ g.names, π a = ρ a) :
    ∀ a ∈ g.augmentedStart :: g.names, g.extendRenaming g' ρ a = π a := by
  intro a ha
  unfold extendRenaming
  split
  · rename_i he
    rw [he, haug]
  · rename_i hne
    exact (hnames a ((List.mem_cons.1 ha).resolve_left hne)).symm

theorem map_words_renameRule (hrules : rules.map words = g.rules.map Production.words)
    (hρ : ∀ a ∈ g.names, IsWord (ρ a)) : (rules.map (renameRule ρ)).map words =
      (g.rules.map (Production.rename ρ)).map Production.words := by
  let renameWords (ws : List String) : List String := (ws.map (renameWord ρ)).flatMap words
  have htexts : words ∘ renameRule ρ = renameWords ∘ words :=
    funext fun text => words_intercalate _
  have hps : ∀ p ∈ g.rules, renameWords p.words = (p.rename ρ).words :=
    fun p hp => (g.rules_over p hp).flatMap_words_rename hρ
  rw [List.map_map, htexts, ← List.map_map, hrules, List.map_map, List.map_map]
  exact List.map_congr_left hps

theorem renames_of_names (ht : g'.terminals.names = g.terminals.names.map ρ)
    (hn : g'.nonterminals.names = g.nonterminals.names.map ρ) (hstart : g'.start = ρ g.start)
    (hps : g'.rules = g.rules.map (Production.rename ρ))
    (haug : π g.augmentedStart = g'.augmentedStart) (hπ : ∀ a ∈ g.names, π a = ρ a) :
    g.Renames g' π where
  productions := by
    have hρ : ∀ a ∈ g.names, ρ a = π a := fun a ha => (hπ a ha).symm
    have hrules : g.rules.map (Production.rename ρ) = g.rules.map (Production.rename π) := by
      apply List.map_congr_left
      intro p hp
      obtain ⟨hlhs, hrhs⟩ := g.rules_over p hp
      exact Production.rename_congr (hρ _ (Vocabulary.mem_names.2 (.inr hlhs))) fun x hx =>
        Vocabulary.rename_symbol_congr hρ (hrhs x hx)
    have hstart' := hπ g.start (Vocabulary.mem_names.2 (.inr g.start_mem))
    rw [productions, startProduction, hps, hrules, hstart, ← haug, ← hstart']
    rfl
  terminals := by
    rw [ht]
    exact List.map_congr_left fun a ha => (hπ a (List.mem_append_left _ ha)).symm
  nonterminals := by
    rw [hn]
    exact List.map_congr_left fun a ha => (hπ a (List.mem_append_right _ ha)).symm

/-- A grammar loads under other names, if these can stand in rules and tell the symbols apart. -/
theorem exists_load_rename (hg : load rules terminals nonterminals start = .ok g)
    (hinj : ∀ a ∈ g.names, ∀ b ∈ g.names, ρ a = ρ b → a = b)
    (hρ : ∀ a ∈ g.names, IsWord (ρ a) ∧ ρ a ∉ reserved) :
    ∃ g' π, load (rules.map (renameRule ρ)) (terminals.map ρ) (nonterminals.map ρ) (ρ start) =
        .ok g' ∧ g.Renames g' π ∧
      ∀ a ∈ g.augmentedStart :: g.names, g.extendRenaming g' ρ a = π a := by
  obtain ⟨⟨rfl, rfl⟩, rfl, -, hrules⟩ := load_eq_ok_iff_words.1 hg
  obtain ⟨g', ht, hn, hstart, haug, hps⟩ := g.exists_rename hinj fun a ha => (hρ a ha).2
  obtain ⟨π, hπaug, hπ⟩ := exists_perm_augmentedStart hinj (Vocabulary.names_eq_map ht hn)
  have hload : load (rules.map (renameRule ρ)) (g.terminals.names.map ρ)
      (g.nonterminals.names.map ρ) (ρ g.start) = .ok g' := by
    refine load_eq_ok_iff_words.2 ⟨⟨ht, hn⟩, hstart, haug, ?_⟩
    rw [hps]
    exact map_words_renameRule hrules fun a ha => (hρ a ha).1
  exact ⟨g', π, hload, renames_of_names ht hn hstart hps hπaug hπ, extendRenaming_eq hπaug hπ⟩

end Grammar

end SimpleLR
