import Mathlib.Data.List.NodupEquivFin
import SimpleLR.Proofs.Grammar.Embedding
import SimpleLR.Proofs.Grammar.Load
import SimpleLR.Proofs.Table.Entries

namespace SimpleLR

open Automaton

variable {g g' : Grammar} {σ : Nat → Nat}

/-- Both actions shift, wherever to, or both accept, or both reduce by the same production, which
has another number in the second. -/
inductive Action.Renumbers (σ : Nat → Nat) : Action → Action → Prop where
  | shift (i j : Nat) : Renumbers σ (.shift i) (.shift j)
  | reduce (q : Nat) : Renumbers σ (.reduce q) (.reduce (σ q))
  | accept : Renumbers σ .accept .accept

/-- Actions of one state for one symbol are told apart by what they do, leaving aside where a shift
leads. -/
theorem Candidate.eq_of_renumbers {a : Automaton} {follow : Family} {i : Nat} {x : Symbol}
    {act act' act'' : Action} (hσ : Function.Injective σ) (h : Candidate g a follow i x act)
    (h' : Candidate g a follow i x act') (hr : act.Renumbers σ act'')
    (hr' : act'.Renumbers σ act'') : act = act' := by
  cases hr with
  | shift j k =>
    cases hr' with
    | shift j' =>
      cases h with
      | shift _ _ _ hj =>
        cases h' with
        | shift _ _ _ hj' => rw [Option.some.inj (hj.symm.trans hj')]
  | reduce q =>
    generalize he : Action.reduce (σ q) = act'' at hr'
    cases hr' with
    | shift => cases he
    | reduce q' => rw [hσ (Action.reduce.inj he)]
    | accept => cases he
  | accept =>
    cases hr' with
    | accept => rfl

namespace Grammar.Embeds

variable {γ : List Symbol} {n : Nat} {x : Symbol} {act : Action}

/-- What the state at the end of a sequence calls for, the state at its end in the larger grammar
calls for too. -/
theorem exists_candidate (h : g.Embeds g' σ) (hn : (ofGrammar g).follow γ = some n)
    (hc : Candidate g (ofGrammar g) (Follow.sets g (First.sets g)) n x act) :
    ∃ m act', (ofGrammar g').follow γ = some m ∧
      Candidate g' (ofGrammar g') (Follow.sets g' (First.sets g')) m x act' ∧
      act.Renumbers σ act' := by
  have hstate {s : State} {i : Item} (hs : (ofGrammar g).states[n]? = some s)
      (hi : i ∈ s.items) : ∃ m s', (ofGrammar g').follow γ = some m ∧
        (ofGrammar g').states[m]? = some s' ∧ i.renumber σ ∈ s'.items := by
    have hv := h.valid ((mem_items_iff_valid hn hs).1 hi)
    obtain ⟨m, I, hm, hI, hi'⟩ := exists_follow_of_valid hv
    obtain ⟨s', hs', rfl⟩ := itemSets_eq_some_iff.1 hI
    exact ⟨m, s', hm, hs', hi'⟩
  cases hc with
  | @shift j s i b hs hi hx hj =>
    obtain ⟨m, s', hm, hs', hi'⟩ := hstate hs hi
    rw [← h.next?_renumber] at hx
    obtain ⟨k, hk⟩ := exists_goto_of_valid hm ((mem_items_iff_valid hm hs').1 hi') hx
    exact ⟨m, .shift k, hm, .shift hs' hi' hx hk, .shift j k⟩
  | accept hs hi hx h₀ =>
    obtain ⟨m, s', hm, hs', hi'⟩ := hstate hs hi
    rw [← h.next?_renumber] at hx
    have h₀' : σ _ = 0 := (congrArg σ h₀).trans h.zero
    exact ⟨m, .accept, hm, .accept hs' hi' hx h₀', .accept⟩
  | @reduce s i p _ hs hi hx h₀ hp hfollow =>
    obtain ⟨m, s', hm, hs', hi'⟩ := hstate hs hi
    rw [← h.next?_renumber] at hx
    rw [← h.productions] at hp
    have h₀' : σ i.production ≠ 0 := by
      intro hzero
      exact h₀ (h.injective (hzero.trans h.zero.symm))
    have hfollow' := h.follow_le p.lhs x hfollow
    exact ⟨m, .reduce (σ i.production), hm, .reduce hs' hi' hx h₀' hp hfollow', .reduce _⟩

theorem exists_table (h : g.Embeds g' σ) (ht : ∃ t, ParseTable.ofGrammar g' = .ok t) :
    ∃ t, ParseTable.ofGrammar g = .ok t := by
  have hunique := ParseTable.exists_ofAutomaton_iff.1 ht
  apply ParseTable.exists_ofAutomaton_iff.2
  intro i x act₁ act₂ h₁ h₂
  obtain ⟨s, hs⟩ := h₁.exists_state
  obtain ⟨γ, hγ⟩ := exists_follow_of_itemSets (itemSets_eq_some_iff.2 ⟨s, hs, rfl⟩)
  obtain ⟨m, act₁', hm, hc₁, hr₁⟩ := h.exists_candidate hγ h₁
  obtain ⟨m', act₂', hm', hc₂, hr₂⟩ := h.exists_candidate hγ h₂
  obtain rfl := Option.some.inj (hm.symm.trans hm')
  obtain rfl := hunique _ _ _ _ hc₁ hc₂
  exact h₁.eq_of_renumbers h.injective h₂ hr₁ hr₂

theorem of_sublist (hstart : g.startProduction = g'.startProduction)
    (hn : g.nonterminals = g'.nonterminals) (hs : g.rules.Sublist g'.rules) :
    ∃ σ, g.Embeds g' σ := by
  obtain ⟨f, hf⟩ := List.sublist_iff_exists_orderEmbedding_getElem?_eq.1 hs
  have hproductions : ∀ i, g'.productions[shiftIndex f i]? = g.productions[i]? := by
    intro i
    cases i with
    | zero => exact congrArg some hstart.symm
    | succ i => exact (hf i).symm
  have hnonterminals : ∀ a ∈ g.nonterminals, a ∈ g'.nonterminals := by
    intro a ha
    rwa [← hn]
  exact ⟨shiftIndex f, hproductions, rfl, shiftIndex_injective f.injective, hnonterminals⟩

end Grammar.Embeds

/-- A grammar from which rules are left out loads, with the same augmented start, its FIRST and
FOLLOW sets hold nothing new, and it has no conflict unless there was one before. -/
theorem ParseTable.exists_of_sublist {rules rules' terminals nonterminals : List String}
    {start : String} (hs : rules.Sublist rules')
    (hg' : Grammar.load rules' terminals nonterminals start = .ok g') :
    ∃ g, Grammar.load rules terminals nonterminals start = .ok g ∧
      g.augmentedStart = g'.augmentedStart ∧ First.sets g ≤ First.sets g' ∧
      Follow.sets g (First.sets g) ≤ Follow.sets g' (First.sets g') ∧
      ((∃ t', ofGrammar g' = .ok t') → ∃ t, ofGrammar g = .ok t) := by
  obtain ⟨g, hg, hv, hstart, hsub⟩ := Grammar.exists_load_of_sublist hs hg'
  obtain ⟨σ, h⟩ := Grammar.Embeds.of_sublist hstart (congrArg Vocabulary.nonterminals hv) hsub
  exact ⟨g, hg, h.augmentedStart_eq.symm, h.first_le, h.follow_le, h.exists_table⟩

/-- Without the rule that ends it `S` generates nothing, and the rule for `N` has another number. -/
theorem ParseTable.exists_without_end :
    ∃ g g' t, ["S -> S a N", "N -> ε"].Sublist ["S -> S a N", "S -> b", "N -> ε"] ∧
      Grammar.load ["S -> S a N", "S -> b", "N -> ε"] ["a", "b"] ["S", "N"] "S" = .ok g' ∧
      Grammar.load ["S -> S a N", "N -> ε"] ["a", "b"] ["S", "N"] "S" = .ok g ∧
      First.sets g ≤ First.sets g' ∧ ¬ First.sets g' ≤ First.sets g ∧
      ofGrammar g = .ok t := by
  have hs : ["S -> S a N", "N -> ε"].Sublist ["S -> S a N", "S -> b", "N -> ε"] := by decide
  obtain ⟨g', hg', h⟩ := exists_ok_of_any
    (r := Grammar.load ["S -> S a N", "S -> b", "N -> ε"] ["a", "b"] ["S", "N"] "S")
    (p := fun g => .terminal "b" ∈ (First.sets g).lookup "S" ∧
      (ofGrammar g).toOption.any fun _ => true)
    (by decide +kernel)
  obtain ⟨hb, ht⟩ := of_decide_eq_true h
  obtain ⟨t', ht', -⟩ := exists_ok_of_any ht
  obtain ⟨g, hg, -, hfirst, -, htable⟩ := exists_of_sublist hs hg'
  obtain ⟨t, ht⟩ := htable ⟨t', ht'⟩
  have hnothing : .terminal "b" ∉ (First.sets g).lookup "S" := by
    obtain ⟨_, hg₁, h⟩ := exists_ok_of_any
      (r := Grammar.load ["S -> S a N", "N -> ε"] ["a", "b"] ["S", "N"] "S")
      (p := fun g => .terminal "b" ∉ (First.sets g).lookup "S") (by decide +kernel)
    obtain rfl := Except.ok.inj (hg.symm.trans hg₁)
    exact of_decide_eq_true h
  exact ⟨g, g', t, hs, hg', hg, hfirst, fun hle => hnothing (hle _ _ hb), ht⟩

end SimpleLR
