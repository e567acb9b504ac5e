import Mathlib.Order.Bounds.Defs
import SimpleLR.Proofs.Grammar.Reordering
import SimpleLR.Proofs.Saturation

namespace SimpleLR.Follow

variable {g g' : Grammar} {first F G : Family}

theorem saturateFrom_le (hle : F ≤ G) (hG : Closed g first G) : saturateFrom g first F ≤ G :=
  of_mem_saturateFrom (closed_iff.1 hG) hle

theorem isLeast_saturateFrom (g : Grammar) (first F : Family) :
    IsLeast {G | F ≤ G ∧ Closed g first G} (saturateFrom g first F) :=
  ⟨⟨le_saturateFrom g first F, closed_saturateFrom g first F⟩,
    fun _ hG => saturateFrom_le hG.1 hG.2⟩

section

variable {σ : Nat → Nat}

theorem Closed.of_embeds (hF : Closed g' first F) (h : g.Embeds g' σ) : Closed g first F :=
  fun p hp => hF p (h.mem_productions hp)

theorem initial_le_of_embeds (h : g.Embeds g' σ) : initial g ≤ initial g' := by
  intro a x hx
  rw [mem_lookup_initial] at hx ⊢
  rwa [h.augmentedStart_eq, h.start_eq]

theorem sets_le_of_embeds (h : g.Embeds g' σ) (first : Family) : sets g first ≤ sets g' first := by
  have hinitial : initial g ≤ sets g' first :=
    Family.le_trans (initial_le_of_embeds h) (le_saturateFrom g' first (initial g'))
  exact saturateFrom_le hinitial ((closed_saturateFrom g' first (initial g')).of_embeds h)

end

theorem sets_eq_of_reorders {σ : Equiv.Perm Nat} (h : g.Reorders g' σ) (first : Family) :
    sets g first = sets g' first := by
  apply Family.ext_lookup
  · intro a
    rw [mem_sets_iff, mem_sets_iff, h.mem_heads_iff]
  · intro a x
    exact ⟨sets_le_of_embeds h.embeds first a x, sets_le_of_embeds h.symm.embeds first a x⟩

/-- Passes only add to the sets, the first that adds nothing comes after finitely many and at the
least closed family, and grammars with their productions in another order have the same sets. -/
theorem passes_reach_least_closed (g : Grammar) (first F : Family) :
    F ≤ step g first F ∧ (Settled g first F ↔ Closed g first F) ∧
      (∃ n, SettlesAfter (step g first) (Settled g first) n F ∧
        IsLeast {G | F ≤ G ∧ Closed g first G} ((step g first)^[n] F)) ∧
      ∀ (g' : Grammar) (σ : Equiv.Perm Nat), g.Reorders g' σ → sets g first = sets g' first := by
  obtain ⟨n, hn, heq⟩ := exists_iterate_eq_saturate
    (fun F h => (extends_step g first F).room_lt h) F
  have hleast : IsLeast {G | F ≤ G ∧ Closed g first G} ((step g first)^[n] F) := by
    rw [heq]
    exact isLeast_saturateFrom g first F
  exact ⟨le_step g first F, settled_iff_closed, ⟨n, hn, hleast⟩,
    fun g' σ h => sets_eq_of_reorders h first⟩

/-- With sets for FIRST that no grammar has, `z` and what is said of `S` come after `A`. The other
order of the rules makes no difference. -/
theorem passes_with_foreign_first :
    let first := (∅ : Family).add "S" {.epsilon, .terminal "z"}
    let F := (∅ : Family).add "S" {.nonterminal "Q"}
    ∃ g g', Grammar.load ["S -> A S", "A -> a"] ["a"] ["S", "A"] "S" = .ok g ∧
      Grammar.load ["A -> a", "S -> A S"] ["a"] ["S", "A"] "S" = .ok g' ∧
      ¬ Closed g first F ∧ Closed g first ((step g first)^[1] F) ∧
      .nonterminal "Q" ∈ ((step g first)^[1] F).lookup "A" ∧
      .terminal "z" ∈ ((step g first)^[1] F).lookup "A" ∧ F ≤ step g first F ∧
      (∃ n, IsLeast {G | F ≤ G ∧ Closed g first G} ((step g first)^[n] F)) ∧
      sets g first = sets g' first := by
  intro first F
  obtain ⟨g, hg, hpass⟩ := exists_ok_of_any
    (r := Grammar.load ["S -> A S", "A -> a"] ["a"] ["S", "A"] "S")
    (p := fun g => ¬ Settled g first F ∧ Settled g first ((step g first)^[1] F) ∧
      .nonterminal "Q" ∈ ((step g first)^[1] F).lookup "A" ∧
      .terminal "z" ∈ ((step g first)^[1] F).lookup "A") (by decide +kernel)
  obtain ⟨g', hg', -⟩ := exists_ok_of_any
    (r := Grammar.load ["A -> a", "S -> A S"] ["a"] ["S", "A"] "S") (p := fun _ => true)
    (by decide +kernel)
  obtain ⟨hunsettled, hsettled, hinherited, hforeign⟩ := of_decide_eq_true hpass
  obtain ⟨hgrow, hclosed, ⟨n, -, hleast⟩, horder⟩ := passes_reach_least_closed g first F
  have hclosed' := (passes_reach_least_closed g first ((step g first)^[1] F)).2.1
  obtain ⟨σ, hσ⟩ := exists_renumbers (List.Perm.swap "A -> a" "S -> A S" [])
  have hreorders := Grammar.reorders_of_load hg hg' (.refl _) (.refl _) hσ
  exact ⟨g, g', hg, hg', fun h => hunsettled (hclosed.2 h), hclosed'.1 hsettled, hinherited,
    hforeign, hgrow, ⟨n, hleast⟩, horder g' σ hreorders⟩

end SimpleLR.Follow
