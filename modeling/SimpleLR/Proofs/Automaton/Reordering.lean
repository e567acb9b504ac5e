import Mathlib.Data.List.Nodup
import SimpleLR.Proofs.Automaton.ViablePrefix
import SimpleLR.Proofs.Grammar.Reordering

namespace SimpleLR

variable {g g' : Grammar} {σ π : Equiv.Perm Nat} {γ : List Symbol} {I J : ItemSet} {n : Nat}

def ItemSet.renumber (σ : Nat → Nat) (I : ItemSet) : ItemSet :=
  .ofList (I.toList.map (Item.renumber σ))

theorem ItemSet.mem_renumber {i : Item} : i ∈ I.renumber σ ↔ i.renumber σ.symm ∈ I := by
  simp only [renumber, Std.ExtTreeSet.mem_ofList, List.contains_iff_mem, List.mem_map,
    Std.ExtTreeSet.mem_toList]
  constructor
  · rintro ⟨j, hj, rfl⟩
    simpa only [Item.renumber, Equiv.symm_apply_apply] using hj
  · intro hi
    refine ⟨_, hi, ?_⟩
    simp only [Item.renumber, Equiv.apply_symm_apply]

theorem ItemSet.renumber_symm (σ : Equiv.Perm Nat) (I : ItemSet) :
    (I.renumber σ.symm).renumber σ = I := by
  apply Std.ExtTreeSet.ext_mem
  intro i
  rw [mem_renumber, mem_renumber]
  simp only [Item.renumber, Equiv.apply_symm_apply, Equiv.symm_symm]

theorem ItemSet.renumber_injective (σ : Equiv.Perm Nat) :
    Function.Injective (ItemSet.renumber σ) :=
  Function.LeftInverse.injective (g := ItemSet.renumber σ.symm) (renumber_symm σ.symm)

namespace Grammar.Reorders

open Automaton

theorem valid_iff (h : g.Reorders g' σ) {i : Item} :
    i.Valid g' γ ↔ (i.renumber σ.symm).Valid g γ := by
  constructor
  · exact h.symm.embeds.valid
  · intro hi
    have hi := h.embeds.valid hi
    simpa only [Item.renumber, Equiv.apply_symm_apply] using hi

theorem exists_follow (h : g.Reorders g' σ) (hn : (ofGrammar g).follow γ = some n)
    (hI : (ofGrammar g).itemSets[n]? = some I) : ∃ m, (ofGrammar g').follow γ = some m ∧
      (ofGrammar g').itemSets[m]? = some (I.renumber σ) := by
  obtain ⟨i, hi⟩ := exists_mem_of_itemSets hI
  have hvalid := h.embeds.valid ((mem_iff_valid hn hI).1 hi)
  obtain ⟨m, J, hm, hJ, -⟩ := exists_follow_of_valid hvalid
  have hitems : J = I.renumber σ := by
    apply Std.ExtTreeSet.ext_mem
    intro j
    rw [mem_iff_valid hm hJ, h.valid_iff, ItemSet.mem_renumber, mem_iff_valid hn hI]
  rw [hitems] at hJ
  exact ⟨m, hm, hJ⟩

theorem renumber_mem_itemSets (h : g.Reorders g' σ) (hI : I ∈ (ofGrammar g).itemSets) :
    I.renumber σ ∈ (ofGrammar g').itemSets := by
  obtain ⟨n, hn⟩ := List.mem_iff_getElem?.1 hI
  obtain ⟨γ, hγ⟩ := exists_follow_of_itemSets hn
  obtain ⟨m, -, hm⟩ := h.exists_follow hγ hn
  exact List.mem_of_getElem? hm

theorem perm_itemSets (h : g.Reorders g' σ) :
    ((ofGrammar g).itemSets.map (ItemSet.renumber σ)).Perm (ofGrammar g').itemSets := by
  have hnodup := (itemSets_nodup g).map (ItemSet.renumber_injective σ)
  apply (List.perm_ext_iff_of_nodup hnodup (itemSets_nodup g')).2
  intro J
  rw [List.mem_map]
  constructor
  · rintro ⟨I, hI, rfl⟩
    exact h.renumber_mem_itemSets hI
  · intro hJ
    exact ⟨_, h.symm.renumber_mem_itemSets hJ, ItemSet.renumber_symm σ J⟩

/-- The states of the first automaton are those of the second one with the numbers that `π` gives
them there. -/
def MapsStates (g g' : Grammar) (σ π : Equiv.Perm Nat) : Prop :=
  ∀ i, (ofGrammar g').itemSets[π i]? = (ofGrammar g).itemSets[i]?.map (ItemSet.renumber σ)

theorem exists_mapsStates (h : g.Reorders g' σ) : ∃ π, MapsStates g g' σ π := by
  obtain ⟨π, hπ⟩ := exists_perm_getElem? h.perm_itemSets
  refine ⟨π, fun i => ?_⟩
  rw [hπ, List.getElem?_map]

theorem MapsStates.symm (hπ : MapsStates g g' σ π) : MapsStates g' g σ.symm π.symm := by
  intro i
  have hi := hπ (π.symm i)
  rw [Equiv.apply_symm_apply] at hi
  rw [hi, Option.map_map]
  have hid : ItemSet.renumber σ.symm ∘ ItemSet.renumber σ = id :=
    funext (ItemSet.renumber_symm σ.symm)
  rw [hid, Option.map_id_fun, id]

theorem follow_eq_map (h : g.Reorders g' σ) (hπ : MapsStates g g' σ π) (γ : List Symbol) :
    (ofGrammar g').follow γ = ((ofGrammar g).follow γ).map π := by
  cases hn : (ofGrammar g).follow γ with
  | none =>
    apply Option.eq_none_iff_forall_ne_some.2
    intro m hm
    obtain ⟨J, hJ⟩ := exists_itemSet_of_follow hm
    obtain ⟨n, hn', -⟩ := h.symm.exists_follow hm hJ
    cases hn.symm.trans hn'
  | some n =>
    obtain ⟨I, hI⟩ := exists_itemSet_of_follow hn
    obtain ⟨m, hm, hJ⟩ := h.exists_follow hn hI
    have hsame := hπ n
    rw [hI, Option.map_some, ← index?_eq_some_iff, index?_eq_some_iff.2 hJ] at hsame
    rw [hm, hsame, Option.map_some]

theorem map_zero (h : g.Reorders g' σ) (hπ : MapsStates g g' σ π) : π 0 = 0 :=
  (Option.some.inj (h.follow_eq_map hπ [])).symm

theorem goto_eq_map (h : g.Reorders g' σ) (hπ : MapsStates g g' σ π) (i : Nat) (x : Symbol) :
    (ofGrammar g').goto (π i) x = ((ofGrammar g).goto i x).map π := by
  cases hI : (ofGrammar g).itemSets[i]? with
  | none =>
    have hπi := hπ i
    rw [hI, Option.map_none] at hπi
    have hnone {g : Grammar} {n : Nat} (hn : (ofGrammar g).itemSets[n]? = none) :
        (ofGrammar g).goto n x = none := by
      apply Option.eq_none_iff_forall_ne_some.2
      intro j hj
      obtain ⟨I, hI, -⟩ := goto_eq_some_iff.1 hj
      cases hn.symm.trans hI
    rw [hnone hI, hnone hπi, Option.map_none]
  | some I =>
    obtain ⟨γ, hγ⟩ := exists_follow_of_itemSets hI
    have hstep := h.follow_eq_map hπ (γ ++ [x])
    rw [follow_concat, follow_concat, h.follow_eq_map hπ γ, hγ] at hstep
    exact hstep

theorem size_eq (h : g.Reorders g' σ) : (ofGrammar g').size = (ofGrammar g).size := by
  have hlength := h.perm_itemSets.length_eq
  rw [List.length_map, itemSets, itemSets, List.length_map, List.length_map] at hlength
  exact hlength.symm

end Grammar.Reorders

end SimpleLR
