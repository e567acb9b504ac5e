import Mathlib.Data.List.Basic
import SimpleLR.Proofs.Renaming

namespace SimpleLR

variable {ρ : String → String} {π : Equiv.Perm String}

theorem Production.rename_congr {ρ' : String → String} {p : Production} (hlhs : ρ p.lhs = ρ' p.lhs)
    (hrhs : ∀ x ∈ p.rhs, x.rename ρ = x.rename ρ') : p.rename ρ = p.rename ρ' := by
  rw [rename, hlhs, List.map_congr_left hrhs, rename]

namespace Vocabulary

variable {v v' : Vocabulary}

theorem rename_symbol_congr {ρ' : String → String} (h : ∀ a ∈ v.names, ρ a = ρ' a) {x : Symbol}
    (hx : x ∈ v.symbols) : x.rename ρ = x.rename ρ' := by
  have hname := h _ (name_mem_names hx)
  cases x with
  | terminal a => exact congrArg Symbol.terminal hname
  | nonterminal a => exact congrArg Symbol.nonterminal hname
  | epsilon => rfl
  | endMarker => rfl

theorem symbols_eq_map (ht : v'.terminals.names = v.terminals.names.map ρ)
    (hn : v'.nonterminals.names = v.nonterminals.names.map ρ) :
    v'.symbols = v.symbols.map (Symbol.rename ρ) := by
  rw [symbols, symbols, ht, hn, List.map_append, List.map_map, List.map_map, List.map_map,
    List.map_map]
  rfl

end Vocabulary

namespace Grammar

/-- The second grammar is the first one with the names that `π` gives it. -/
structure Renames (g g' : Grammar) (π : Equiv.Perm String) : Prop where
  productions : g'.productions = g.productions.map (Production.rename π)
  terminals : g'.terminals.names = g.terminals.names.map π
  nonterminals : g'.nonterminals.names = g.nonterminals.names.map π

namespace Renames

variable {g g' : Grammar} {α β : List Symbol} {x : Symbol} {a : String}

theorem symm (h : g.Renames g' π) : g'.Renames g π.symm where
  productions := by
    have hid : Production.rename π.symm ∘ Production.rename π = id :=
      funext (Production.rename_symm π.symm)
    rw [h.productions, List.map_map, hid, List.map_id]
  terminals := by rw [h.terminals, List.map_map, Equiv.symm_comp_self, List.map_id]
  nonterminals := by rw [h.nonterminals, List.map_map, Equiv.symm_comp_self, List.map_id]

theorem augmentedStart_eq (h : g.Renames g' π) : g'.augmentedStart = π g.augmentedStart :=
  congrArg Production.lhs (List.cons.inj h.productions).1

theorem heads_eq (h : g.Renames g' π) : g'.heads = g.heads.map π := by
  rw [heads, heads, h.augmentedStart_eq, h.nonterminals, List.map_cons]

theorem mem_heads_iff (h : g.Renames g' π) : π a ∈ g'.heads ↔ a ∈ g.heads := by
  rw [h.heads_eq, List.mem_map_of_injective π.injective]

theorem symbols_eq (h : g.Renames g' π) : g'.symbols = g.symbols.map (Symbol.rename π) :=
  Vocabulary.symbols_eq_map h.terminals h.nonterminals

theorem derives (h : g.Renames g' π) (hd : g.Derives α β) :
    g'.Derives (α.map (Symbol.rename π)) (β.map (Symbol.rename π)) := by
  induction hd with
  | refl => exact .refl
  | tail _ hs ih =>
    cases hs with
    | @intro p hp γ δ =>
      have hp' : p.rename π ∈ g'.productions := by
        rw [h.productions]
        exact List.mem_map_of_mem hp
      refine ih.tail ?_
      rw [List.map_append, List.map_append, List.map_append]
      exact .intro hp' _ _

theorem canBegin (h : g.Renames g' π) (hx : g.CanBegin α x) :
    g'.CanBegin (α.map (Symbol.rename π)) (x.rename π) := by
  cases x with
  | terminal a =>
    obtain ⟨β, hd⟩ := hx
    exact ⟨_, h.derives hd⟩
  | epsilon => exact h.derives hx
  | nonterminal => exact hx
  | endMarker => exact hx

theorem canFollow (h : g.Renames g' π) (hx : g.CanFollow a x) :
    g'.CanFollow (π a) (x.rename π) := by
  cases x with
  | terminal b =>
    obtain ⟨c, hc, α, β, hd⟩ := hx
    have hd := h.derives hd
    rw [List.map_append] at hd
    exact ⟨π c, h.mem_heads_iff.2 hc, _, _, hd⟩
  | endMarker =>
    obtain ⟨α, hd⟩ := hx
    have hd := h.derives hd
    rw [List.map_append] at hd
    refine ⟨α.map (Symbol.rename π), ?_⟩
    rw [h.augmentedStart_eq]
    exact hd
  | nonterminal => exact hx
  | epsilon => exact hx

theorem first_eq (h : g.Renames g' π) : First.sets g' = (First.sets g).rename π := by
  apply Family.eq_rename
  · intro a
    rw [First.mem_sets_iff, First.mem_sets_iff, h.mem_heads_iff]
  · intro a x
    rw [First.mem_lookup_sets, First.mem_lookup_sets]
    constructor
    · intro hx
      have hback : g.CanBegin [.nonterminal (π.symm (π a))] ((x.rename π).rename π.symm) :=
        h.symm.canBegin hx
      rwa [Equiv.symm_apply_apply, Symbol.symm_rename] at hback
    · exact h.canBegin

theorem follow_eq (h : g.Renames g' π) :
    Follow.sets g' (First.sets g') = (Follow.sets g (First.sets g)).rename π := by
  apply Family.eq_rename
  · intro a
    rw [Follow.mem_sets_iff, Follow.mem_sets_iff, h.mem_heads_iff]
  · intro a x
    rw [Follow.mem_lookup_sets, Follow.mem_lookup_sets]
    constructor
    · intro hx
      have hback := h.symm.canFollow hx
      rwa [Equiv.symm_apply_apply, Symbol.symm_rename] at hback
    · exact h.canFollow

end Renames

section

variable {g : Grammar} {ρ' : String → String} {a : String} {x : Symbol}
  (h : ∀ a ∈ g.augmentedStart :: g.names, ρ a = ρ' a)

include h

theorem rename_heads_congr (ha : a ∈ g.heads) : ρ a = ρ' a := by
  apply h
  rcases List.mem_cons.1 ha with rfl | ha
  · exact List.mem_cons_self
  · exact List.mem_cons_of_mem _ (List.mem_append_right _ ha)

theorem rename_symbols_congr (hx : x ∈ g.symbols) : x.rename ρ = x.rename ρ' :=
  Vocabulary.rename_symbol_congr (List.forall_mem_cons.1 h).2 hx

theorem rename_productions_congr :
    g.productions.map (Production.rename ρ) = g.productions.map (Production.rename ρ') := by
  apply List.map_congr_left
  intro p hp
  exact Production.rename_congr (rename_heads_congr h (lhs_mem_heads hp)) fun x hx =>
    rename_symbols_congr h (mem_symbols_of_mem_rhs hp hx)

theorem rename_first_congr : (First.sets g).rename ρ = (First.sets g).rename ρ' := by
  apply Family.rename_congr
  · exact fun a ha => rename_heads_congr h (First.mem_sets_iff.1 ha)
  · intro a x hx
    rcases First.mem_symbols_of_mem_sets hx with rfl | hx
    · rfl
    · exact rename_symbols_congr h hx

theorem rename_mem_follow_congr (hx : x ∈ (Follow.sets g (First.sets g)).lookup a) :
    x.rename ρ = x.rename ρ' := by
  rcases Follow.mem_symbols_of_mem_sets hx with rfl | hx
  · rfl
  · exact rename_symbols_congr h hx

theorem rename_follow_congr :
    (Follow.sets g (First.sets g)).rename ρ = (Follow.sets g (First.sets g)).rename ρ' := by
  apply Family.rename_congr
  · exact fun a ha => rename_heads_congr h (Follow.mem_sets_iff.1 ha)
  · exact fun a x hx => rename_mem_follow_congr h hx

end

end Grammar

end SimpleLR
