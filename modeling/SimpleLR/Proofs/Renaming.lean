import Mathlib.Logic.Equiv.Basic
import SimpleLR.Proofs.Family
import SimpleLR.Lookup
import SimpleLR.Renaming

namespace SimpleLR

variable {ρ ρ' : String → String} {π : Equiv.Perm String} {x : Symbol} {a b c : String}
  {names : List String}

theorem exists_perm_cons (hπ : ∀ a ∈ names, π a = ρ a) (hb : b ∉ names)
    (hc : ∀ a ∈ names, ρ a ≠ c) : ∃ π' : Equiv.Perm String, π' b = c ∧ ∀ a ∈ names, π' a = ρ a := by
  refine ⟨π.trans (Equiv.swap (π b) c), Equiv.swap_apply_left _ _, ?_⟩
  intro a ha
  have hab : π a ≠ π b := π.injective.ne fun he => hb (he ▸ ha)
  have hac : π a ≠ c := by
    rw [hπ a ha]
    exact hc a ha
  rw [Equiv.trans_apply, Equiv.swap_apply_of_ne_of_ne hab hac, hπ a ha]

/-- What tells the names of a list apart does with them what some permutation does. -/
theorem exists_perm_eq_on (h : ∀ a ∈ names, ∀ b ∈ names, ρ a = ρ b → a = b) :
    ∃ π : Equiv.Perm String, ∀ a ∈ names, π a = ρ a := by
  induction names with
  | nil => exact ⟨Equiv.refl _, fun a ha => absurd ha List.not_mem_nil⟩
  | cons b names ih =>
    obtain ⟨π, hπ⟩ := ih fun a ha c hc =>
      h a (List.mem_cons_of_mem b ha) c (List.mem_cons_of_mem b hc)
    by_cases hb : b ∈ names
    · exact ⟨π, List.forall_mem_cons.2 ⟨hπ b hb, hπ⟩⟩
    · have hne : ∀ a ∈ names, ρ a ≠ ρ b := by
        intro a ha he
        obtain rfl := h a (List.mem_cons_of_mem b ha) b List.mem_cons_self he
        exact hb ha
      obtain ⟨π', hb', hπ'⟩ := exists_perm_cons hπ hb hne
      exact ⟨π', List.forall_mem_cons.2 ⟨hb', hπ'⟩⟩

namespace Symbol

theorem rename_symm (π : Equiv.Perm String) (x : Symbol) : (x.rename π.symm).rename π = x := by
  cases x <;> simp only [rename, Equiv.apply_symm_apply]

theorem symm_rename (π : Equiv.Perm String) (x : Symbol) : (x.rename π).rename π.symm = x :=
  rename_symm π.symm x

theorem rename_injective (π : Equiv.Perm String) : Function.Injective (rename π) :=
  Function.LeftInverse.injective (symm_rename π)

end Symbol

theorem Production.rename_symm (π : Equiv.Perm String) (p : Production) :
    (p.rename π.symm).rename π = p := by
  have hid : Symbol.rename π ∘ Symbol.rename π.symm = id := funext (Symbol.rename_symm π)
  rw [rename, rename, Equiv.apply_symm_apply, List.map_map, hid, List.map_id]

section

variable {α β : Type} [Ord α] [Std.TransOrd α] [Std.LawfulEqOrd α] {f f' : α → α}
  {m : Std.ExtTreeMap α β}

theorem getElem?_renameKeys (hf : Function.Injective f) (m : Std.ExtTreeMap α β) (k : α) :
    (renameKeys f m)[f k]? = m[k]? := by
  have hmem (l : α) (b : β) : (l, b) ∈ m.toList.map (fun e => (f e.1, e.2)) ↔
      ∃ k, m[k]? = some b ∧ f k = l := by
    simp only [List.mem_map, Prod.exists, Prod.mk.injEq, exists_eq_right_right,
      Std.ExtTreeMap.mem_toList_iff_getElem?_eq_some]
  apply Option.ext
  intro b
  rw [renameKeys, getElem?_ofList_eq_some_iff, hmem]
  · constructor
    · rintro ⟨k', hk', he⟩
      rwa [← hf he]
    · exact fun hk => ⟨k, hk, rfl⟩
  · intro l b b' hb hb'
    obtain ⟨k, hk, rfl⟩ := (hmem l b).1 hb
    obtain ⟨k', hk', he⟩ := (hmem _ b').1 hb'
    rw [hf he] at hk'
    exact Option.some.inj (hk.symm.trans hk')

theorem renameKeys_congr (h : ∀ k b, m[k]? = some b → f k = f' k) :
    renameKeys f m = renameKeys f' m := by
  rw [renameKeys, renameKeys]
  congr 1
  apply List.map_congr_left
  rintro ⟨k, b⟩ hk
  exact congrArg (·, b) (h k b (Std.ExtTreeMap.mem_toList_iff_getElem?_eq_some.1 hk))

end

namespace SymbolSet

variable {s : SymbolSet}

theorem mem_rename : x.rename π ∈ s.rename π ↔ x ∈ s := by
  simp only [rename, Std.ExtTreeSet.mem_ofList, List.contains_iff_mem, List.mem_map,
    Std.ExtTreeSet.mem_toList]
  constructor
  · rintro ⟨y, hy, he⟩
    rwa [← Symbol.rename_injective π he]
  · exact fun hx => ⟨x, hx, rfl⟩

theorem rename_congr (h : ∀ x ∈ s, x.rename ρ = x.rename ρ') : s.rename ρ = s.rename ρ' := by
  rw [rename, rename]
  congr 1
  exact List.map_congr_left fun x hx => h x (Std.ExtTreeSet.mem_toList.1 hx)

end SymbolSet

namespace Family

variable {F G : Family}

theorem get?_rename (F : Family) (π : Equiv.Perm String) (a : String) :
    (F.rename π).get? (π a) = (F.get? a).map (SymbolSet.rename π) := by
  rw [get?, rename, getElem?_renameKeys π.injective, Std.ExtTreeMap.getElem?_map, get?]

theorem mem_lookup_rename : x.rename π ∈ (F.rename π).lookup (π a) ↔ x ∈ F.lookup a := by
  rw [lookup_eq, get?_rename, lookup_eq]
  cases F.get? a with
  | none => simp only [Option.map_none, Option.getD_none, Std.ExtTreeSet.not_mem_empty]
  | some s => exact SymbolSet.mem_rename

theorem mem_iff_isSome_get? : a ∈ F ↔ (F.get? a).isSome :=
  Std.ExtTreeMap.mem_iff_isSome_getElem?

theorem mem_rename : π a ∈ F.rename π ↔ a ∈ F := by
  rw [mem_iff_isSome_get?, get?_rename, Option.isSome_map, mem_iff_isSome_get?]

theorem eq_rename (hmem : ∀ a, π a ∈ G ↔ a ∈ F)
    (hlookup : ∀ a x, x.rename π ∈ G.lookup (π a) ↔ x ∈ F.lookup a) : G = F.rename π := by
  apply ext_lookup
  · intro b
    obtain ⟨a, rfl⟩ := π.surjective b
    rw [hmem, mem_rename]
  · intro b y
    obtain ⟨a, rfl⟩ := π.surjective b
    rw [← Symbol.rename_symm π y, hlookup, mem_lookup_rename]

theorem rename_congr (hnames : ∀ a ∈ F, ρ a = ρ' a)
    (hsymbols : ∀ a, ∀ x ∈ F.lookup a, x.rename ρ = x.rename ρ') : F.rename ρ = F.rename ρ' := by
  have hsets : F.entries.map (fun _ s => s.rename ρ) = F.entries.map fun _ s => s.rename ρ' := by
    apply Std.ExtTreeMap.ext_getElem?
    intro a
    rw [Std.ExtTreeMap.getElem?_map, Std.ExtTreeMap.getElem?_map]
    apply Option.map_congr
    intro s hs
    apply SymbolSet.rename_congr
    intro x hx
    apply hsymbols a x
    rw [lookup_eq, get?, hs]
    exact hx
  have hkeys : ∀ a s, (F.entries.map fun _ s => s.rename ρ')[a]? = some s → ρ a = ρ' a := by
    intro a s hs
    rw [Std.ExtTreeMap.getElem?_map] at hs
    obtain ⟨t, ht, -⟩ := Option.map_eq_some_iff.1 hs
    exact hnames a (mem_of_get? ht)
  rw [rename, hsets, renameKeys_congr hkeys, rename]

end Family

namespace Automaton

variable {a : Automaton}

theorem itemSets_rename (a : Automaton) (ρ : String → String) :
    (a.rename ρ).itemSets = a.itemSets := by
  rw [itemSets, rename, List.map_map, itemSets]
  rfl

theorem goto_rename (a : Automaton) (π : Equiv.Perm String) (i : Nat) (x : Symbol) :
    (a.rename π).goto i (x.rename π) = a.goto i x := by
  rw [goto, rename, List.getElem?_map, goto]
  cases a.states[i]? with
  | none => rfl
  | some s => exact getElem?_renameKeys (Symbol.rename_injective π) s.edges x

theorem rename_congr (h : ∀ i x j, a.goto i x = some j → x.rename ρ = x.rename ρ') :
    a.rename ρ = a.rename ρ' := by
  rw [rename, rename]
  congr 1
  apply List.map_congr_left
  intro s hs
  obtain ⟨i, hi⟩ := List.mem_iff_getElem?.1 hs
  have hedges : renameKeys (Symbol.rename ρ) s.edges = renameKeys (Symbol.rename ρ') s.edges := by
    apply renameKeys_congr
    intro x j hj
    apply h i x j
    rw [goto, hi]
    exact hj
  rw [State.rename, hedges, State.rename]

end Automaton

namespace ParseTable

variable {t t' : ParseTable}

theorem size_rename (t : ParseTable) (ρ : String → String) : (t.rename ρ).size = t.size :=
  List.length_map _

theorem action?_rename (t : ParseTable) (π : Equiv.Perm String) (i : Nat) (x : Symbol) :
    (t.rename π).action? i (x.rename π) = t.action? i x := by
  rw [action?, rename, List.getElem?_map, action?]
  cases t.rows[i]? with
  | none => rfl
  | some r => exact getElem?_renameKeys (Symbol.rename_injective π) r.actions x

theorem goto?_rename (t : ParseTable) (π : Equiv.Perm String) (i : Nat) (a : String) :
    (t.rename π).goto? i (π a) = t.goto? i a := by
  rw [goto?, rename, List.getElem?_map, goto?]
  cases t.rows[i]? with
  | none => rfl
  | some r => exact getElem?_renameKeys π.injective r.gotos a

theorem ext_entries (hsize : t.size = t'.size) (haction : ∀ i x, t.action? i x = t'.action? i x)
    (hgoto : ∀ i a, t.goto? i a = t'.goto? i a) : t = t' := by
  cases t with
  | mk rows =>
  cases t' with
  | mk rows' =>
  congr 1
  apply List.ext_getElem hsize
  intro i hi hi'
  have hrow : rows[i].actions = rows'[i].actions ∧ rows[i].gotos = rows'[i].gotos := by
    constructor
    · apply Std.ExtTreeMap.ext_getElem?
      intro x
      simpa only [action?, List.getElem?_eq_getElem, hi, hi', Option.bind_some] using haction i x
    · apply Std.ExtTreeMap.ext_getElem?
      intro a
      simpa only [goto?, List.getElem?_eq_getElem, hi, hi', Option.bind_some] using hgoto i a
  cases h : rows[i]
  cases h' : rows'[i]
  rw [h, h'] at hrow
  obtain ⟨rfl, rfl⟩ := hrow
  rfl

theorem eq_rename (hsize : t'.size = t.size)
    (haction : ∀ i x, t'.action? i (x.rename π) = t.action? i x)
    (hgoto : ∀ i a, t'.goto? i (π a) = t.goto? i a) : t' = t.rename π := by
  apply ext_entries
  · rw [hsize, size_rename]
  · intro i y
    rw [← Symbol.rename_symm π y, haction, action?_rename]
  · intro i b
    obtain ⟨a, rfl⟩ := π.surjective b
    rw [hgoto, goto?_rename]

theorem rename_congr (haction : ∀ i x act, t.action? i x = some act → x.rename ρ = x.rename ρ')
    (hgoto : ∀ i a j, t.goto? i a = some j → ρ a = ρ' a) : t.rename ρ = t.rename ρ' := by
  rw [rename, rename]
  congr 1
  apply List.map_congr_left
  intro r hr
  obtain ⟨i, hi⟩ := List.mem_iff_getElem?.1 hr
  have hactions :
      renameKeys (Symbol.rename ρ) r.actions = renameKeys (Symbol.rename ρ') r.actions := by
    apply renameKeys_congr
    intro x act hact
    apply haction i x act
    rw [action?, hi]
    exact hact
  have hgotos : renameKeys ρ r.gotos = renameKeys ρ' r.gotos := by
    apply renameKeys_congr
    intro a j hj
    apply hgoto i a j
    rw [goto?, hi]
    exact hj
  rw [Row.rename, hactions, hgotos, Row.rename]

end ParseTable

end SimpleLR
