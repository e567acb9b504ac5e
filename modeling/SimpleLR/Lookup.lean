import Std.Data.ExtTreeMap

namespace SimpleLR

theorem pairwise_zipIdx {α : Type} (l : List α) : l.zipIdx.Pairwise fun a b => a.2 < b.2 := by
  apply List.pairwise_map.1
  rw [List.zipIdx_map_snd]
  exact List.pairwise_lt_range'

theorem getElem?_mono {α : Type} {l l' : List α} (h : l <+: l') {a : α} {i : Nat}
    (ha : l[i]? = some a) : l'[i]? = some a := by
  obtain ⟨hi, rfl⟩ := List.getElem?_eq_some_iff.1 ha
  exact List.prefix_iff_getElem?.1 h i hi

theorem getElem?_of_mono {α : Type} {l l' : List α} (h : l <+: l') {a : α} {i : Nat}
    (hi : i < l.length) (ha : l'[i]? = some a) : l[i]? = some a := by
  rw [List.prefix_iff_getElem?.1 h i hi] at ha
  rw [List.getElem?_eq_getElem hi, ha]

variable {α β : Type} [Ord α] [Std.TransOrd α]

theorem isSome_getElem?_insertMany {l : List (α × β)} {m : Std.ExtTreeMap α β} {a : α} {b : β}
    (h : (a, b) ∈ l ∨ m[a]?.isSome) : (m.insertMany l)[a]?.isSome := by
  induction l generalizing m with
  | nil =>
    rw [Std.ExtTreeMap.insertMany_nil]
    exact h.resolve_left List.not_mem_nil
  | cons c l ih =>
    rw [Std.ExtTreeMap.insertMany_cons]
    apply ih
    rcases h with hl | hm
    · rcases List.mem_cons.1 hl with rfl | hl'
      · right
        rw [Std.ExtTreeMap.getElem?_insert_self]
        rfl
      · exact .inl hl'
    · right
      rw [Std.ExtTreeMap.getElem?_insert]
      split
      · rfl
      · exact hm

section

variable {l : List α} {m : Std.ExtTreeMap α Nat}

theorem nodup_of_positions (h : ∀ (a : α) (i : Nat), m[a]? = some i ↔ l[i]? = some a) : l.Nodup := by
  apply List.pairwise_iff_getElem.2
  intro i j hi hj hlt he
  have hi' := (h l[j] i).2 (List.getElem?_eq_some_iff.2 ⟨hi, he⟩)
  have hj' := (h l[j] j).2 (List.getElem?_eq_getElem hj)
  exact Nat.ne_of_lt hlt (Option.some.inj (hi'.symm.trans hj'))

variable [Std.LawfulEqOrd α]

/-- A new element that goes to the end has the number of the others for its position. -/
theorem positions_concat (h : ∀ (a : α) (i : Nat), m[a]? = some i ↔ l[i]? = some a) {a : α}
    (ha : a ∉ l) (b : α) (i : Nat) :
    (m.insert a l.length)[b]? = some i ↔ (l ++ [a])[i]? = some b := by
  rw [Std.ExtTreeMap.getElem?_insert]
  split
  · rename_i hab
    obtain rfl := Std.LawfulEqOrd.eq_of_compare hab
    have hold : l[i]? ≠ some a := fun he => ha (List.mem_of_getElem? he)
    grind
  · rename_i hab
    have hne : b ≠ a := by
      rintro rfl
      exact hab Std.ReflOrd.compare_self
    rw [h, List.getElem?_append]
    grind

end

variable [Std.LawfulEqOrd α]

theorem getElem?_insertMany_eq_some {l : List (α × β)} {m : Std.ExtTreeMap α β}
    {a : α} {b : β} (h : (m.insertMany l)[a]? = some b) : (a, b) ∈ l ∨ m[a]? = some b := by
  induction l generalizing m with
  | nil =>
    rw [Std.ExtTreeMap.insertMany_nil] at h
    exact .inr h
  | cons c l ih =>
    rw [Std.ExtTreeMap.insertMany_cons] at h
    rcases ih h with hl | hm
    · exact .inl (List.mem_cons_of_mem _ hl)
    · rw [Std.ExtTreeMap.getElem?_insert] at hm
      split at hm
      · rename_i hc
        obtain rfl := Std.LawfulEqOrd.eq_of_compare hc
        obtain rfl := Option.some.inj hm
        exact .inl List.mem_cons_self
      · exact .inr hm

/-- A list in which no key has two values is looked up by membership. -/
theorem getElem?_ofList_eq_some_iff {l : List (α × β)}
    (h : ∀ a b b', (a, b) ∈ l → (a, b') ∈ l → b = b') {a : α} {b : β} :
    (Std.ExtTreeMap.ofList l)[a]? = some b ↔ (a, b) ∈ l := by
  rw [Std.ExtTreeMap.ofList_eq_insertMany_empty]
  have hmem {c : β} (hc : ((∅ : Std.ExtTreeMap α β).insertMany l)[a]? = some c) : (a, c) ∈ l := by
    rcases getElem?_insertMany_eq_some hc with hl | hm
    · exact hl
    · simp at hm
  constructor
  · exact hmem
  · intro hb
    obtain ⟨c, hc⟩ := Option.isSome_iff_exists.1 (isSome_getElem?_insertMany (m := ∅) (.inl hb))
    rw [hc, h a b c hb (hmem hc)]

theorem getElem?_ofList_filterMap {ks : List α} {f : α → Option β} {a : α} {b : β} :
    (Std.ExtTreeMap.ofList (ks.filterMap fun k => (f k).map (k, ·)))[a]? = some b ↔
      a ∈ ks ∧ f a = some b := by
  have hmem {a : α} {b : β} :
      (a, b) ∈ (ks.filterMap fun k => (f k).map (k, ·)) ↔ a ∈ ks ∧ f a = some b := by
    simp only [List.mem_filterMap, Option.map_eq_some_iff, Prod.mk.injEq]
    constructor
    · intro h
      obtain ⟨k, hk, c, hc, rfl, rfl⟩ := h
      exact ⟨hk, hc⟩
    · intro h
      obtain ⟨hk, hb⟩ := h
      exact ⟨a, hk, b, hb, rfl, rfl⟩
  rw [getElem?_ofList_eq_some_iff]
  · exact hmem
  · intro a b b' hb hb'
    have hb := (hmem.1 hb).2
    have hb' := (hmem.1 hb').2
    exact Option.some.inj (hb.symm.trans hb')

end SimpleLR
