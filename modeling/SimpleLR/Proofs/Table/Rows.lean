import SimpleLR.Proofs.Table.Cells
import SimpleLR.Table.Text

namespace SimpleLR

open Text

variable {g : Grammar} {i j n : Nat} {x : Symbol} {cell : String}

def Cells.Solid (cell : String) : Prop :=
  ∀ c ∈ cell.toList, isBlank c = false

instance : DecidablePred Cells.Solid :=
  fun cell => List.decidableBAll (isBlank · = false) cell.toList

namespace Cells.Solid

theorem plain (h : Solid cell) : Plain cell := by
  apply And.intro (trim_of_not_blank h)
  intro hmem
  cases h '\n' hmem

theorem empty : Solid "" := by
  intro c hc
  cases hc

theorem toList_toString (n : Nat) : (toString n).toList = Nat.toDigits 10 n :=
  Nat.toList_repr

theorem toString (n : Nat) : Solid (toString n) := by
  intro c hc
  rw [toList_toString] at hc
  exact not_isBlank_of_isDigit (Nat.isDigit_of_mem_toDigits (by decide) (by decide) hc)

theorem append {cell' : String} (h : Solid cell) (h' : Solid cell') : Solid (cell ++ cell') := by
  intro c hc
  rw [String.toList_append] at hc
  rcases List.mem_append.1 hc with hc | hc
  · exact h c hc
  · exact h' c hc

theorem text (act : Action) : Solid act.text := by
  cases act with
  | shift i => exact append (by decide) (toString i)
  | reduce i => exact append (by decide) (toString i)
  | accept => decide

end Cells.Solid

theorem toString_ne_empty (n : Nat) : toString n ≠ "" := by
  intro h
  have hdigits := Cells.Solid.toList_toString n
  rw [h] at hdigits
  exact Nat.toDigits_ne_nil hdigits.symm

namespace Action

theorem text_ne_empty (act : Action) : act.text ≠ "" := by
  cases act with
  | shift i => simp [text]
  | reduce i => simp [text]
  | accept => decide

theorem ofText?_text {act : Action} (h : act.number < numeralBound) :
    ofText? act.text.toList = some act := by
  cases act with
  | shift i =>
    have hi : readNat (toString i).toList = some i := readNat_toString h
    have htext : (shift i).text.toList = 's' :: (toString i).toList := String.toList_append
    simp only [ofText?, htext, hi]
    rfl
  | reduce i =>
    have hi : readNat (toString i).toList = some i := readNat_toString h
    have htext : (reduce i).text.toList = 'r' :: (toString i).toList := String.toList_append
    simp only [ofText?, htext, hi]
    rfl
  | accept => rfl

end Action

section

variable {α β : Type} [Ord α] [Std.TransOrd α] {m m' : Std.ExtTreeMap α β}
  {P : α → Prop} {a : α} {b : β}

theorem getElem?_insert_iff [Std.LawfulEqOrd α] (h : ∀ k c, m'[k]? = some c ↔ P k ∧ m[k]? = some c)
    (ha : m[a]? = some b) (k : α) (c : β) :
    (m'.insert a b)[k]? = some c ↔ (P k ∨ k = a) ∧ m[k]? = some c := by
  rw [Std.ExtTreeMap.getElem?_insert]
  by_cases hk : k = a
  · subst hk
    rw [if_pos Std.ReflCmp.compare_self, ha]
    simp
  · rw [if_neg fun he => hk (Std.LawfulEqOrd.eq_of_compare he).symm, h, or_iff_left hk]

theorem getElem?_skip_iff (h : ∀ k c, m'[k]? = some c ↔ P k ∧ m[k]? = some c)
    (ha : m[a]? = none) (k : α) (c : β) :
    m'[k]? = some c ↔ (P k ∨ k = a) ∧ m[k]? = some c := by
  rw [h]
  by_cases hk : k = a
  · subst hk
    rw [ha]
    simp
  · rw [or_iff_left hk]

end

namespace Row

variable {r r' : Row} {done : List Symbol}

/-- The entries are for columns of the grammar, and their numbers fit in a machine word. -/
structure Fits (g : Grammar) (r : Row) : Prop where
  actions : ∀ x act, r.actions[x]? = some act →
    x ∈ g.columns ∧ x.isNonterminal = false ∧ act.number < numeralBound
  gotos : ∀ a j, r.gotos[a]? = some j → .nonterminal a ∈ g.columns ∧ j < numeralBound

structure Agrees (r : Row) (done : List Symbol) (r' : Row) : Prop where
  actions : ∀ x act, r'.actions[x]? = some act ↔ x ∈ done ∧ r.actions[x]? = some act
  gotos : ∀ a j, r'.gotos[a]? = some j ↔ .nonterminal a ∈ done ∧ r.gotos[a]? = some j

theorem cell_eq (h : x.isNonterminal = false) :
    r.cell x = (r.actions[x]?.map Action.text).getD "" := by
  cases x with
  | nonterminal => cases h
  | terminal | epsilon | endMarker => rfl

theorem readCell_text {act : Action} (h : x.isNonterminal = false)
    (hact : act.number < numeralBound) :
    readCell i r x act.text = .ok { r with actions := r.actions.insert x act } := by
  cases x with
  | nonterminal => cases h
  | terminal | epsilon | endMarker =>
    simp only [readCell, if_neg act.text_ne_empty, Action.ofText?_text hact]

theorem readCell_empty : readCell i r x "" = .ok r :=
  if_pos rfl

theorem readCell_number {a : String} (h : j < numeralBound) :
    readCell i r (.nonterminal a) (toString j) =
      .ok { r with gotos := r.gotos.insert a j } := by
  simp only [readCell, if_neg (toString_ne_empty j), readNat_toString h]

theorem cell_nonterminal (r : Row) (a : String) :
    r.cell (.nonterminal a) = (r.gotos[a]?.map toString).getD "" :=
  rfl

theorem solid_cell (r : Row) (x : Symbol) : Cells.Solid (r.cell x) := by
  cases hx : x.isNonterminal with
  | false =>
    rw [cell_eq hx]
    cases r.actions[x]? with
    | none => exact .empty
    | some act => exact .text act
  | true =>
    cases x with
    | nonterminal a =>
      rw [cell_nonterminal]
      cases r.gotos[a]? with
      | none => exact .empty
      | some j => exact .toString j
    | terminal | epsilon | endMarker => cases hx

namespace Agrees

theorem concat_iff (h : x.isNonterminal = false) (a : String) :
    .nonterminal a ∈ done ++ [x] ↔ .nonterminal a ∈ done := by
  rw [List.mem_append, List.mem_singleton]
  apply or_iff_left
  rintro rfl
  cases h

theorem readCell (h : Agrees r done r') (hr : r.Fits g) (i : Nat) (x : Symbol) :
    ∃ r'', Row.readCell i r' x (r.cell x) = .ok r'' ∧ Agrees r (done ++ [x]) r'' := by
  cases hx : x.isNonterminal with
  | false =>
    -- the cell of an action, which leaves the gotos as they are
    have hgotos : ∀ a j, r'.gotos[a]? = some j ↔
        .nonterminal a ∈ done ++ [x] ∧ r.gotos[a]? = some j := by
      intro a j
      rw [h.gotos, concat_iff hx]
    rw [cell_eq hx]
    cases hact : r.actions[x]? with
    | none =>
      refine ⟨r', readCell_empty, ?_, hgotos⟩
      intro y act
      rw [List.mem_append, List.mem_singleton]
      exact getElem?_skip_iff h.actions hact y act
    | some act =>
      refine ⟨_, readCell_text hx (hr.actions x act hact).2.2, ?_, hgotos⟩
      intro y act'
      rw [List.mem_append, List.mem_singleton]
      exact getElem?_insert_iff h.actions hact y act'
  | true =>
    -- a row that fits has no action here, so that the actions are done with
    have haction : r.actions[x]? = none := by
      apply Option.eq_none_iff_forall_ne_some.2
      intro act hact
      rw [(hr.actions x act hact).2.1] at hx
      cases hx
    have hactions : ∀ y act, r'.actions[y]? = some act ↔
        y ∈ done ++ [x] ∧ r.actions[y]? = some act := by
      intro y act
      rw [List.mem_append, List.mem_singleton]
      exact getElem?_skip_iff h.actions haction y act
    cases x with
    | nonterminal a =>
      rw [cell_nonterminal]
      have hmem (b : String) : .nonterminal b ∈ done ++ [Symbol.nonterminal a] ↔
          .nonterminal b ∈ done ∨ b = a := by simp
      cases hgoto : r.gotos[a]? with
      | none =>
        refine ⟨r', readCell_empty, hactions, ?_⟩
        intro b j
        rw [hmem]
        exact getElem?_skip_iff (P := fun b => .nonterminal b ∈ done) h.gotos hgoto b j
      | some j =>
        refine ⟨_, readCell_number (hr.gotos a j hgoto).2, hactions, ?_⟩
        intro b k
        rw [hmem]
        exact getElem?_insert_iff (P := fun b => .nonterminal b ∈ done) h.gotos hgoto b k
    | terminal | epsilon | endMarker => cases hx

theorem readCells (h : Agrees r done r') (hr : r.Fits g) (i : Nat) (xs : List Symbol) :
    ∃ r'', (xs.zip (xs.map r.cell)).foldlM (fun r (x, cell) => Row.readCell i r x cell) r' =
      .ok r'' ∧ Agrees r (done ++ xs) r'' := by
  induction xs generalizing done r' with
  | nil =>
    rw [List.append_nil]
    exact ⟨r', rfl, h⟩
  | cons x xs ih =>
    obtain ⟨r₁, hr₁, h₁⟩ := h.readCell hr i x
    obtain ⟨r₂, hr₂, h₂⟩ := ih h₁
    rw [List.append_assoc, List.singleton_append] at h₂
    refine ⟨r₂, ?_, h₂⟩
    simp only [List.map_cons, List.zip_cons_cons, List.foldlM_cons, hr₁]
    exact hr₂

theorem eq (h : Agrees r g.columns r') (hr : r.Fits g) : r' = r := by
  obtain ⟨actions, gotos⟩ := r
  obtain ⟨actions', gotos'⟩ := r'
  congr 1
  · apply Std.ExtTreeMap.ext_getElem?
    intro x
    apply Option.ext
    intro act
    rw [h.actions]
    exact and_iff_right_of_imp fun hact => (hr.actions x act hact).1
  · apply Std.ExtTreeMap.ext_getElem?
    intro a
    apply Option.ext
    intro j
    rw [h.gotos]
    exact and_iff_right_of_imp fun hgoto => (hr.gotos a j hgoto).1

end Agrees

def cells (g : Grammar) (r : Row) (i : Nat) : List String :=
  toString i :: g.columns.map r.cell

theorem solid_of_mem_cells (hc : cell ∈ r.cells g i) : Cells.Solid cell := by
  rcases List.mem_cons.1 hc with rfl | hc
  · exact .toString i
  · obtain ⟨x, -, rfl⟩ := List.mem_map.1 hc
    exact r.solid_cell x

theorem read_write (hr : r.Fits g) (hi : i < numeralBound) :
    read g (Cells.write (r.cells g i)) i = .ok r := by
  have hplain : ∀ cell ∈ r.cells g i, Cells.Plain cell :=
    fun _ hc => (solid_of_mem_cells hc).plain
  have hnone : Agrees r [] ⟨∅, ∅⟩ := ⟨by simp, by simp⟩
  obtain ⟨r', hread, hagrees⟩ := hnone.readCells hr i g.columns
  unfold read
  rw [Cells.read_write_of_plain hplain, cells]
  simp only [List.length_map, ne_eq, not_true_eq_false, if_false, readNat_toString hi, hread]
  rw [hagrees.eq hr]

end Row
end SimpleLR
