import SimpleLR.Item

namespace SimpleLR

variable {g : Grammar}

theorem Item.mem_symbols_of_next? {i : Item} {x : Symbol} (h : i.next? g = some x) :
    x ∈ g.symbols := by
  obtain ⟨p, hp, hx⟩ := Option.bind_eq_some_iff.1 h
  exact Grammar.mem_symbols_of_mem_rhs (List.mem_of_getElem? hp) (List.mem_of_getElem? hx)

namespace ItemSet

variable {I : ItemSet} {i j : Item} {x : Symbol}

theorem exists_mem_of_ne_empty (h : I ≠ ∅) : ∃ i, i ∈ I := by
  apply Classical.byContradiction
  intro hnone
  apply h
  exact Std.ExtTreeSet.eq_empty_iff_forall_not_mem.2 fun i hi => hnone ⟨i, hi⟩

theorem mem_closure_of_mem (h : i ∈ I) : i ∈ closure g I :=
  saturate_induction (P := (i ∈ ·)) (fun _ hi => mem_expand.2 (.inl hi)) h

theorem mem_closure_of_mem_expansion (hi : i ∈ closure g I) (hj : j ∈ i.expansion g) :
    j ∈ closure g I := by
  have h : expand g (closure g I) = closure g I :=
    @settled_saturate _ _ (fun I => expand g I = I) _ _ _ I
  rw [← h]
  exact mem_expand.2 (.inr ⟨i, hi, hj⟩)

theorem start_mem_closure (g : Grammar) : ⟨0, 0⟩ ∈ closure g {⟨0, 0⟩} :=
  mem_closure_of_mem (by simp)

theorem closure_induction {P : Item → Prop} (h : ∀ i ∈ I, P i)
    (hexpansion : ∀ i, P i → ∀ j ∈ i.expansion g, P j) : ∀ i ∈ closure g I, P i := by
  apply saturate_induction (P := fun I : ItemSet => ∀ i ∈ I, P i) _ h
  intro J hJ j hj
  rcases mem_expand.1 hj with hj' | ⟨i, hi, hj'⟩
  · exact hJ j hj'
  · exact hexpansion i (hJ i hi) j hj'

theorem mem_of_mem_closure (hi : i ∈ closure g I) (hdot : i.dot ≠ 0) : i ∈ I := by
  revert i
  apply closure_induction (P := fun i => i.dot ≠ 0 → i ∈ I)
  · intro i hi _
    exact hi
  · intro i _ j hj hdot
    obtain ⟨_, _, _, _, _, hzero⟩ := Item.mem_expansion.1 hj
    exact absurd hzero hdot

theorem dot_eq_zero_of_mem_closure_start (hi : i ∈ closure g {⟨0, 0⟩}) : i.dot = 0 := by
  apply Decidable.by_contra
  intro hdot
  obtain rfl : ⟨0, 0⟩ = i := by simpa using mem_of_mem_closure hi hdot
  exact hdot rfl

theorem closure_empty : closure g ∅ = ∅ := by
  apply Std.ExtTreeSet.eq_empty_iff_forall_not_mem.2
  apply closure_induction (P := fun _ => False)
  · exact fun i hi => Std.ExtTreeSet.not_mem_empty hi
  · exact fun _ h => h.elim

theorem advance_mem_goto (hi : i ∈ I) (hx : i.next? g = some x) : i.advance ∈ goto g I x :=
  mem_closure_of_mem (mem_advance.2 ⟨i, hi, hx, rfl⟩)

theorem goto_eq_empty_iff : goto g I x = ∅ ↔ ∀ i ∈ I, i.next? g ≠ some x := by
  constructor
  · intro h i hi hx
    have hmem := advance_mem_goto hi hx
    rw [h] at hmem
    exact Std.ExtTreeSet.not_mem_empty hmem
  · intro h
    have hempty : advance g I x = ∅ := by
      apply Std.ExtTreeSet.eq_empty_iff_forall_not_mem.2
      intro j hj
      obtain ⟨i, hi, hx, -⟩ := mem_advance.1 hj
      exact h i hi hx
    rw [goto, hempty, closure_empty]

theorem goto_eq_empty_of_not_mem_symbols (h : x ∉ g.symbols) : goto g I x = ∅ :=
  goto_eq_empty_iff.2 fun _ _ hx => h (Item.mem_symbols_of_next? hx)

end ItemSet

end SimpleLR
