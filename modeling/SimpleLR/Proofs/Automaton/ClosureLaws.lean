import SimpleLR.Grammar.Load
import SimpleLR.Proofs.Automaton.Closure
import SimpleLR.Proofs.Saturation

namespace SimpleLR.ItemSet

variable {g : Grammar} {I J : ItemSet}

/-- With each item, the set has the items that begin a production for the nonterminal after its
dot. -/
def Closed (g : Grammar) (I : ItemSet) : Prop :=
  ∀ i ∈ I, ∀ n p, g.productions[n]? = some p → i.next? g = some (.nonterminal p.lhs) → ⟨n, 0⟩ ∈ I

theorem closed_iff : Closed g I ↔ ∀ i ∈ I, ∀ j ∈ i.expansion g, j ∈ I := by
  constructor
  · intro h i hi j hj
    obtain ⟨_, p, hnext, hp, rfl, hdot⟩ := Item.mem_expansion.1 hj
    have hmem := h i hi j.production p hp hnext
    rwa [← hdot] at hmem
  · intro h i hi n p hp hnext
    exact h i hi ⟨n, 0⟩ (Item.mem_expansion.2 ⟨p.lhs, p, hnext, hp, rfl, rfl⟩)

theorem closed_closure (g : Grammar) (I : ItemSet) : Closed g (closure g I) :=
  closed_iff.2 fun _ hi _ hj => mem_closure_of_mem_expansion hi hj

theorem Closed.mem_of_mem_closure (hJ : Closed g J) (h : ∀ i ∈ I, i ∈ J) :
    ∀ i ∈ closure g I, i ∈ J :=
  closure_induction h (closed_iff.1 hJ)

theorem mem_closure_mono (h : ∀ i ∈ I, i ∈ J) : ∀ i ∈ closure g I, i ∈ closure g J :=
  (closed_closure g J).mem_of_mem_closure fun i hi => mem_closure_of_mem (h i hi)

theorem Closed.union (hI : Closed g I) (hJ : Closed g J) : Closed g (I ∪ J) := by
  intro i hi n p hp hnext
  rcases Std.ExtTreeSet.mem_union_iff.1 hi with hi | hi
  · exact Std.ExtTreeSet.mem_union_of_left (hI i hi n p hp hnext)
  · exact Std.ExtTreeSet.mem_union_of_right (hJ i hi n p hp hnext)

theorem closure_union (g : Grammar) (I J : ItemSet) :
    closure g (I ∪ J) = closure g I ∪ closure g J := by
  apply Std.ExtTreeSet.ext_mem
  intro i
  constructor
  · have hclosed := (closed_closure g I).union (closed_closure g J)
    apply hclosed.mem_of_mem_closure
    intro j hj
    rcases Std.ExtTreeSet.mem_union_iff.1 hj with hj | hj
    · exact Std.ExtTreeSet.mem_union_of_left (mem_closure_of_mem hj)
    · exact Std.ExtTreeSet.mem_union_of_right (mem_closure_of_mem hj)
  · intro hi
    rcases Std.ExtTreeSet.mem_union_iff.1 hi with hi | hi
    · exact mem_closure_mono (fun _ => Std.ExtTreeSet.mem_union_of_left) i hi
    · exact mem_closure_mono (fun _ => Std.ExtTreeSet.mem_union_of_right) i hi

theorem advance_union (g : Grammar) (I J : ItemSet) (x : Symbol) :
    advance g (I ∪ J) x = advance g I x ∪ advance g J x := by
  apply Std.ExtTreeSet.ext_mem
  intro i
  simp only [mem_advance, Std.ExtTreeSet.mem_union_iff, or_and_right, exists_or]

theorem goto_union (g : Grammar) (I J : ItemSet) (x : Symbol) :
    goto g (I ∪ J) x = goto g I x ∪ goto g J x := by
  rw [goto, advance_union, closure_union, goto, goto]

/-- Closing a set takes finitely many rounds and gives the least closed set that holds it. To close
the union of two sets or to move over a symbol from it, it is enough to do so from each. A move
leads nowhere exactly if no item has the symbol after its dot. -/
theorem closure_least_and_additive (g : Grammar) (I J : ItemSet) (x : Symbol) :
    (∃ n, SettlesAfter (expand g) (fun K => expand g K = K) n I ∧
        (expand g)^[n] I = closure g I) ∧
      ((∀ i ∈ I, i ∈ closure g I) ∧ Closed g (closure g I) ∧
        ∀ K, (∀ i ∈ I, i ∈ K) → Closed g K → ∀ i ∈ closure g I, i ∈ K) ∧
      closure g (I ∪ J) = closure g I ∪ closure g J ∧
      goto g (I ∪ J) x = goto g I x ∪ goto g J x ∧
      (goto g I x = ∅ ↔ ∀ i ∈ I, i.next? g ≠ some x) := by
  have hleast : ∀ K, (∀ i ∈ I, i ∈ K) → Closed g K → ∀ i ∈ closure g I, i ∈ K :=
    fun K h hK => hK.mem_of_mem_closure h
  exact ⟨exists_iterate_eq_saturate _ I,
    ⟨fun _ => mem_closure_of_mem, closed_closure g I, hleast⟩,
    closure_union g I J, goto_union g I J x, goto_eq_empty_iff⟩

/-- `S` and `T` begin with each other. There is no production 9, and production 1 is too short for
a dot at 7. -/
theorem closure_with_foreign_items :
    let I : ItemSet := {⟨0, 0⟩, ⟨9, 9⟩}
    let J : ItemSet := {⟨1, 1⟩, ⟨1, 7⟩}
    ∃ g, Grammar.load ["S -> S T", "S -> a", "T -> S", "T -> ε"] ["a"] ["S", "T"] "S" = .ok g ∧
      closure g I = {⟨0, 0⟩, ⟨1, 0⟩, ⟨2, 0⟩, ⟨9, 9⟩} ∧
      closure g (I ∪ J) =
        {⟨0, 0⟩, ⟨1, 0⟩, ⟨1, 1⟩, ⟨1, 7⟩, ⟨2, 0⟩, ⟨3, 0⟩, ⟨4, 0⟩, ⟨9, 9⟩} ∧
      (∀ i ∈ closure g I, i ∈ closure g I ∪ closure g J) ∧
      goto g I (.nonterminal "T") = ∅ ∧
      goto g (I ∪ J) (.nonterminal "T") = goto g I (.nonterminal "T") ∪ {⟨1, 2⟩} := by
  intro I J
  obtain ⟨g, hg, hclosure⟩ := exists_ok_of_any
    (r := Grammar.load ["S -> S T", "S -> a", "T -> S", "T -> ε"] ["a"] ["S", "T"] "S")
    (p := fun g => closure g I = {⟨0, 0⟩, ⟨1, 0⟩, ⟨2, 0⟩, ⟨9, 9⟩} ∧
      closure g (I ∪ J) =
        {⟨0, 0⟩, ⟨1, 0⟩, ⟨1, 1⟩, ⟨1, 7⟩, ⟨2, 0⟩, ⟨3, 0⟩, ⟨4, 0⟩, ⟨9, 9⟩} ∧
      (∀ i ∈ I.toList, i.next? g ≠ some (.nonterminal "T")) ∧
      goto g J (.nonterminal "T") = {⟨1, 2⟩}) (by decide +kernel)
  obtain ⟨hI, hIJ, hnext, hJ⟩ := of_decide_eq_true hclosure
  obtain ⟨-, ⟨-, -, hleast⟩, hunion, hgoto, hempty⟩ :=
    closure_least_and_additive g I J (.nonterminal "T")
  obtain ⟨-, ⟨hextends, hclosed, -⟩, -⟩ :=
    closure_least_and_additive g (I ∪ J) J (.nonterminal "T")
  have hIle : ∀ i ∈ I, i ∈ closure g (I ∪ J) :=
    fun i hi => hextends i (Std.ExtTreeSet.mem_union_of_left hi)
  have hsub := hleast _ hIle hclosed
  rw [hunion] at hsub
  rw [hJ] at hgoto
  exact ⟨g, hg, hI, hIJ, hsub, hempty.2 fun i hi => hnext i (Std.ExtTreeSet.mem_toList.2 hi),
    hgoto⟩

end SimpleLR.ItemSet
