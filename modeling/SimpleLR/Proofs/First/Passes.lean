import SimpleLR.Proofs.First.Exactness
import SimpleLR.Proofs.Saturation

namespace SimpleLR.First

variable {g : Grammar} {K : Family}

/-- The set of each nonterminal is the union of FIRST of its alternatives. -/
def Solves (g : Grammar) (K : Family) : Prop :=
  ∀ a ∈ g.heads, ∀ x, x ∈ K.lookup a ↔ ∃ α ∈ g.alternatives a, x ∈ ofSequence K α

theorem grounded_empty (g : Grammar) : Grounded g (∅ : Family).reading := by
  intro a x hx
  rw [Family.reading, Family.lookup_empty] at hx
  exact absurd hx Std.ExtTreeSet.not_mem_empty

theorem grounded_iterate (g : Grammar) (n : Nat) : Grounded g ((step g)^[n] ∅).reading :=
  Function.Iterate.rec (fun K : Family => Grounded g K.reading) (grounded_empty g)
    (fun _ => Grounded.step) n

theorem produces_iff {a : String} {x : Symbol} :
    Produces g K.reading a x ↔ ∃ α ∈ g.alternatives a, x ∈ ofSequence K α := by
  simp only [Produces, mem_ofSequence]

theorem Grounded.le_pass (hK : Grounded g K.reading) : K ≤ pass g K :=
  fun a x hx => hK.pass_bounds.1 a x (hK a x hx)

theorem Closed.settled (hK : Closed g K.reading) : Settled g K := by
  intro a x hx
  rcases Family.mem_lookup_merge.1 hx with hx | hx
  · exact hx
  · exact hK.of_mem_pass (fun _ _ => id) a x hx

theorem Solves.closed (h : Solves g K) : Closed g K.reading := by
  intro a x hx
  exact (h a (mem_heads_of_produces hx) x).2 (produces_iff.1 hx)

theorem Grounded.solves_iff_closed (hK : Grounded g K.reading) :
    Solves g K ↔ Closed g K.reading := by
  constructor
  · exact Solves.closed
  · intro h a _ x
    rw [← produces_iff]
    exact ⟨hK a x, h a x⟩

theorem Grounded.settled_iff_solves (hK : Grounded g K.reading) : Settled g K ↔ Solves g K := by
  rw [hK.solves_iff_closed]
  exact ⟨hK.closed, Closed.settled⟩

/-- However many passes have gone before, the next one finds all that is known by then, it adds
nothing exactly if the equations of FIRST hold already, and some later pass adds nothing. -/
theorem passes_grow_until_solved (g : Grammar) (n : Nat) :
    let K := (step g)^[n] ∅
    K ≤ pass g K ∧ K ≤ step g K ∧ (Settled g K ↔ Solves g K) ∧
      ∃ m, Settled g ((step g)^[m] K) := by
  intro K
  have hK : Grounded g K.reading := grounded_iterate g n
  obtain ⟨m, hm, -⟩ := exists_iterate_eq_saturate
    (fun K h => (extends_step g K).room_lt h) K
  exact ⟨hK.le_pass, K.le_merge (pass g K), hK.settled_iff_solves, m, hm.1⟩

/-- That `B` can begin with `a`, through `A`, is found by the second pass and not by the first. -/
theorem passes_through_cycle :
    ∃ g, Grammar.load ["A -> B a", "B -> A b", "B -> ε"] ["a", "b"] ["A", "B"] "A" = .ok g ∧
      (∀ n, (step g)^[n] ∅ ≤ pass g ((step g)^[n] ∅)) ∧
      ¬ Solves g ((step g)^[1] ∅) ∧ .terminal "a" ∉ ((step g)^[1] ∅).lookup "B" ∧
      Solves g ((step g)^[2] ∅) ∧ .terminal "a" ∈ ((step g)^[2] ∅).lookup "B" := by
  obtain ⟨g, hg, hpasses⟩ := exists_ok_of_any
    (r := Grammar.load ["A -> B a", "B -> A b", "B -> ε"] ["a", "b"] ["A", "B"] "A")
    (p := fun g => ¬ Settled g ((step g)^[1] ∅) ∧ .terminal "a" ∉ ((step g)^[1] ∅).lookup "B" ∧
      Settled g ((step g)^[2] ∅) ∧ .terminal "a" ∈ ((step g)^[2] ∅).lookup "B")
    (by decide +kernel)
  obtain ⟨hunsettled, hbefore, hsettled, hafter⟩ := of_decide_eq_true hpasses
  have hgrow (n : Nat) := (passes_grow_until_solved g n).1
  have hone := (passes_grow_until_solved g 1).2.2.1
  have htwo := (passes_grow_until_solved g 2).2.2.1
  exact ⟨g, hg, hgrow, fun h => hunsettled (hone.2 h), hbefore, htwo.1 hsettled, hafter⟩

end SimpleLR.First
