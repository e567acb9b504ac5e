import SimpleLR.Grammar.Load
import SimpleLR.Proofs.First.Equations

namespace SimpleLR.First

variable {g : Grammar}

theorem grounded_ofNames (names : List String) : Grounded g (Family.ofNames names).reading :=
  fun _ _ hx => absurd hx Family.not_mem_lookup_ofNames

theorem grounded_sets (g : Grammar) : Grounded g (sets g).reading :=
  saturate_induction (P := fun K : Family => Grounded g K.reading) (fun _ => Grounded.step)
    (grounded_ofNames g.heads)

theorem Grounded.closed {K : Family} (hK : Grounded g K.reading) (hs : Settled g K) :
    Closed g K.reading := by
  intro a x hx
  exact hs a x (hK.produces_le_step hx)

theorem closed_sets (g : Grammar) : Closed g (sets g).reading :=
  (grounded_sets g).closed (settled_saturate _)

theorem Closed.of_mem_sets {R : Reading} (hR : Closed g R) {a : String} {x : Symbol}
    (hx : (sets g).reading a x) : R a x := by
  have hstep (K : Family) (hK : ∀ a x, K.reading a x → R a x) :
      ∀ a x, (step g K).reading a x → R a x := by
    intro a x hx
    rcases Family.mem_lookup_merge.1 hx with hx | hx
    · exact hK a x hx
    · exact hR.of_mem_pass hK a x hx
  have hinit : ∀ a x, (Family.ofNames g.heads).reading a x → R a x :=
    fun a x hx => absurd hx Family.not_mem_lookup_ofNames
  exact saturate_induction (P := fun K : Family => ∀ a x, K.reading a x → R a x) hstep hinit a x hx

/-- FIRST of a sequence has all that derivations ask for, whatever symbols are in it. -/
theorem mem_ofSequence_of_canBegin {α : List Symbol} {x : Symbol} (hx : g.CanBegin α x) :
    x ∈ ofSequence (sets g) α :=
  mem_ofSequence.2 ((closed_sets g).of_canBegin hx)

theorem mem_ofSequence_sets {α : List Symbol} (hα : ∀ y ∈ α, y.isTerminal ∨ y.isNonterminal)
    {x : Symbol} : x ∈ ofSequence (sets g) α ↔ g.CanBegin α x := by
  constructor
  · intro hx
    apply canBegin_of_sequenceHas hα
    exact (mem_ofSequence.1 hx).mono fun a y => (closed_canBegin g).of_mem_sets
  · exact mem_ofSequence_of_canBegin

theorem mem_sets {a : String} (h : a ∈ g.heads) : a ∈ sets g :=
  saturate_induction (P := (a ∈ ·)) (fun K hK => Family.mem_merge_of_mem hK (pass g K))
    (Family.mem_ofNames.2 h)

theorem mem_lookup_sets {a : String} {x : Symbol} :
    x ∈ (sets g).lookup a ↔ g.CanBegin [.nonterminal a] x := by
  constructor
  · exact (closed_canBegin g).of_mem_sets
  · intro hx
    rcases (closed_sets g).of_canBegin hx with ⟨_, hx⟩ | ⟨hε, hx⟩
    · exact hx
    · obtain rfl : x = .epsilon := hx
      exact hε

/-- FIRST of a sequence of terminals and nonterminals is what the sequence can begin with, and the
set of each nonterminal is FIRST of it. -/
theorem mem_iff_canBegin (g : Grammar) :
    (∀ α, (∀ y ∈ α, y.isTerminal ∨ y.isNonterminal) →
        ∀ x, x ∈ ofSequence (sets g) α ↔ g.CanBegin α x) ∧
      ∀ a ∈ g.heads, ∃ s, (sets g).get? a = some s ∧
        ∀ x, x ∈ s ↔ g.CanBegin [.nonterminal a] x := by
  constructor
  · intro α hα x
    exact mem_ofSequence_sets hα
  · intro a ha
    exact ⟨_, Family.get?_of_mem (mem_sets ha), fun _ => mem_lookup_sets⟩

/-- `S` is left recursive behind `N`, which can be empty and begins with `S` itself. -/
theorem canBegin_behind_nullable :
    ∃ g, Grammar.load ["S -> N S a", "S -> b", "N -> ε", "N -> S N"] ["a", "b"] ["S", "N"] "S" =
        .ok g ∧
      g.CanBegin [.nonterminal "N", .nonterminal "S"] (.terminal "b") ∧
      ¬ g.CanBegin [.nonterminal "N", .nonterminal "S"] (.terminal "a") ∧
      ¬ g.CanBegin [.nonterminal "N", .nonterminal "S"] .epsilon := by
  let α : List Symbol := [.nonterminal "N", .nonterminal "S"]
  obtain ⟨g, hg, hfirst⟩ := exists_ok_of_any
    (r := Grammar.load ["S -> N S a", "S -> b", "N -> ε", "N -> S N"] ["a", "b"] ["S", "N"] "S")
    (p := fun g => .terminal "b" ∈ ofSequence (sets g) α ∧
      .terminal "a" ∉ ofSequence (sets g) α ∧ .epsilon ∉ ofSequence (sets g) α) (by decide +kernel)
  have h := (mem_iff_canBegin g).1 α (by simp [α, Symbol.isNonterminal])
  rw [decide_eq_true_eq, h, h, h] at hfirst
  exact ⟨g, hg, hfirst⟩

end SimpleLR.First
