import SimpleLR.First

namespace SimpleLR

namespace Follow

/-- Adds to the set of each nonterminal of a sequence FIRST of what comes after it, and the set of
`a`, the nonterminal whose production ends with the sequence, if that can become empty. -/
def spread (first : Family) (a : String) : List Symbol → Family → Family
  | [], F => F
  | .nonterminal b :: α, F =>
    let s := First.ofSequence first α
    let inherited := if .epsilon ∈ s then F.lookup a else ∅
    spread first a α (F.add b (s.erase .epsilon ∪ inherited))
  | _ :: α, F => spread first a α F

def step (g : Grammar) (first F : Family) : Family :=
  g.productions.foldl (fun F p => spread first p.lhs p.rhs F) F

def Settled (g : Grammar) (first F : Family) : Prop :=
  step g first F ≤ F

instance (g : Grammar) (first : Family) : DecidablePred (Settled g first) :=
  fun F => inferInstanceAs (Decidable (step g first F ≤ F))

def initial (g : Grammar) : Family :=
  ((Family.ofNames g.heads).add g.augmentedStart {.endMarker}).add g.start {.endMarker}

def base (g : Grammar) (first : Family) : SymbolSet :=
  .ofList (.endMarker :: .epsilon :: g.symbols) ∪ first.symbols

section

variable {g : Grammar} {first F G : Family}

theorem mem_base {x : Symbol} :
    x ∈ base g first ↔ x = .endMarker ∨ x = .epsilon ∨ x ∈ g.symbols ∨ x ∈ first.symbols := by
  simp [base, or_assoc]

theorem mem_base_of_mem_ofSequence {α : List Symbol} (hα : ∀ x ∈ α, x ∈ g.symbols) {x : Symbol}
    (hx : x ∈ First.ofSequence first α) : x ∈ base g first := by
  induction α with
  | nil =>
    obtain rfl : .epsilon = x := by simpa [First.ofSequence] using hx
    simp [mem_base]
  | cons y α ih =>
    have hy {x : Symbol} (hx : x ∈ First.ofSymbol first y) : x ∈ base g first := by
      unfold First.ofSymbol at hx
      split at hx
      · exact mem_base.2 (.inr (.inr (.inr (Family.mem_symbols.2 ⟨_, hx⟩))))
      · obtain rfl : y = x := by simpa using hx
        exact mem_base.2 (.inr (.inr (.inl (hα y List.mem_cons_self))))
    rw [First.ofSequence] at hx
    split at hx
    · rcases Std.ExtTreeSet.mem_union_iff.1 hx with hx | hx
      · exact hy (Std.ExtTreeSet.mem_of_mem_erase hx)
      · exact ih (fun z hz => hα z (List.mem_cons_of_mem y hz)) hx
    · exact hy hx

theorem extends_spread {a : String} {α : List Symbol} (hα : ∀ x ∈ α, x ∈ g.symbols)
    (h : Family.Extends g.heads (base g first) F G) :
    Family.Extends g.heads (base g first) F (spread first a α G) := by
  induction α generalizing G with
  | nil => exact h
  | cons y α ih =>
    have hα' := fun x hx => hα x (List.mem_cons_of_mem y hx)
    cases y with
    | nonterminal b =>
      have hb : b ∈ g.heads := List.mem_cons_of_mem _
        (Vocabulary.nonterminal_mem_symbols.1 (hα _ List.mem_cons_self))
      refine ih hα' (h.add hb fun x hx => ?_)
      rcases Std.ExtTreeSet.mem_union_iff.1 hx with hx | hx
      · exact Std.ExtTreeSet.mem_union_iff.2
          (.inl (mem_base_of_mem_ofSequence hα' (Std.ExtTreeSet.mem_of_mem_erase hx)))
      · split at hx
        · exact h.mem hx
        · simp at hx
    | terminal => exact ih hα' h
    | epsilon => exact ih hα' h
    | endMarker => exact ih hα' h

theorem extends_step (g : Grammar) (first F : Family) :
    Family.Extends g.heads (base g first) F (step g first F) := by
  have h (ps : List Production) (hps : ps ⊆ g.productions) :
      ∀ G, Family.Extends g.heads (base g first) F G →
        Family.Extends g.heads (base g first) F
          (ps.foldl (fun F p => spread first p.lhs p.rhs F) G) := by
    induction ps with
    | nil => exact fun _ => id
    | cons p ps ih =>
      obtain ⟨hp, hps⟩ := List.cons_subset.1 hps
      exact fun G h => ih hps _ (extends_spread (fun _ => Grammar.mem_symbols_of_mem_rhs hp) h)
  exact h _ (List.Subset.refl _) F .refl

end

def saturateFrom (g : Grammar) (first F : Family) : Family :=
  saturate (step g first) (Settled g first) (Family.room g.heads (base g first))
    (fun F h => (extends_step g first F).room_lt h) F

def sets (g : Grammar) (first : Family) : Family :=
  saturateFrom g first (initial g)

end Follow

end SimpleLR
