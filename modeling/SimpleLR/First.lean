import SimpleLR.First.Visit

namespace SimpleLR

namespace First

def base (g : Grammar) : SymbolSet :=
  .ofList (.epsilon :: g.symbols)

section

variable {g : Grammar} {K : Family}

theorem mem_base {x : Symbol} : x ∈ base g ↔ x = .epsilon ∨ x ∈ g.symbols := by
  simp [base]

def Bounded (g : Grammar) (K done : Family) : Prop :=
  ∀ a, ∀ x ∈ done.lookup a, a ∈ g.heads ∧ x ∈ base g ∪ K.symbols

theorem mem_of_sequenceHas {s : SymbolSet} (hs : ∀ x ∈ base g, x ∈ s) {α : List Symbol}
    (hα : ∀ x ∈ α, x ∈ g.symbols) {x : Symbol} (hx : SequenceHas (fun _ x => x ∈ s) α x) :
    x ∈ s := by
  induction α with
  | nil => exact hs x (mem_base.2 (.inl hx))
  | cons y α ih =>
    rcases hx with ⟨_, hx⟩ | ⟨_, hx⟩
    · cases y with
      | nonterminal a => exact hx
      | terminal a => exact hs x (mem_base.2 (.inr (by rw [hx]; exact hα _ List.mem_cons_self)))
      | epsilon => exact hs x (mem_base.2 (.inl hx))
      | endMarker => exact absurd (hα _ List.mem_cons_self) Vocabulary.endMarker_not_mem_symbols
    · exact ih (fun z hz => hα z (List.mem_cons_of_mem y hz)) hx

theorem bounds_bounded (g : Grammar) (K : Family) :
    Bounds g K (Bounded g K) (fun _ _ => False) (fun _ _ x => x ∈ base g ∪ K.symbols) where
  mono _ _ _ hx := hx
  produced _ _ hx := hx.elim
  known_lower _ _ hx := hx.elim
  known_upper _ a x hx := Std.ExtTreeSet.mem_union_iff.2 (.inr (Family.mem_symbols.2 ⟨a, hx⟩))
  done_lower _ _ _ hx := hx.elim
  done_upper h hs x hx := (h _ x (by rwa [Family.lookup_eq, hs])).2
  add {F a s} h ha _ hs := by
    have hsub : ∀ x ∈ s, x ∈ base g ∪ K.symbols := by
      intro x hx
      obtain ⟨α, hα, hx⟩ := hs x hx
      exact mem_of_sequenceHas (fun x hx => Std.ExtTreeSet.mem_union_iff.2 (.inl hx))
        (fun y hy => Grammar.mem_symbols_of_mem_rhs (Grammar.mem_alternatives.1 hα) hy) hx
    refine ⟨fun b x hx => ?_, hsub⟩
    rcases Family.mem_lookup_add.1 hx with hF | ⟨rfl, hs⟩
    · exact h b x hF
    · exact ⟨ha, hsub x hs⟩

theorem bounded_pass (g : Grammar) (K : Family) : Bounded g K (pass g K) :=
  (bounds_bounded g K).pass fun a x hx => by simp at hx

theorem extends_step (g : Grammar) (K : Family) :
    Family.Extends g.heads (base g) K (step g K) where
  le := K.le_merge _
  bound a x hx := (Family.mem_lookup_merge.1 hx).imp id (bounded_pass g K a x)

end

def saturateFrom (g : Grammar) (K : Family) : Family :=
  saturate (step g) (Settled g) (Family.room g.heads (base g))
    (fun K h => (extends_step g K).room_lt h) K

def sets (g : Grammar) : Family :=
  saturateFrom g (.ofNames g.heads)

end First

end SimpleLR
