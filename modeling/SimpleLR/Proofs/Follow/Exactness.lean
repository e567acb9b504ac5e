import SimpleLR.Proofs.First.Exactness
import SimpleLR.Proofs.Follow.Steps

namespace SimpleLR.Follow

variable {g : Grammar} {R : Reading}

theorem obeys_of_derives {first : Family} (hfirst : First.Closed g first.reading)
    (hR : ∀ p ∈ g.productions, Obeys first R p.lhs p.rhs) {c : String} {γ : List Symbol}
    (h : g.Derives [.nonterminal c] γ) : Obeys first R c γ := by
  induction h with
  | refl =>
    intro α b β he
    obtain ⟨rfl, rfl⟩ : c = b ∧ β = [] := by
      cases α with
      | nil => simpa using he
      | cons => simp at he
    exact ⟨fun x hx hne => absurd (SymbolSet.mem_singleton.1 hx) hne, fun _ _ hx => hx⟩
  | @tail γ δ _ hs ih =>
    rintro α b β rfl
    rcases hs.of_mem with ⟨α', rfl⟩ | ⟨β', rfl, hs'⟩ | ⟨p, hp, ζ, η, θ, ι, rfl, hrhs, rfl⟩
    · exact ih α' b β rfl
    · -- what `β` can begin with, `β'` can begin with
      have hback {x : Symbol} (hx : x ∈ First.ofSequence first β) :
          x ∈ First.ofSequence first β' := by
        rw [First.mem_ofSequence] at hx ⊢
        exact hfirst.of_rewrites hs' hx
      obtain ⟨ihfirst, ihinherit⟩ := ih α b β' rfl
      exact ⟨fun x hx => ihfirst x (hback hx), fun hε => ihinherit (hback hε)⟩
    · -- `b` is in the right-hand side of `p`, with `ι` after it there and `η` after that
      obtain ⟨ihfirst, ihinherit⟩ := ih ζ p.lhs η rfl
      obtain ⟨hpfirst, hpinherit⟩ := hR p hp θ b ι hrhs
      simp only [First.mem_ofSequence, First.sequenceHas_append] at *
      constructor
      · rintro x (⟨_, hx⟩ | ⟨hε, hx⟩) hne
        · exact hpfirst x hx hne
        · exact hpinherit hε x (ihfirst x hx hne)
      · rintro (⟨hne, _⟩ | ⟨hι, hη⟩) x hx
        · exact absurd rfl hne
        · exact hpinherit hι x (ihinherit hη x hx)

theorem obeys_canFollow {p : Production} (hp : p ∈ g.productions) :
    Obeys (First.sets g) g.CanFollow p.lhs p.rhs := by
  intro α b β he
  have hd := Grammar.derives_rhs hp
  rw [he] at hd
  have hβ : ∀ y ∈ β, y.isTerminal ∨ y.isNonterminal := by
    intro y hy
    apply Grammar.isTerminal_or_isNonterminal_of_mem_rhs hp
    rw [he]
    exact List.mem_append_right _ (List.mem_cons_of_mem _ hy)
  constructor
  · intro x hx hne
    rw [First.mem_ofSequence_sets hβ] at hx
    cases x with
    | terminal t =>
      obtain ⟨γ, hγ⟩ := hx
      exact ⟨p.lhs, Grammar.lhs_mem_heads hp, α, γ,
        hd.trans ((hγ.append_left [.nonterminal b]).append_left α)⟩
    | epsilon => exact absurd rfl hne
    | nonterminal => exact hx.elim
    | endMarker => exact hx.elim
  · intro hε x hx
    rw [First.mem_ofSequence_sets hβ] at hε
    apply hx.of_derives
    exact hd.trans ((Grammar.Derives.append_left hε [.nonterminal b]).append_left α)

theorem canFollow_of_mem_initial {a : String} {x : Symbol} (hx : (initial g).reading a x) :
    g.CanFollow a x := by
  rcases mem_lookup_initial.1 hx with ⟨rfl, rfl | rfl⟩
  · exact ⟨[], .refl⟩
  · exact ⟨[], Grammar.derives_rhs (p := g.startProduction) List.mem_cons_self⟩

theorem endMarker_mem_sets (g : Grammar) (first : Family) :
    .endMarker ∈ (sets g first).lookup g.augmentedStart := by
  apply le_saturateFrom
  exact mem_lookup_initial.2 ⟨rfl, .inl rfl⟩

theorem mem_lookup_sets {a : String} {x : Symbol} :
    x ∈ (sets g (First.sets g)).lookup a ↔ g.CanFollow a x := by
  constructor
  · exact of_mem_saturateFrom (fun _ => obeys_canFollow) (fun _ _ => canFollow_of_mem_initial) a x
  · intro hx
    have hobeys {c : String} {γ : List Symbol} (h : g.Derives [.nonterminal c] γ) :
        Obeys (First.sets g) (sets g (First.sets g)).reading c γ :=
      obeys_of_derives (First.closed_sets g) (closed_iff.1 (closed_saturateFrom _ _ _)) h
    cases x with
    | terminal t =>
      obtain ⟨c, -, α, β, hd⟩ := hx
      apply (hobeys hd α a _ rfl).1
      · exact First.mem_ofSequence.2 (.inl ⟨by simp, rfl⟩)
      · simp
    | endMarker =>
      obtain ⟨α, hd⟩ := hx
      apply (hobeys hd α a [] rfl).2
      · exact SymbolSet.mem_singleton.2 rfl
      · exact endMarker_mem_sets g _
    | nonterminal => exact hx.elim
    | epsilon => exact hx.elim

theorem mem_sets {a : String} (h : a ∈ g.heads) (first : Family) : a ∈ sets g first := by
  apply saturateFrom_induction (P := (a ∈ ·))
  · intro F b s hF
    exact Family.mem_add.2 (.inr hF)
  · exact Family.mem_add.2 (.inr (Family.mem_add.2 (.inr (Family.mem_ofNames.2 h))))

theorem canFollow_terminal_of_reachable
    (hreach : ∀ c ∈ g.heads, ∃ α β,
      g.Derives [.nonterminal g.augmentedStart] (α ++ .nonterminal c :: β)) {a b : String} :
    g.CanFollow a (.terminal b) ↔ ∃ α β,
      g.Derives [.nonterminal g.augmentedStart] (α ++ .nonterminal a :: .terminal b :: β) := by
  constructor
  · intro h
    obtain ⟨c, hc, α, β, hd⟩ := h
    obtain ⟨γ, δ, hγ⟩ := hreach c hc
    have hd := hγ.replace hd
    simp only [List.append_assoc, List.cons_append] at hd
    rw [← List.append_assoc] at hd
    exact ⟨γ ++ α, β ++ δ, hd⟩
  · intro h
    obtain ⟨α, β, hd⟩ := h
    exact ⟨g.augmentedStart, List.mem_cons_self, α, β, hd⟩

/-- The set of a nonterminal holds what can follow it. Where the augmented start derives each
nonterminal in some context, these are the terminals next to it in what the augmented start
derives, and the end marker. -/
theorem mem_iff_canFollow {a : String} (h : a ∈ g.heads) :
    ∃ s, (sets g (First.sets g)).get? a = some s ∧ (∀ x, x ∈ s ↔ g.CanFollow a x) ∧
      ((∀ c ∈ g.heads, ∃ α β,
          g.Derives [.nonterminal g.augmentedStart] (α ++ .nonterminal c :: β)) →
        ∀ b, .terminal b ∈ s ↔ ∃ α β,
          g.Derives [.nonterminal g.augmentedStart]
            (α ++ .nonterminal a :: .terminal b :: β)) := by
  have hget := Family.get?_of_mem (mem_sets h (First.sets g))
  have hreachable (hreach : ∀ c ∈ g.heads, ∃ α β,
      g.Derives [.nonterminal g.augmentedStart] (α ++ .nonterminal c :: β)) (b : String) :
      .terminal b ∈ (sets g (First.sets g)).lookup a ↔ ∃ α β,
        g.Derives [.nonterminal g.augmentedStart] (α ++ .nonterminal a :: .terminal b :: β) := by
    rw [mem_lookup_sets]
    exact canFollow_terminal_of_reachable hreach
  exact ⟨_, hget, fun _ => mem_lookup_sets, hreachable⟩

/-- `U` is not to be reached from the start, and yet brings `b` after `A`. -/
theorem canFollow_from_unreachable :
    ∃ g, Grammar.load ["S -> A N", "A -> a", "N -> ε", "N -> c", "U -> A N b"] ["a", "b", "c"]
        ["S", "A", "N", "U"] "S" = .ok g ∧ "A" ∈ g.heads ∧
      g.CanFollow "A" (.terminal "b") ∧ g.CanFollow "A" (.terminal "c") ∧
      g.CanFollow "A" .endMarker ∧ ¬ g.CanFollow "A" (.terminal "a") := by
  obtain ⟨g, hg, hfollow⟩ := exists_ok_of_any
    (r := Grammar.load ["S -> A N", "A -> a", "N -> ε", "N -> c", "U -> A N b"] ["a", "b", "c"]
      ["S", "A", "N", "U"] "S")
    (p := fun g => "A" ∈ g.heads ∧ ((sets g (First.sets g)).get? "A").all fun s =>
      Symbol.terminal "b" ∈ s ∧ Symbol.terminal "c" ∈ s ∧ Symbol.endMarker ∈ s ∧
        Symbol.terminal "a" ∉ s)
    (by decide +kernel)
  obtain ⟨ha, hs⟩ := of_decide_eq_true hfollow
  obtain ⟨s, hget, hmem, -⟩ := mem_iff_canFollow ha
  rw [hget, Option.all_some, decide_eq_true_eq, hmem, hmem, hmem, hmem] at hs
  exact ⟨g, hg, ha, hs⟩

end SimpleLR.Follow
