import SimpleLR.Follow.Closed

namespace SimpleLR.Follow

variable {g : Grammar} {first F G : Family} {R : Reading} {a : String} {rhs : List Symbol}

theorem spread_induction {P : Family → Prop} (hadd : ∀ F b s, P F → P (F.add b s)) (hF : P F) :
    P (spread first a rhs F) := by
  induction rhs generalizing F with
  | nil => exact hF
  | cons y rhs ih =>
    cases y with
    | nonterminal b => exact ih (hadd F b _ hF)
    | terminal => exact ih hF
    | epsilon => exact ih hF
    | endMarker => exact ih hF

theorem foldl_spread_induction {P : Family → Prop} (hadd : ∀ F b s, P F → P (F.add b s))
    (ps : List Production) (hF : P F) :
    P (ps.foldl (fun F p => spread first p.lhs p.rhs F) F) := by
  induction ps generalizing F with
  | nil => exact hF
  | cons p ps ih => exact ih (spread_induction hadd hF)

theorem saturateFrom_induction {P : Family → Prop} (hadd : ∀ F b s, P F → P (F.add b s))
    (hF : P F) : P (saturateFrom g first F) :=
  saturate_induction (fun _ => foldl_spread_induction hadd g.productions) hF

theorem le_add_of_le (h : F ≤ G) (b : String) (s : SymbolSet) : F ≤ G.add b s :=
  Family.le_trans h (G.le_add b s)

theorem le_spread (first : Family) (a : String) (rhs : List Symbol) (F : Family) :
    F ≤ spread first a rhs F :=
  spread_induction (P := (F ≤ ·)) (fun _ b s h => le_add_of_le h b s) F.le_refl

theorem le_foldl_spread (ps : List Production) :
    F ≤ ps.foldl (fun F p => spread first p.lhs p.rhs F) F :=
  foldl_spread_induction (P := (F ≤ ·)) (fun _ b s h => le_add_of_le h b s) ps F.le_refl

theorem le_step (g : Grammar) (first F : Family) : F ≤ step g first F :=
  le_foldl_spread g.productions

theorem le_saturateFrom (g : Grammar) (first F : Family) : F ≤ saturateFrom g first F :=
  saturateFrom_induction (P := (F ≤ ·)) (fun _ b s h => le_add_of_le h b s) F.le_refl

theorem mem_lookup_initial {x : Symbol} :
    x ∈ (initial g).lookup a ↔ x = .endMarker ∧ (a = g.augmentedStart ∨ a = g.start) := by
  rw [initial, Family.mem_lookup_add, Family.mem_lookup_add, SymbolSet.mem_singleton,
    or_iff_right Family.not_mem_lookup_ofNames, ← or_and_right, and_comm, eq_comm (a := a),
    eq_comm (a := a)]

theorem mem_spread {α β : List Symbol} {b : String} (h : rhs = α ++ .nonterminal b :: β)
    (first : Family) (a : String) (F : Family) :
    (∀ x ∈ First.ofSequence first β, x ≠ .epsilon → x ∈ (spread first a rhs F).lookup b) ∧
      (.epsilon ∈ First.ofSequence first β →
        ∀ x ∈ F.lookup a, x ∈ (spread first a rhs F).lookup b) := by
  subst h
  induction α generalizing F with
  | nil =>
    rw [List.nil_append, spread]
    constructor
    · intro x hx hne
      apply le_spread
      apply Family.mem_lookup_add.2
      exact .inr ⟨rfl, Std.ExtTreeSet.mem_union_iff.2 (.inl (SymbolSet.mem_erase.2 ⟨hne, hx⟩))⟩
    · intro hε x hx
      apply le_spread
      apply Family.mem_lookup_add.2
      rw [if_pos hε]
      exact .inr ⟨rfl, Std.ExtTreeSet.mem_union_iff.2 (.inr hx)⟩
  | cons y α ih =>
    cases y with
    | nonterminal c =>
      rw [List.cons_append, spread]
      obtain ⟨hfirst, hinherit⟩ := ih (F.add c _)
      exact ⟨hfirst, fun hε x hx => hinherit hε x (Family.le_add _ _ _ a x hx)⟩
    | terminal => exact ih F
    | epsilon => exact ih F
    | endMarker => exact ih F

theorem Obeys.of_mem_spread (h : Obeys first R a rhs) (hF : ∀ b x, F.reading b x → R b x) :
    ∀ b x, (spread first a rhs F).reading b x → R b x := by
  induction rhs generalizing F with
  | nil => exact hF
  | cons y rhs ih =>
    have htail : Obeys first R a rhs := by
      intro α b β he
      exact h (y :: α) b β (by rw [he, List.cons_append])
    cases y with
    | nonterminal c =>
      obtain ⟨hfirst, hinherit⟩ := h [] c rhs rfl
      apply ih htail
      intro b x hx
      rcases Family.mem_lookup_add.1 hx with hF' | ⟨rfl, hs⟩
      · exact hF b x hF'
      · rcases Std.ExtTreeSet.mem_union_iff.1 hs with hs | hs
        · obtain ⟨hne, hs⟩ := SymbolSet.mem_erase.1 hs
          exact hfirst x hs hne
        · split at hs
          · exact hinherit ‹_› x (hF a x hs)
          · exact absurd hs Std.ExtTreeSet.not_mem_empty
    | terminal => exact ih htail hF
    | epsilon => exact ih htail hF
    | endMarker => exact ih htail hF

theorem mem_step {p : Production} (hp : p ∈ g.productions) {α β : List Symbol} {b : String}
    (h : p.rhs = α ++ .nonterminal b :: β) (first F : Family) :
    (∀ x ∈ First.ofSequence first β, x ≠ .epsilon → x ∈ (step g first F).lookup b) ∧
      (.epsilon ∈ First.ofSequence first β →
        ∀ x ∈ F.lookup p.lhs, x ∈ (step g first F).lookup b) := by
  obtain ⟨ps, ps', he⟩ := List.append_of_mem hp
  have hbefore : F ≤ ps.foldl (fun F p => spread first p.lhs p.rhs F) F := le_foldl_spread ps
  have hafter (G : Family) : G ≤ ps'.foldl (fun F p => spread first p.lhs p.rhs F) G :=
    le_foldl_spread ps'
  obtain ⟨hfirst, hinherit⟩ :=
    mem_spread h first p.lhs (ps.foldl (fun F p => spread first p.lhs p.rhs F) F)
  rw [step, he, List.foldl_append, List.foldl_cons]
  constructor
  · intro x hx hne
    exact hafter _ b x (hfirst x hx hne)
  · intro hε x hx
    exact hafter _ b x (hinherit hε x (hbefore p.lhs x hx))

theorem of_mem_step (hR : ∀ p ∈ g.productions, Obeys first R p.lhs p.rhs)
    (hF : ∀ b x, F.reading b x → R b x) : ∀ b x, (step g first F).reading b x → R b x := by
  have h (ps : List Production) (hps : ps ⊆ g.productions) :
      ∀ F : Family, (∀ b x, F.reading b x → R b x) →
        ∀ b x, (ps.foldl (fun F p => spread first p.lhs p.rhs F) F).reading b x → R b x := by
    induction ps with
    | nil => exact fun _ => id
    | cons p ps ih =>
      obtain ⟨hp, hps⟩ := List.cons_subset.1 hps
      exact fun F hF => ih hps _ ((hR p hp).of_mem_spread hF)
  exact h _ (List.Subset.refl _) F hF

theorem settled_iff_closed : Settled g first F ↔ Closed g first F := by
  constructor
  · intro h p hp α b β he
    obtain ⟨hfirst, hinherit⟩ := mem_step hp he first F
    exact ⟨fun x hx hne => h b x (hfirst x hx hne), fun hε x hx => h b x (hinherit hε x hx)⟩
  · intro h
    exact of_mem_step (R := F.reading) h fun _ _ hx => hx

theorem closed_saturateFrom (g : Grammar) (first F : Family) :
    Closed g first (saturateFrom g first F) :=
  settled_iff_closed.1 (settled_saturate F)

theorem of_mem_saturateFrom (hR : ∀ p ∈ g.productions, Obeys first R p.lhs p.rhs)
    (hF : ∀ b x, F.reading b x → R b x) :
    ∀ b x, (saturateFrom g first F).reading b x → R b x :=
  saturate_induction (P := fun F : Family => ∀ b x, F.reading b x → R b x)
    (fun _ => of_mem_step hR) hF

end SimpleLR.Follow
