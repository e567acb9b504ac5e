import SimpleLR.Proofs.Follow.Exactness

namespace SimpleLR

namespace Family

variable {F G : Family} {a : String}

theorem ext_lookup (hmem : ∀ a, a ∈ F ↔ a ∈ G)
    (hlookup : ∀ a x, x ∈ F.lookup a ↔ x ∈ G.lookup a) : F = G := by
  have hget (a : String) : F.get? a = G.get? a := by
    by_cases ha : a ∈ F
    · rw [get?_of_mem ha, get?_of_mem ((hmem a).1 ha), Std.ExtTreeSet.ext_mem (hlookup a)]
    · have hF : F.get? a = none :=
        Option.eq_none_iff_forall_ne_some.2 fun _ hs => ha (mem_of_get? hs)
      have hG : G.get? a = none :=
        Option.eq_none_iff_forall_ne_some.2 fun _ hs => ha ((hmem a).2 (mem_of_get? hs))
      rw [hF, hG]
  cases F
  cases G
  exact congrArg mk (Std.ExtTreeMap.ext_getElem? hget)

theorem mem_of_mem_merge (h : a ∈ F.merge G) : a ∈ F ∨ a ∈ G := by
  have hfold (l : List (String × SymbolSet)) : ∀ F : Family,
      a ∈ l.foldl (fun F e => F.add e.1 e.2) F → a ∈ F ∨ ∃ s, (a, s) ∈ l := by
    induction l with
    | nil => exact fun _ => .inl
    | cons e l ih =>
      intro F h
      rcases ih _ h with h | ⟨s, hs⟩
      · rcases mem_add.1 h with rfl | h
        · exact .inr ⟨e.2, List.mem_cons_self⟩
        · exact .inl h
      · exact .inr ⟨s, List.mem_cons_of_mem e hs⟩
  rcases hfold _ F h with h | ⟨s, hs⟩
  · exact .inl h
  · exact .inr (mem_of_get? (Std.ExtTreeMap.mem_toList_iff_getElem?_eq_some.1 hs))

end Family

variable {g : Grammar} {a : String} {x : Symbol}

namespace First

theorem bounds_heads (g : Grammar) (K : Family) :
    Bounds g K (fun F => ∀ a ∈ F, a ∈ g.heads) (fun _ _ => False) (fun _ _ _ => True) where
  mono _ _ _ := id
  produced _ _ h := h.elim
  known_lower _ _ h := h.elim
  known_upper _ _ _ _ := trivial
  done_lower _ _ _ h := h.elim
  done_upper _ _ _ _ := trivial
  add h ha _ _ := by
    refine ⟨?_, fun _ _ => trivial⟩
    intro b hb
    rcases Family.mem_add.1 hb with rfl | hb
    · exact ha
    · exact h b hb

theorem mem_sets_iff : a ∈ sets g ↔ a ∈ g.heads := by
  refine ⟨?_, mem_sets⟩
  apply saturate_induction (P := fun K : Family => a ∈ K → a ∈ g.heads)
  · intro K hK h
    rcases Family.mem_of_mem_merge h with h | h
    · exact hK h
    · have hnone : ∀ a ∈ (∅ : Family), a ∈ g.heads :=
        fun a ha => absurd ha Std.ExtTreeMap.not_mem_empty
      exact (bounds_heads g K).pass hnone a h
  · exact Family.mem_ofNames.1

theorem mem_symbols_of_mem_sets (h : x ∈ (sets g).lookup a) : x = .epsilon ∨ x ∈ g.symbols := by
  have hx := mem_lookup_sets.1 h
  cases x with
  | terminal b =>
    obtain ⟨β, hd⟩ := hx
    exact .inr ((hd.mem_symbols List.mem_cons_self).resolve_left (by simp))
  | epsilon => exact .inl rfl
  | nonterminal => exact hx.elim
  | endMarker => exact hx.elim

end First

namespace Follow

theorem mem_heads_of_mem_spread {first F : Family} {b : String} {rhs : List Symbol}
    (hrhs : ∀ c, .nonterminal c ∈ rhs → c ∈ g.heads) (hF : ∀ a ∈ F, a ∈ g.heads) :
    ∀ a ∈ spread first b rhs F, a ∈ g.heads := by
  induction rhs generalizing F with
  | nil => exact hF
  | cons y rhs ih =>
    have htail : ∀ c, .nonterminal c ∈ rhs → c ∈ g.heads :=
      fun c hc => hrhs c (List.mem_cons_of_mem y hc)
    cases y with
    | nonterminal c =>
      apply ih htail
      intro a ha
      rcases Family.mem_add.1 ha with rfl | ha
      · exact hrhs c List.mem_cons_self
      · exact hF a ha
    | terminal | epsilon | endMarker => exact ih htail hF

theorem mem_heads_of_mem_step {first F : Family} (hF : ∀ a ∈ F, a ∈ g.heads) :
    ∀ a ∈ step g first F, a ∈ g.heads := by
  have h (ps : List Production) (hps : ps ⊆ g.productions) : ∀ F : Family,
      (∀ a ∈ F, a ∈ g.heads) →
        ∀ a ∈ ps.foldl (fun F p => spread first p.lhs p.rhs F) F, a ∈ g.heads := by
    induction ps with
    | nil => exact fun _ => id
    | cons p ps ih =>
      obtain ⟨hp, hps⟩ := List.cons_subset.1 hps
      intro F hF
      exact ih hps _ (mem_heads_of_mem_spread (fun _ => Grammar.mem_heads_of_mem_rhs hp) hF)
  exact h _ (List.Subset.refl _) F hF

theorem mem_sets_iff {first : Family} : a ∈ sets g first ↔ a ∈ g.heads := by
  refine ⟨?_, fun h => mem_sets h first⟩
  revert a
  apply saturate_induction (P := fun F : Family => ∀ {a}, a ∈ F → a ∈ g.heads)
  · intro F hF a
    exact mem_heads_of_mem_step (fun _ => hF) a
  · intro a h
    rcases Family.mem_add.1 h with rfl | h
    · exact List.mem_cons_of_mem _ g.start_mem
    · rcases Family.mem_add.1 h with rfl | h
      · exact List.mem_cons_self
      · exact Family.mem_ofNames.1 h

theorem mem_symbols_of_mem_sets (h : x ∈ (sets g (First.sets g)).lookup a) :
    x = .endMarker ∨ x ∈ g.symbols :=
  (mem_lookup_sets.1 h).mem_symbols.symm

end Follow

end SimpleLR
