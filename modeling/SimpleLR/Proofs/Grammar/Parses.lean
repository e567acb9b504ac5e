import SimpleLR.Proofs.Grammar.Splitting

namespace SimpleLR.Grammar

/-- A sequence derives a string of terminals, and these are the numbers of the productions of the
derivation from the bottom up and from left to right. -/
inductive Parses (g : Grammar) : List Symbol → List Nat → List String → Prop where
  | nil : Parses g [] [] []
  | terminal {a : String} {α : List Symbol} {is : List Nat} {w : List String}
    (h : Parses g α is w) : Parses g (.terminal a :: α) is (a :: w)
  | nonterminal {i : Nat} {p : Production} {α : List Symbol} {is js : List Nat}
    {u v : List String} (hp : g.productions[i]? = some p) (hrhs : Parses g p.rhs is u)
    (h : Parses g α js v) : Parses g (.nonterminal p.lhs :: α) (is ++ i :: js) (u ++ v)

variable {g : Grammar} {α β γ : List Symbol} {is js : List Nat} {u v w : List String}

namespace Parses

theorem append (h : g.Parses α is u) (h' : g.Parses β js v) :
    g.Parses (α ++ β) (is ++ js) (u ++ v) := by
  induction h with
  | nil => exact h'
  | terminal _ ih => exact .terminal ih
  | nonterminal hp hrhs _ _ ih =>
    rw [List.cons_append, List.append_assoc, List.cons_append, List.append_assoc]
    exact .nonterminal hp hrhs ih

theorem of_append (h : g.Parses (α ++ β) is w) :
    ∃ is₁ is₂ u v, is = is₁ ++ is₂ ∧ w = u ++ v ∧ g.Parses α is₁ u ∧ g.Parses β is₂ v := by
  generalize he : α ++ β = γ at h
  induction h generalizing α with
  | nil =>
    obtain ⟨rfl, rfl⟩ := List.append_eq_nil_iff.1 he
    exact ⟨[], [], [], [], rfl, rfl, .nil, .nil⟩
  | @terminal a γ is w h ih =>
    cases α with
    | nil =>
      rw [List.nil_append] at he
      exact ⟨[], is, [], a :: w, rfl, rfl, .nil, he ▸ .terminal h⟩
    | cons x α =>
      obtain ⟨rfl, htail⟩ := List.cons.inj he
      obtain ⟨is₁, is₂, u, v, rfl, rfl, hα, hβ⟩ := ih htail
      exact ⟨is₁, is₂, a :: u, v, rfl, rfl, .terminal hα, hβ⟩
  | @nonterminal i p γ is js u v hp hrhs h _ ih =>
    cases α with
    | nil =>
      rw [List.nil_append] at he
      exact ⟨[], _, [], _, rfl, rfl, .nil, he ▸ .nonterminal hp hrhs h⟩
    | cons x α =>
      obtain ⟨rfl, htail⟩ := List.cons.inj he
      obtain ⟨is₁, is₂, u', v', rfl, rfl, hα, hβ⟩ := ih htail
      have his : is ++ i :: (is₁ ++ is₂) = (is ++ i :: is₁) ++ is₂ := by
        rw [List.append_assoc, List.cons_append]
      have hu : u ++ (u' ++ v') = (u ++ u') ++ v' := (List.append_assoc ..).symm
      exact ⟨_, is₂, _, v', his, hu, .nonterminal hp hrhs hα, hβ⟩

theorem terminals (w : List String) : g.Parses (w.map .terminal) [] w := by
  induction w with
  | nil => exact .nil
  | cons a w ih => exact .terminal ih

theorem of_terminals (h : g.Parses (w.map .terminal) is u) : is = [] ∧ u = w := by
  induction w generalizing u with
  | nil =>
    cases h
    exact ⟨rfl, rfl⟩
  | cons a w ih =>
    cases h with
    | terminal h =>
      obtain ⟨rfl, rfl⟩ := ih h
      exact ⟨rfl, rfl⟩

theorem single {i : Nat} {p : Production} (hp : g.productions[i]? = some p)
    (hrhs : g.Parses p.rhs is u) : g.Parses [.nonterminal p.lhs] (is ++ [i]) u := by
  have h := nonterminal hp hrhs nil
  rwa [List.append_nil] at h

theorem reduce {i : Nat} {p : Production} (h : g.Parses (α ++ p.rhs) is w)
    (hp : g.productions[i]? = some p) :
    g.Parses (α ++ [.nonterminal p.lhs]) (is ++ [i]) w := by
  obtain ⟨is₁, is₂, u, v, rfl, rfl, hα, hrhs⟩ := h.of_append
  rw [List.append_assoc]
  exact hα.append (single hp hrhs)

theorem shift (h : g.Parses α is w) (a : String) :
    g.Parses (α ++ [.terminal a]) is (w ++ [a]) := by
  have h := h.append (terminal nil (a := a))
  rwa [List.append_nil] at h

end Parses

theorem RightmostDerives.trans (h : g.RightmostDerives α is β)
    (h' : g.RightmostDerives β js γ) : g.RightmostDerives α (is ++ js) γ := by
  induction h with
  | refl => exact h'
  | step hp _ ih => exact .step hp (ih h')

theorem RightmostDerives.parses (h : g.RightmostDerives α is (w.map .terminal)) :
    g.Parses α is.reverse w := by
  generalize he : w.map Symbol.terminal = β at h
  induction h with
  | refl =>
    subst he
    exact .terminals w
  | @step i p α β z is hp _ ih =>
    obtain ⟨is₁, is₂, u, v, hrev, rfl, hα, hz⟩ := (ih he).of_append
    obtain ⟨rfl, rfl⟩ := hz.of_terminals
    have h := (hα.reduce hp).append (.terminals v)
    rw [List.reverse_cons, hrev]
    simpa only [List.append_nil, List.append_assoc, List.singleton_append] using h

/-- The last nonterminals are rewritten first, so that what comes before may be anything. -/
theorem Parses.rightmostDerives (h : g.Parses α is w) (γ : List Symbol) (z : List String) :
    g.RightmostDerives (γ ++ α ++ z.map .terminal) is.reverse (γ ++ (w ++ z).map .terminal) := by
  induction h generalizing γ z with
  | nil =>
    rw [List.append_nil]
    exact .refl _
  | @terminal a α is w _ ih =>
    have h := ih (γ ++ [.terminal a]) z
    simpa only [List.append_assoc, List.cons_append, List.nil_append, List.map_cons] using h
  | @nonterminal i p α is js u v hp _ _ ihrhs ih =>
    have htail := ih (γ ++ [.nonterminal p.lhs]) z
    rw [List.append_assoc γ _ ((v ++ z).map _), List.singleton_append] at htail
    have h := htail.trans (.step hp (ihrhs γ (v ++ z)))
    rw [List.reverse_append, List.reverse_cons]
    simpa only [List.append_assoc, List.cons_append, List.nil_append] using h

theorem rightmostDerives_iff_parses :
    g.RightmostDerives α is (w.map .terminal) ↔ g.Parses α is.reverse w := by
  constructor
  · exact RightmostDerives.parses
  · intro h
    have h := h.rightmostDerives [] []
    simpa only [List.nil_append, List.map_nil, List.append_nil, List.reverse_reverse] using h

theorem exists_parses_of_derives (h : g.Derives α (w.map .terminal)) :
    ∃ is, g.Parses α is w := by
  induction h using Relation.ReflTransGen.head_induction_on with
  | refl => exact ⟨[], .terminals w⟩
  | head hs _ ih =>
    obtain ⟨is, h⟩ := ih
    cases hs with
    | @intro p hp γ δ =>
      obtain ⟨i, hi⟩ := List.mem_iff_getElem?.1 hp
      obtain ⟨is₁, is₂, u, v, rfl, rfl, hγ, hδ⟩ := h.of_append
      have h := (hγ.reduce hi).append hδ
      rw [List.append_assoc γ, List.singleton_append] at h
      exact ⟨_, h⟩

theorem derives_iff_parses : g.Derives α (w.map .terminal) ↔ ∃ is, g.Parses α is w := by
  constructor
  · exact exists_parses_of_derives
  · intro h
    obtain ⟨is, h⟩ := h
    rw [← is.reverse_reverse] at h
    exact (rightmostDerives_iff_parses.2 h).derives

end SimpleLR.Grammar
