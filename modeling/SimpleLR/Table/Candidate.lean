import SimpleLR.Table.Construction

namespace SimpleLR

inductive Candidate (g : Grammar) (a : Automaton) (follow : Family) :
    Nat → Symbol → Action → Prop where
  | shift {i j : Nat} {s : State} {item : Item} {b : String} (hs : a.states[i]? = some s)
    (hi : item ∈ s.items) (hn : item.next? g = some (.terminal b))
    (hj : a.goto i (.terminal b) = some j) :
    Candidate g a follow i (.terminal b) (.shift j)
  | accept {i : Nat} {s : State} {item : Item} (hs : a.states[i]? = some s) (hi : item ∈ s.items)
    (hn : item.next? g = none) (hp : item.production = 0) :
    Candidate g a follow i .endMarker .accept
  | reduce {i : Nat} {s : State} {item : Item} {p : Production} {x : Symbol}
    (hs : a.states[i]? = some s) (hi : item ∈ s.items) (hn : item.next? g = none)
    (h₀ : item.production ≠ 0) (hp : g.productions[item.production]? = some p)
    (hx : x ∈ follow.lookup p.lhs) :
    Candidate g a follow i x (.reduce item.production)

theorem mem_candidates {g : Grammar} {a : Automaton} {follow : Family} {i : Nat} {s : State}
    (hs : a.states[i]? = some s) {x : Symbol} {act : Action} :
    (x, act) ∈ s.candidates g follow ↔ Candidate g a follow i x act := by
  have hgoto (x : Symbol) : a.goto i x = s.edges[x]? := by
    simp [Automaton.goto, hs]
  simp only [State.candidates, List.mem_flatMap, Std.ExtTreeSet.mem_toList]
  constructor
  · rintro ⟨item, hi, h⟩
    unfold Item.candidates at h
    split at h
    · rename_i b hn
      obtain ⟨j, hj, h⟩ := List.mem_map.1 h
      cases h
      refine .shift hs hi hn ?_
      rw [hgoto]
      exact Option.mem_toList.1 hj
    · simp at h
    · rename_i hn
      split at h
      · obtain ⟨rfl, rfl⟩ := Prod.mk.inj (List.mem_singleton.1 h)
        exact .accept hs hi hn ‹_›
      · rename_i h₀
        split at h
        · simp at h
        · rename_i p hp
          obtain ⟨y, hy, h⟩ := List.mem_map.1 h
          cases h
          exact .reduce hs hi hn h₀ hp (Std.ExtTreeSet.mem_toList.1 hy)
  · intro h
    cases h with
    | shift hs' hi hn hj =>
      obtain rfl := Option.some.inj (hs.symm.trans hs')
      rw [hgoto] at hj
      exact ⟨_, hi, by simp [Item.candidates, hn, hj]⟩
    | accept hs' hi hn hp =>
      obtain rfl := Option.some.inj (hs.symm.trans hs')
      exact ⟨_, hi, by simp [Item.candidates, hn, hp]⟩
    | reduce hs' hi hn h₀ hp hx =>
      obtain rfl := Option.some.inj (hs.symm.trans hs')
      exact ⟨_, hi, by simp [Item.candidates, hn, h₀, hp, hx]⟩

end SimpleLR
