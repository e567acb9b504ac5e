import Mathlib.Data.List.Induction
import SimpleLR.Grammar.Load
import SimpleLR.Proofs.Automaton.Transitions

namespace SimpleLR

variable {g : Grammar} {γ : List Symbol} {x : Symbol} {i j : Item}

theorem take_append_of_getElem? {d : Nat} (h : γ[d]? = some x) :
    γ.take d ++ [x] = γ.take (d + 1) := by
  rw [List.take_add_one, h]
  rfl

namespace Item

theorem next?_eq_some_iff : i.next? g = some x ↔
    ∃ p, g.productions[i.production]? = some p ∧ p.rhs[i.dot]? = some x :=
  Option.bind_eq_some_iff

theorem next?_ne_augmentedStart : i.next? g ≠ some (.nonterminal g.augmentedStart) := by
  intro h
  obtain ⟨p, hp, hx⟩ := next?_eq_some_iff.1 h
  exact Grammar.name_ne_augmentedStart (List.mem_of_getElem? hp) (List.mem_of_getElem? hx) rfl

namespace Valid

theorem start_zero (g : Grammar) : Valid g [] ⟨0, 0⟩ :=
  .start (Nat.zero_le _)

/-- What is before the dot ends the sequence after which an item is valid. -/
theorem exists_eq_append (h : Valid g γ i) : ∃ p δ, g.productions[i.production]? = some p ∧
    i.dot ≤ p.rhs.length ∧ γ = δ ++ p.rhs.take i.dot := by
  cases h with
  | start hd => exact ⟨g.startProduction, [], rfl, hd, rfl⟩
  | @expand γ _ _ _ p _ _ hp hd => exact ⟨p, γ, hp, hd, rfl⟩

theorem advance (h : Valid g γ i) (hx : i.next? g = some x) :
    Valid g (γ ++ [x]) i.advance := by
  obtain ⟨p, hp, hx⟩ := next?_eq_some_iff.1 hx
  have hd := (List.getElem?_eq_some_iff.1 hx).1
  cases h with
  | start =>
    obtain rfl : g.startProduction = p := Option.some.inj hp
    rw [take_append_of_getElem? hx]
    exact .start hd
  | expand h hn hp' =>
    obtain rfl := Option.some.inj (hp.symm.trans hp')
    rw [List.append_assoc, take_append_of_getElem? hx]
    exact .expand h hn hp hd

theorem of_mem_expansion (h : Valid g γ i) (hj : j ∈ i.expansion g) : Valid g γ j := by
  obtain ⟨a, p, hn, hp, rfl, hd⟩ := mem_expansion.1 hj
  have h := expand (d := 0) h hn hp (Nat.zero_le _)
  rw [List.take_zero, List.append_nil] at h
  cases j
  cases hd
  exact h

/-- Validity is the least relation that the moves of an automaton keep. -/
theorem step_induction {P : List Symbol → Item → Prop} (hstart : P [] ⟨0, 0⟩)
    (hadvance : ∀ γ i x, P γ i → i.next? g = some x → P (γ ++ [x]) i.advance)
    (hexpansion : ∀ γ i j, P γ i → j ∈ i.expansion g → P γ j) (h : Valid g γ i) : P γ i := by
  have htake {γ : List Symbol} {q : Nat} {p : Production} (hp : g.productions[q]? = some p)
      (h₀ : P γ ⟨q, 0⟩) (d : Nat) (hd : d ≤ p.rhs.length) : P (γ ++ p.rhs.take d) ⟨q, d⟩ := by
    induction d with
    | zero =>
      rw [List.take_zero, List.append_nil]
      exact h₀
    | succ d ih =>
      have hx : p.rhs[d]? = some p.rhs[d] := List.getElem?_eq_getElem hd
      have h := hadvance _ _ _ (ih (Nat.le_of_succ_le hd)) (next?_eq_some_iff.2 ⟨p, hp, hx⟩)
      rw [List.append_assoc, take_append_of_getElem? hx] at h
      exact h
  induction h with
  | start hd => exact htake (p := g.startProduction) rfl hstart _ hd
  | @expand γ i q d p _ hn hp hd ih =>
    apply htake hp _ d hd
    exact hexpansion γ i _ ih (mem_expansion.2 ⟨p.lhs, p, hn, hp, rfl, rfl⟩)

theorem exists_eq_append_rhs (h : Valid g γ i) (hn : i.next? g = none) :
    ∃ p δ, g.productions[i.production]? = some p ∧ i.dot = p.rhs.length ∧ γ = δ ++ p.rhs := by
  obtain ⟨p, δ, hp, hd, rfl⟩ := h.exists_eq_append
  rw [next?, hp, Option.bind_some, List.getElem?_eq_none_iff] at hn
  have htake : δ ++ p.rhs.take i.dot = δ ++ p.rhs := by
    rw [List.take_of_length_le hn]
  exact ⟨p, δ, hp, Nat.le_antisymm hd hn, htake⟩

/-- A complete item other than that of the start production is there for the sake of an item with
the nonterminal after the dot. -/
theorem exists_parent {q : Nat} {p : Production} (hp : g.productions[q]? = some p) (hq : q ≠ 0)
    (h : Valid g (γ ++ p.rhs) ⟨q, p.rhs.length⟩) :
    ∃ i, Valid g γ i ∧ i.next? g = some (.nonterminal p.lhs) := by
  generalize hγ : γ ++ p.rhs = δ at h
  cases h with
  | start => exact absurd rfl hq
  | @expand δ i _ _ p' h hn hp' =>
    obtain rfl := Option.some.inj (hp.symm.trans hp')
    rw [List.take_length] at hγ
    obtain rfl := List.append_cancel_right hγ
    exact ⟨i, h, hn⟩

/-- The start production is not there for the sake of another item. -/
theorem eq_take_of_production_eq_zero (h : Valid g γ i) (h₀ : i.production = 0) :
    γ = g.startProduction.rhs.take i.dot := by
  cases h with
  | start => rfl
  | expand _ hn hp =>
    cases h₀
    obtain rfl := Option.some.inj hp
    exact absurd hn next?_ne_augmentedStart

/-- The start production is complete after the start symbol alone. -/
theorem eq_start_of_complete (h : Valid g γ i) (h₀ : i.production = 0)
    (hn : i.next? g = none) : γ = [.nonterminal g.start] := by
  obtain ⟨p, _, hp, hdot, -⟩ := h.exists_eq_append_rhs hn
  rw [h₀] at hp
  obtain rfl : g.startProduction = p := Option.some.inj hp
  rw [h.eq_take_of_production_eq_zero h₀, hdot]
  rfl

end Valid

end Item

namespace Automaton

variable {n : Nat} {I : ItemSet}

theorem follow_concat (a : Automaton) (γ : List Symbol) (x : Symbol) :
    a.follow (γ ++ [x]) = (a.follow γ).bind (a.goto · x) := by
  rw [follow_append]
  congr 1
  funext n
  exact List.foldlM_cons .. |>.trans (bind_pure _)

theorem mem_of_mem_expansion (hI : (ofGrammar g).itemSets[n]? = some I) (hi : i ∈ I)
    (hj : j ∈ i.expansion g) : j ∈ I := by
  obtain ⟨J, rfl⟩ := (Collection.search_canonical g).exists_closure (List.mem_of_getElem? hI)
  exact ItemSet.mem_closure_of_mem_expansion hi hj

theorem valid_of_follow (hn : (ofGrammar g).follow γ = some n)
    (hI : (ofGrammar g).itemSets[n]? = some I) : ∀ i ∈ I, i.Valid g γ := by
  induction γ using List.reverseRecOn generalizing n I with
  | nil =>
    obtain rfl : 0 = n := Option.some.inj hn
    rw [itemSets_zero] at hI
    obtain rfl := Option.some.inj hI
    apply ItemSet.closure_induction
    · intro i hi
      obtain rfl : ⟨0, 0⟩ = i := by simpa using hi
      exact .start_zero g
    · exact fun i hi j hj => hi.of_mem_expansion hj
  | append_singleton γ x ih =>
    rw [follow_concat, Option.bind_eq_some_iff] at hn
    obtain ⟨m, hm, hx⟩ := hn
    obtain ⟨J, hJ, hn⟩ := goto_eq_some_iff.1 hx
    obtain rfl := Option.some.inj (hn.symm.trans hI)
    apply ItemSet.closure_induction
    · intro j hj
      obtain ⟨i, hi, hx, rfl⟩ := ItemSet.mem_advance.1 hj
      exact (ih hm hJ i hi).advance hx
    · exact fun i hi j hj => hi.of_mem_expansion hj

theorem exists_follow_of_valid (h : i.Valid g γ) : ∃ n I, (ofGrammar g).follow γ = some n ∧
    (ofGrammar g).itemSets[n]? = some I ∧ i ∈ I := by
  apply h.step_induction (P := fun γ i => ∃ n I, (ofGrammar g).follow γ = some n ∧
    (ofGrammar g).itemSets[n]? = some I ∧ i ∈ I)
  · exact ⟨0, _, rfl, itemSets_zero g, ItemSet.start_mem_closure g⟩
  · rintro γ i x ⟨n, I, hn, hI, hi⟩ hx
    obtain ⟨m, J, hm, hJ, hmem⟩ := exists_goto_of_mem hI hi hx
    have hfollow : (ofGrammar g).follow (γ ++ [x]) = some m := by
      rw [follow_concat, hn]
      exact hm
    exact ⟨m, J, hfollow, hJ, hmem⟩
  · rintro γ i j ⟨n, I, hn, hI, hi⟩ hj
    exact ⟨n, I, hn, hI, mem_of_mem_expansion hI hi hj⟩

theorem mem_iff_valid (hn : (ofGrammar g).follow γ = some n)
    (hI : (ofGrammar g).itemSets[n]? = some I) : i ∈ I ↔ i.Valid g γ := by
  constructor
  · exact valid_of_follow hn hI i
  · intro h
    obtain ⟨m, J, hm, hJ, hi⟩ := exists_follow_of_valid h
    obtain rfl := Option.some.inj (hn.symm.trans hm)
    obtain rfl := Option.some.inj (hI.symm.trans hJ)
    exact hi

theorem mem_items_iff_valid {s : State} (hn : (ofGrammar g).follow γ = some n)
    (hs : (ofGrammar g).states[n]? = some s) : i ∈ s.items ↔ i.Valid g γ :=
  mem_iff_valid hn (itemSets_eq_some_iff.2 ⟨s, hs, rfl⟩)

theorem exists_state_of_valid (hn : (ofGrammar g).follow γ = some n) (h : i.Valid g γ) :
    ∃ s, (ofGrammar g).states[n]? = some s ∧ i ∈ s.items := by
  obtain ⟨m, I, hm, hI, hi⟩ := exists_follow_of_valid h
  obtain rfl := Option.some.inj (hn.symm.trans hm)
  obtain ⟨s, hs, rfl⟩ := itemSets_eq_some_iff.1 hI
  exact ⟨s, hs, hi⟩

theorem exists_goto_of_valid (hn : (ofGrammar g).follow γ = some n) (h : i.Valid g γ)
    (hx : i.next? g = some x) : ∃ m, (ofGrammar g).goto n x = some m := by
  obtain ⟨s, hs, hi⟩ := exists_state_of_valid hn h
  obtain ⟨m, _, hm, _⟩ := exists_goto_of_mem (itemSets_eq_some_iff.2 ⟨s, hs, rfl⟩) hi hx
  exact ⟨m, hm⟩

theorem exists_itemSet_of_follow (h : (ofGrammar g).follow γ = some n) :
    ∃ I, (ofGrammar g).itemSets[n]? = some I := by
  cases γ using List.reverseRecOn with
  | nil =>
    obtain rfl : 0 = n := Option.some.inj h
    exact ⟨_, itemSets_zero g⟩
  | append_singleton γ x =>
    rw [follow_concat, Option.bind_eq_some_iff] at h
    obtain ⟨m, -, hx⟩ := h
    obtain ⟨J, -, hn⟩ := goto_eq_some_iff.1 hx
    exact ⟨_, hn⟩

theorem lt_size_of_follow (h : (ofGrammar g).follow γ = some n) : n < (ofGrammar g).size := by
  obtain ⟨I, hI⟩ := exists_itemSet_of_follow h
  exact lt_size_of_itemSets hI

theorem exists_mem_of_itemSets (h : (ofGrammar g).itemSets[n]? = some I) : ∃ i, i ∈ I :=
  ItemSet.exists_mem_of_ne_empty (ne_empty_of_itemSets h)

def Reached (g : Grammar) (I : ItemSet) : Prop :=
  ∃ γ n, (ofGrammar g).follow γ = some n ∧ (ofGrammar g).itemSets[n]? = some I

theorem Reached.goto (h : Reached g I) (hne : ItemSet.goto g I x ≠ ∅) :
    Reached g (ItemSet.goto g I x) := by
  obtain ⟨γ, n, hn, hI⟩ := h
  obtain ⟨m, hm, hJ⟩ := exists_goto_of_ne_empty hI hne
  have hfollow : (ofGrammar g).follow (γ ++ [x]) = some m := by
    rw [follow_concat, hn]
    exact hm
  exact ⟨γ ++ [x], m, hfollow, hJ⟩

theorem reached_of_search {c : Collection g} (h : Collection.Search g n c)
    (hI : I ∈ c.itemSets) : Reached g I := by
  induction h generalizing I with
  | initial =>
    obtain rfl := List.mem_singleton.1 hI
    exact ⟨[], 0, rfl, itemSets_zero g⟩
  | expand _ hn ih =>
    rcases Collection.mem_moves.1 hI with hI | ⟨x, -, rfl, hne⟩
    · exact ih hI
    · exact (ih (List.getElem_mem hn)).goto hne

theorem exists_follow_of_itemSets (h : (ofGrammar g).itemSets[n]? = some I) :
    ∃ γ, (ofGrammar g).follow γ = some n := by
  have hI := List.mem_of_getElem? h
  obtain ⟨γ, m, hm, hmI⟩ := reached_of_search (Collection.search_canonical g) hI
  have hindex := index?_eq_some_iff.2 hmI
  rw [index?_eq_some_iff.2 h] at hindex
  obtain rfl := Option.some.inj hindex
  exact ⟨γ, hm⟩

theorem exists_goto_of_ne_zero (h : (ofGrammar g).itemSets[n]? = some I) (hn : n ≠ 0) :
    ∃ m x, (ofGrammar g).goto m x = some n := by
  obtain ⟨γ, hγ⟩ := exists_follow_of_itemSets h
  cases γ using List.reverseRecOn with
  | nil => exact absurd (Option.some.inj hγ).symm hn
  | append_singleton γ x =>
    rw [follow_concat, Option.bind_eq_some_iff] at hγ
    obtain ⟨m, -, hx⟩ := hγ
    exact ⟨m, x, hx⟩

/-- There is a way along a sequence exactly if some item is valid after it, and the state at its
end holds the items that are. -/
theorem follow_iff_valid (g : Grammar) (γ : List Symbol) :
    ((∃ n, (ofGrammar g).follow γ = some n) ↔ ∃ i, Item.Valid g γ i) ∧
      ∀ n, (ofGrammar g).follow γ = some n →
        ∃ s, (ofGrammar g).states[n]? = some s ∧ ∀ i, i ∈ s.items ↔ i.Valid g γ := by
  apply And.intro
  · apply Iff.intro
    · intro h
      obtain ⟨n, hn⟩ := h
      obtain ⟨I, hI⟩ := exists_itemSet_of_follow hn
      obtain ⟨i, hi⟩ := exists_mem_of_itemSets hI
      exact ⟨i, valid_of_follow hn hI i hi⟩
    · intro h
      obtain ⟨i, hi⟩ := h
      obtain ⟨n, _, hn, -⟩ := exists_follow_of_valid hi
      exact ⟨n, hn⟩
  · intro n hn
    obtain ⟨I, hI⟩ := exists_itemSet_of_follow hn
    obtain ⟨s, hs, -⟩ := itemSets_eq_some_iff.1 hI
    exact ⟨s, hs, fun i => mem_items_iff_valid hn hs⟩

/-- `N` is read as a symbol although it can be empty, and no chain of productions leads to `U`. -/
theorem follow_past_nullable :
    ∃ g n s, Grammar.load ["S -> N S a", "S -> b", "N -> ε", "U -> U b"] ["a", "b"]
        ["S", "N", "U"] "S" = .ok g ∧
      (ofGrammar g).follow [.nonterminal "N", .nonterminal "N", .nonterminal "S"] = some n ∧
      (ofGrammar g).states[n]? = some s ∧ s.items.toList = [⟨1, 2⟩] ∧
      (∀ i, i ∈ s.items ↔
        i.Valid g [.nonterminal "N", .nonterminal "N", .nonterminal "S"]) ∧
      ∀ i, ¬ Item.Valid g [.nonterminal "U"] i := by
  let γ : List Symbol := [.nonterminal "N", .nonterminal "N", .nonterminal "S"]
  obtain ⟨g, hg, h⟩ := exists_ok_of_any
    (r := Grammar.load ["S -> N S a", "S -> b", "N -> ε", "U -> U b"] ["a", "b"]
      ["S", "N", "U"] "S")
    (p := fun g => ((ofGrammar g).follow γ).any (fun n => (ofGrammar g).states[n]?.any fun s =>
        s.items.toList = [⟨1, 2⟩]) ∧ (ofGrammar g).follow [.nonterminal "U"] = none)
    (by decide +kernel)
  obtain ⟨hγ, hU⟩ := of_decide_eq_true h
  obtain ⟨n, hn, hany⟩ := (Option.any_eq_true _ _).1 hγ
  obtain ⟨s, hs, hvalid⟩ := (follow_iff_valid g γ).2 n hn
  rw [hs, Option.any_some, decide_eq_true_eq] at hany
  refine ⟨g, n, s, hg, hn, hs, hany, hvalid, ?_⟩
  intro i hi
  obtain ⟨m, hm⟩ := (follow_iff_valid g _).1.2 ⟨i, hi⟩
  cases hU.symm.trans hm

end Automaton

end SimpleLR
