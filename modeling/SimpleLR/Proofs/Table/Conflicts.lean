import SimpleLR.Grammar.Load
import SimpleLR.Proofs.Table.Entries

namespace SimpleLR

variable {g : Grammar} {a : Automaton} {follow : Family} {i j : Nat} {x y : Symbol} {act : Action}
  {e : GrammarError} {t : ParseTable}

/-- State `i` calls for different actions on one symbol. -/
def Contested (g : Grammar) (a : Automaton) (follow : Family) (i : Nat) (x : Symbol) : Prop :=
  ∃ act act', Candidate g a follow i x act ∧ Candidate g a follow i x act' ∧ act ≠ act'

/-- All that state `i` calls for on one symbol, in increasing order. -/
structure IsConflict (g : Grammar) (a : Automaton) (follow : Family) (i : Nat) (x : Symbol)
    (acts : List Action) : Prop where
  contested : Contested g a follow i x
  mem : ∀ act, act ∈ acts ↔ Candidate g a follow i x act
  ordered : acts.Pairwise fun act act' => compare act act' = .lt

/-- No state before calls for different actions on any symbol, nor this one on any symbol before. -/
structure IsFirstConflict (g : Grammar) (a : Automaton) (follow : Family) (i : Nat) (x : Symbol)
    (acts : List Action) : Prop extends IsConflict g a follow i x acts where
  first : ∀ j y, Contested g a follow j y → i < j ∨ i = j ∧ (compare x y).isLE

theorem Contested.exists_state (h : Contested g a follow i x) : ∃ s, a.states[i]? = some s := by
  obtain ⟨act, -, hact, -⟩ := h
  exact hact.exists_state

theorem not_contested_iff : ¬ Contested g a follow i x ↔
    ∀ act act', Candidate g a follow i x act → Candidate g a follow i x act' → act = act' := by
  apply Iff.intro
  · intro h act act' hact hact'
    apply Decidable.byContradiction
    intro hne
    exact h ⟨act, act', hact, hact', hne⟩
  · intro h h'
    obtain ⟨act, act', hact, hact', hne⟩ := h'
    exact hne (h act act' hact hact')

theorem oneAction_iff : OneAction g a follow i ↔ ∀ x, ¬ Contested g a follow i x :=
  forall_congr' fun _ => not_contested_iff.symm

section

variable {s : State} {acts : Std.ExtTreeSet Action}

theorem mem_iff_candidate (hs : a.states[i]? = some s)
    (hc : (gather (s.candidates g follow))[x]? = some acts) :
    act ∈ acts ↔ Candidate g a follow i x act := by
  rw [mem_gather_of_getElem? hc, mem_candidates hs]

theorem exists_gather_of_contested (hs : a.states[i]? = some s) (h : Contested g a follow i x) :
    ∃ acts, (gather (s.candidates g follow))[x]? = some acts := by
  obtain ⟨act, -, hact, -⟩ := h
  exact exists_gather_of_mem ((mem_candidates hs).2 hact)

theorem exists_resolve_iff_not_contested (hs : a.states[i]? = some s)
    (hc : (gather (s.candidates g follow))[x]? = some acts) :
    (∃ c, resolve i x acts = .ok c) ↔ ¬ Contested g a follow i x := by
  rw [exists_resolve_iff hc, not_contested_iff]
  simp only [mem_candidates hs]

/-- A state that has no row reports the first symbol on which it calls for different actions. -/
theorem State.exists_of_row_eq_error (hs : a.states[i]? = some s)
    (h : s.row g follow i = .error e) :
    ∃ x acts, e = .conflict i x acts ∧ IsConflict g a follow i x acts ∧
      ∀ y, Contested g a follow i y → (compare x y).isLE := by
  obtain ⟨⟨x, acts⟩, hc, he, hfirst⟩ :=
    exists_first_of_mapM_eq_error Std.ExtTreeMap.ordered_keys_toList (eq_error_of_bind_pure h)
  rw [Std.ExtTreeMap.mem_toList_iff_getElem?_eq_some] at hc
  refine ⟨x, acts.toList, exists_conflict_of_resolve_eq_error he, ⟨?_, ?_, ?_⟩, ?_⟩
  · apply Classical.byContradiction
    intro hnot
    obtain ⟨c, hr⟩ := (exists_resolve_iff_not_contested hs hc).2 hnot
    cases he.symm.trans hr
  · intro act
    rw [Std.ExtTreeSet.mem_toList]
    exact mem_iff_candidate hs hc
  · exact acts.ordered_toList
  · intro y hy
    obtain ⟨acts', hc'⟩ := exists_gather_of_contested hs hy
    have hfails : ¬ ∃ c, resolve i y acts' = .ok c :=
      fun hok => (exists_resolve_iff_not_contested hs hc').1 hok hy
    have hmem := Std.ExtTreeMap.mem_toList_iff_getElem?_eq_some.2 hc'
    rcases hfirst (y, acts') hmem hfails with heq | hlt
    · obtain ⟨rfl, -⟩ := Prod.mk.inj heq
      exact Std.ReflCmp.isLE_rfl
    · exact Ordering.isLE_of_eq_lt hlt

end

namespace ParseTable

theorem ofAutomaton_eq_firstConflict (h : ofAutomaton g a follow = .error e) :
    ∃ i x acts, e = .conflict i x acts ∧ IsFirstConflict g a follow i x acts := by
  obtain ⟨⟨s, i⟩, hc, he, hfirst⟩ :=
    exists_first_of_mapM_eq_error (pairwise_zipIdx a.states) (eq_error_of_bind_pure h)
  obtain ⟨x, acts, rfl, hconflict, hleast⟩ :=
    State.exists_of_row_eq_error (List.mem_zipIdx_iff_getElem?.1 hc) he
  refine ⟨i, x, acts, rfl, hconflict, ?_⟩
  intro j y hy
  obtain ⟨s', hs⟩ := hy.exists_state
  have hfails : ¬ ∃ r, s'.row g follow j = .ok r :=
    fun hok => oneAction_iff.1 ((exists_row_iff hs).1 hok) y hy
  rcases hfirst (s', j) (List.mem_zipIdx_iff_getElem?.2 hs) hfails with heq | hlt
  · obtain ⟨-, rfl⟩ := Prod.mk.inj heq
    exact .inr ⟨rfl, hleast y hy⟩
  · exact .inl hlt

/-- The conflict that is reported is in the first state that calls for two actions on one
symbol. -/
theorem ofAutomaton_eq_conflict (h : ofAutomaton g a follow = .error e) :
    ∃ i x acts, e = .conflict i x acts ∧ ¬ OneAction g a follow i ∧
      ∀ j < i, OneAction g a follow j := by
  obtain ⟨i, x, acts, he, hfirst⟩ := ofAutomaton_eq_firstConflict h
  refine ⟨i, x, acts, he, ?_, ?_⟩
  · intro hone
    exact oneAction_iff.1 hone x hfirst.contested
  · intro j hj
    apply oneAction_iff.2
    intro y hy
    have hle := hfirst.first j y hy
    omega

theorem ofAutomaton_eq_error (h : ofAutomaton g a follow = .error e) :
    ∃ i x acts, e = .conflict i x acts := by
  obtain ⟨i, x, acts, he, -⟩ := ofAutomaton_eq_conflict h
  exact ⟨i, x, acts, he⟩

/-- The table has an entry for all that the states call for, and no other. -/
structure IsTableOf (g : Grammar) (a : Automaton) (follow : Family) (t : ParseTable) : Prop where
  actions : ∀ i x act, t.action? i x = some act ↔ Candidate g a follow i x act
  gotos : ∀ i b, t.goto? i b = if b ∈ g.nonterminals then a.goto i (.nonterminal b) else none
  size : t.size = a.size

theorem isTableOf (h : ofAutomaton g a follow = .ok t) : t.IsTableOf g a follow where
  actions _ _ _ := action?_eq_some_iff h
  gotos i b := by
    apply Option.ext
    intro j
    rw [goto?_eq_some_iff h, Option.ite_none_right_eq_some]
  size := size_eq h

/-- A table is refused exactly if some state calls for different actions on one symbol. What is
reported then is the first of these conflicts, with all its actions. -/
theorem ofAutomaton_outcome (g : Grammar) (a : Automaton) (follow : Family) :
    ((∃ e, ofAutomaton g a follow = .error e) ↔ ∃ i x, Contested g a follow i x) ∧
      (∀ e, ofAutomaton g a follow = .error e →
        ∃ i x acts, e = .conflict i x acts ∧ IsFirstConflict g a follow i x acts) ∧
      ∀ t, ofAutomaton g a follow = .ok t → t.IsTableOf g a follow := by
  refine ⟨?_, fun _ => ofAutomaton_eq_firstConflict, fun _ => isTableOf⟩
  apply Iff.intro
  · intro h
    obtain ⟨e, he⟩ := h
    obtain ⟨i, x, acts, -, hfirst⟩ := ofAutomaton_eq_firstConflict he
    exact ⟨i, x, hfirst.contested⟩
  · intro h
    obtain ⟨i, x, act, act', hact, hact', hne⟩ := h
    cases ht : ofAutomaton g a follow with
    | error e => exact ⟨e, rfl⟩
    | ok t => exact absurd (exists_ofAutomaton_iff.1 ⟨t, ht⟩ i x act act' hact hact') hne

/-- Read with the productions of another grammar, the items of one state are at the end of two of
them. -/
theorem outcome_of_other_grammar :
    ∃ g g', Grammar.load ["S -> a", "S -> ε"] ["a"] ["S"] "S" = .ok g ∧
      Grammar.load ["S -> a S b", "S -> ε"] ["a", "b"] ["S"] "S" = .ok g' ∧
      ofAutomaton g (.ofGrammar g') (Follow.sets g' (First.sets g')) =
        .error (.conflict 1 (.terminal "b") [.reduce 1, .reduce 2]) ∧
      IsFirstConflict g (.ofGrammar g') (Follow.sets g' (First.sets g')) 1 (.terminal "b")
        [.reduce 1, .reduce 2] := by
  obtain ⟨g, hg, h⟩ := exists_ok_of_any
    (r := Grammar.load ["S -> a", "S -> ε"] ["a"] ["S"] "S")
    (p := fun g => (Grammar.load ["S -> a S b", "S -> ε"] ["a", "b"] ["S"] "S").toOption.any
      fun g' => match ofAutomaton g (.ofGrammar g') (Follow.sets g' (First.sets g')) with
        | .error e => e = .conflict 1 (.terminal "b") [.reduce 1, .reduce 2]
        | .ok _ => false)
    (by decide +kernel)
  obtain ⟨g', hg', h⟩ := exists_ok_of_any h
  cases he : ofAutomaton g (.ofGrammar g') (Follow.sets g' (First.sets g')) with
  | error e =>
    rw [he] at h
    obtain rfl : e = .conflict 1 (.terminal "b") [.reduce 1, .reduce 2] := of_decide_eq_true h
    obtain ⟨i, x, acts, hconflict, hfirst⟩ := (ofAutomaton_outcome g _ _).2.1 _ he
    cases hconflict
    exact ⟨g, g', hg, hg', he, hfirst⟩
  | ok t =>
    rw [he] at h
    cases h

end ParseTable

end SimpleLR
