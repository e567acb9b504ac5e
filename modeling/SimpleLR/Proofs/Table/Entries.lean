import SimpleLR.Outcome
import SimpleLR.Lookup
import SimpleLR.Table.Candidate

namespace SimpleLR

variable {g : Grammar} {follow : Family} {i j : Nat} {x : Symbol} {act : Action}

theorem resolve_eq_ok_iff {acts : Std.ExtTreeSet Action} {c : Symbol × Action} :
    resolve i x acts = .ok c ↔ c.1 = x ∧ acts.toList = [c.2] := by
  obtain ⟨y, act⟩ := c
  unfold resolve
  split
  · rename_i act' h
    rw [h]
    simp [eq_comm]
  · rename_i h
    constructor
    · intro h'
      cases h'
    · intro h'
      exact absurd h'.2 (h act)

theorem toList_eq_singleton {acts : Std.ExtTreeSet Action} (hact : act ∈ acts)
    (h : ∀ act' ∈ acts, act' = act) : acts.toList = [act] := by
  have hmem := Std.ExtTreeSet.mem_toList.2 hact
  have hdistinct := acts.distinct_toList
  cases hl : acts.toList with
  | nil =>
    rw [hl] at hmem
    cases hmem
  | cons act₁ rest =>
    have hone : ∀ act' ∈ act₁ :: rest, act' = act := by
      intro act' hact'
      apply h
      rw [← Std.ExtTreeSet.mem_toList, hl]
      exact hact'
    obtain rfl := hone act₁ List.mem_cons_self
    cases rest with
    | nil => rfl
    | cons act₂ rest =>
      obtain rfl := hone act₂ (List.mem_cons_of_mem _ List.mem_cons_self)
      rw [hl] at hdistinct
      exact absurd Std.ReflCmp.compare_self (List.rel_of_pairwise_cons hdistinct List.mem_cons_self)

theorem exists_conflict_of_resolve_eq_error {acts : Std.ExtTreeSet Action} {e : GrammarError}
    (h : resolve i x acts = .error e) : e = .conflict i x acts.toList := by
  unfold resolve at h
  split at h
  · cases h
  · exact (Except.error.inj h).symm

section

variable {cs l : List (Symbol × Action)}

theorem mem_gather_of_getElem? {acts : Std.ExtTreeSet Action} (h : (gather cs)[x]? = some acts) :
    act ∈ acts ↔ (x, act) ∈ cs := by
  rw [← mem_gather, Std.ExtTreeMap.getD_eq_getD_getElem?, h]
  rfl

theorem exists_gather_of_mem (h : (x, act) ∈ cs) : ∃ acts, (gather cs)[x]? = some acts := by
  have hmem : x ∈ gather cs := mem_keys_gather.2 ⟨act, h⟩
  exact ⟨_, Std.ExtTreeMap.getElem?_eq_some_getElem hmem⟩

theorem exists_resolve_iff {acts : Std.ExtTreeSet Action} (h : (gather cs)[x]? = some acts)
    (i : Nat) : (∃ c, resolve i x acts = .ok c) ↔
      ∀ act act', (x, act) ∈ cs → (x, act') ∈ cs → act = act' := by
  simp only [← mem_gather_of_getElem? h]
  apply Iff.intro
  · intro h' act act' hact hact'
    obtain ⟨c, hc⟩ := h'
    obtain ⟨-, hone⟩ := resolve_eq_ok_iff.1 hc
    rw [← Std.ExtTreeSet.mem_toList, hone] at hact hact'
    rw [List.mem_singleton.1 hact, List.mem_singleton.1 hact']
  · intro h'
    obtain ⟨act, hact⟩ :=
      mem_keys_gather.1 (Std.ExtTreeMap.mem_iff_isSome_getElem?.2 (Option.isSome_of_eq_some h))
    rw [← mem_gather_of_getElem? h] at hact
    have hone := toList_eq_singleton hact fun act' hact' => h' act' act hact' hact
    exact ⟨(x, act), resolve_eq_ok_iff.2 ⟨rfl, hone⟩⟩

/-- Where every symbol has one action, the actions are those that were gathered. -/
theorem mem_resolved (h : (gather cs).toList.mapM (fun (x, acts) => resolve i x acts) = .ok l) :
    (x, act) ∈ l ↔ (x, act) ∈ cs := by
  constructor
  · intro hl
    obtain ⟨⟨y, acts⟩, hacts, hc⟩ := mem_of_mapM_eq_ok h hl
    obtain ⟨rfl, hact⟩ := resolve_eq_ok_iff.1 hc
    rw [Std.ExtTreeMap.mem_toList_iff_getElem?_eq_some] at hacts
    rw [← mem_gather_of_getElem? hacts, ← Std.ExtTreeSet.mem_toList, hact]
    exact List.mem_singleton.2 rfl
  · intro hcs
    obtain ⟨acts, hacts⟩ := exists_gather_of_mem hcs
    have hmem := Std.ExtTreeMap.mem_toList_iff_getElem?_eq_some.2 hacts
    obtain ⟨⟨y, act'⟩, hl, hc⟩ := exists_mem_of_mapM_eq_ok h hmem
    obtain ⟨rfl, hact⟩ := resolve_eq_ok_iff.1 hc
    rw [← mem_gather_of_getElem? hacts, ← Std.ExtTreeSet.mem_toList, hact] at hcs
    obtain rfl := List.mem_singleton.1 hcs
    exact hl

theorem eq_of_resolved (h : (gather cs).toList.mapM (fun (x, acts) => resolve i x acts) = .ok l)
    {act' : Action} (hact : (x, act) ∈ cs) (hact' : (x, act') ∈ cs) : act = act' := by
  obtain ⟨acts, hacts⟩ := exists_gather_of_mem hact
  have hmem := Std.ExtTreeMap.mem_toList_iff_getElem?_eq_some.2 hacts
  obtain ⟨c, -, hc⟩ := exists_mem_of_mapM_eq_ok h hmem
  exact (exists_resolve_iff hacts i).1 ⟨c, hc⟩ act act' hact hact'

end

namespace State

variable {s : State} {r : Row}

theorem row_eq_ok (h : s.row g follow i = .ok r) :
    (∀ x act, r.actions[x]? = some act ↔ (x, act) ∈ s.candidates g follow) ∧
      r.gotos = s.gotos g := by
  unfold row at h
  cases hl : (gather (s.candidates g follow)).toList.mapM
      (fun (x, acts) => resolve i x acts) with
  | error e =>
    rw [hl] at h
    cases h
  | ok l =>
    rw [hl] at h
    obtain rfl := Except.ok.inj h
    refine ⟨?_, rfl⟩
    intro x act
    rw [← mem_resolved hl]
    apply getElem?_ofList_eq_some_iff
    intro y act₁ act₂ h₁ h₂
    exact eq_of_resolved hl ((mem_resolved hl).1 h₁) ((mem_resolved hl).1 h₂)

theorem exists_row (h : ∀ x act act', (x, act) ∈ s.candidates g follow →
    (x, act') ∈ s.candidates g follow → act = act') (i : Nat) :
    ∃ r, s.row g follow i = .ok r := by
  have hresolved : ∃ l, (gather (s.candidates g follow)).toList.mapM
      (fun (x, acts) => resolve i x acts) = .ok l := by
    apply exists_mapM_eq_ok
    intro c hc
    obtain ⟨x, acts⟩ := c
    rw [Std.ExtTreeMap.mem_toList_iff_getElem?_eq_some] at hc
    exact (exists_resolve_iff hc i).2 (h x)
  obtain ⟨l, hl⟩ := hresolved
  unfold row
  rw [hl]
  exact ⟨_, rfl⟩

theorem gotos_eq_some_iff {b : String} : (s.gotos g)[b]? = some j ↔
    b ∈ g.nonterminals ∧ s.edges[Symbol.nonterminal b]? = some j :=
  getElem?_ofList_filterMap

end State

theorem Candidate.exists_state {a : Automaton} (h : Candidate g a follow i x act) :
    ∃ s, a.states[i]? = some s := by
  cases h with
  | shift hs => exact ⟨_, hs⟩
  | accept hs => exact ⟨_, hs⟩
  | reduce hs => exact ⟨_, hs⟩

def OneAction (g : Grammar) (a : Automaton) (follow : Family) (i : Nat) : Prop :=
  ∀ x act act', Candidate g a follow i x act → Candidate g a follow i x act' → act = act'

theorem exists_row_iff {a : Automaton} {s : State} (hs : a.states[i]? = some s) :
    (∃ r, s.row g follow i = .ok r) ↔ OneAction g a follow i := by
  constructor
  · rintro ⟨r, hr⟩ x act act' hact hact'
    obtain ⟨hactions, -⟩ := State.row_eq_ok hr
    rw [← mem_candidates hs, ← hactions] at hact hact'
    exact Option.some.inj (hact.symm.trans hact')
  · intro h
    apply State.exists_row
    intro x act act' hact hact'
    exact h x act act' ((mem_candidates hs).1 hact) ((mem_candidates hs).1 hact')

namespace ParseTable

variable {a : Automaton} {t : ParseTable}

theorem mapM_row_eq_ok (h : ofAutomaton g a follow = .ok t) :
    a.states.zipIdx.mapM (fun (s, i) => s.row g follow i) = .ok t.rows := by
  unfold ofAutomaton at h
  cases hrows : a.states.zipIdx.mapM (fun (s, i) => s.row g follow i) with
  | error e =>
    rw [hrows] at h
    cases h
  | ok rows =>
    rw [hrows] at h
    obtain rfl := Except.ok.inj h
    rfl

theorem state_and_row (h : ofAutomaton g a follow = .ok t) (i : Nat) :
    (a.states[i]? = none ∧ t.rows[i]? = none) ∨
      ∃ s r, a.states[i]? = some s ∧ t.rows[i]? = some r ∧ s.row g follow i = .ok r := by
  have hcases := getElem?_of_mapM_eq_ok (mapM_row_eq_ok h) i
  rw [List.getElem?_zipIdx] at hcases
  rcases hcases with ⟨hs, hr⟩ | ⟨⟨s, j⟩, r, hs, hr, hrow⟩
  · exact .inl ⟨Option.map_eq_none_iff.1 hs, hr⟩
  · obtain ⟨s', hs', he⟩ := Option.map_eq_some_iff.1 hs
    obtain ⟨rfl, hj⟩ := Prod.mk.inj he
    obtain rfl : i = j := (Nat.zero_add i).symm.trans hj
    exact .inr ⟨s', r, hs', hr, hrow⟩

theorem action?_eq_some_iff (h : ofAutomaton g a follow = .ok t) :
    t.action? i x = some act ↔ Candidate g a follow i x act := by
  rcases state_and_row h i with ⟨hs, hr⟩ | ⟨s, r, hs, hr, hrow⟩
  · rw [action?, hr]
    constructor
    · intro hact
      cases hact
    · intro hact
      obtain ⟨s, hs'⟩ := hact.exists_state
      cases hs.symm.trans hs'
  · rw [← mem_candidates hs, action?, hr]
    exact (State.row_eq_ok hrow).1 x act

theorem size_eq (h : ofAutomaton g a follow = .ok t) : t.size = a.size := by
  rw [size, length_of_mapM_eq_ok (mapM_row_eq_ok h), List.length_zipIdx, Automaton.size]

theorem exists_ofAutomaton_iff : (∃ t, ofAutomaton g a follow = .ok t) ↔
    ∀ i x act act', Candidate g a follow i x act → Candidate g a follow i x act' →
      act = act' := by
  apply Iff.intro
  · intro h i x act act' hact hact'
    obtain ⟨t, ht⟩ := h
    rw [← action?_eq_some_iff ht] at hact hact'
    exact Option.some.inj (hact.symm.trans hact')
  · intro h
    have hrows : ∃ rows, a.states.zipIdx.mapM (fun (s, i) => s.row g follow i) = .ok rows := by
      apply exists_mapM_eq_ok
      intro c hc
      obtain ⟨s, i⟩ := c
      exact (exists_row_iff (List.mem_zipIdx_iff_getElem?.1 hc)).2 (h i)
    obtain ⟨rows, hrows⟩ := hrows
    unfold ofAutomaton
    rw [hrows]
    exact ⟨⟨rows⟩, rfl⟩

theorem goto?_eq_some_iff (h : ofAutomaton g a follow = .ok t) {b : String} :
    t.goto? i b = some j ↔ b ∈ g.nonterminals ∧ a.goto i (.nonterminal b) = some j := by
  rcases state_and_row h i with ⟨hs, hr⟩ | ⟨s, r, hs, hr, hrow⟩
  · rw [goto?, hr, Automaton.goto, hs]
    simp
  · rw [goto?, hr, Automaton.goto, hs, Option.bind_some, Option.bind_some,
      (State.row_eq_ok hrow).2]
    exact State.gotos_eq_some_iff

end ParseTable

end SimpleLR
