import SimpleLR.Parser
import SimpleLR.Proofs.Parser.Moves
import SimpleLR.Proofs.Table.Entries

namespace SimpleLR

namespace Automaton

/-- The states on the way along a sequence of symbols, the last one first. -/
inductive Spells (a : Automaton) : List Nat → List Symbol → Prop where
  | nil : Spells a [0] []
  | push {i j : Nat} {st : List Nat} {γ : List Symbol} {x : Symbol} (h : Spells a (i :: st) γ)
    (hj : a.goto i x = some j) : Spells a (j :: i :: st) (γ ++ [x])

namespace Spells

variable {a : Automaton} {st : List Nat} {γ δ : List Symbol} {x : Symbol}

theorem exists_top (h : a.Spells st γ) : ∃ i st', st = i :: st' ∧ a.follow γ = some i := by
  induction h with
  | nil => exact ⟨0, [], rfl, rfl⟩
  | @push i j st γ x _ hj ih =>
    obtain ⟨k, st', he, hk⟩ := ih
    obtain ⟨rfl, rfl⟩ := List.cons.inj he
    have hfollow : a.follow (γ ++ [x]) = some j := by
      rw [follow_concat, hk]
      exact hj
    exact ⟨j, i :: st, rfl, hfollow⟩

theorem tail (h : a.Spells st (γ ++ [x])) : a.Spells st.tail γ := by
  generalize he : γ ++ [x] = δ at h
  cases h with
  | nil => simp at he
  | push h =>
    rw [(List.append_inj' he rfl).1]
    exact h

theorem drop (h : a.Spells st (γ ++ δ)) : a.Spells (st.drop δ.length) γ := by
  induction δ using List.reverseRecOn generalizing st with
  | nil =>
    rw [List.append_nil] at h
    exact h
  | append_singleton δ x ih =>
    rw [← List.append_assoc] at h
    have h := ih h.tail
    rw [List.drop_tail] at h
    rwa [List.length_append]

theorem length_eq (h : a.Spells st γ) : st.length = γ.length + 1 := by
  induction h with
  | nil => rfl
  | push _ _ ih => rw [List.length_cons, ih, List.length_append, List.length_singleton]

theorem lt_size {g : Grammar} (h : (ofGrammar g).Spells st γ) :
    ∀ i ∈ st, i < (ofGrammar g).size := by
  induction h with
  | nil =>
    intro i hi
    obtain rfl := List.mem_singleton.1 hi
    exact lt_size_of_itemSets (itemSets_zero g)
  | push _ hj ih =>
    intro k hk
    rcases List.mem_cons.1 hk with rfl | hk
    · exact lt_size_of_goto hj
    · exact ih k hk

end Spells

end Automaton

open Automaton

variable {g : Grammar} {t : ParseTable} {c d : Configuration} {v v' : View}

/-- The states of a configuration spell the symbols of a view, and the rest is the same. -/
structure Configuration.Shows (g : Grammar) (c : Configuration) (v : View) : Prop where
  stack : (ofGrammar g).Spells c.stack v.spelled
  input : c.input = v.input
  reductions : c.reductions = v.reductions

namespace Configuration.Shows

theorem initial (g : Grammar) (w : List String) : (initial w).Shows g (.initial w) :=
  ⟨.nil, rfl, rfl⟩

theorem action?_eq_some_iff (ht : ParseTable.ofGrammar g = .ok t) (h : c.Shows g v)
    {act : Action} : c.action? t = some act ↔
      ∃ i x, (ofGrammar g).follow v.spelled = some i ∧ v.input.head? = some x ∧
        Candidate g (ofGrammar g) (Follow.sets g (First.sets g)) i x act := by
  obtain ⟨i, st, hst, hi⟩ := h.stack.exists_top
  have hact : c.action? t = v.input.head?.bind (t.action? i) := by
    rw [action?, hst, h.input]
    rfl
  rw [hact, Option.bind_eq_some_iff]
  constructor
  · intro h'
    obtain ⟨x, hx, hact⟩ := h'
    exact ⟨i, x, hi, hx, (ParseTable.action?_eq_some_iff ht).1 hact⟩
  · intro h'
    obtain ⟨j, x, hj, hx, hact⟩ := h'
    obtain rfl := Option.some.inj (hi.symm.trans hj)
    exact ⟨x, hx, (ParseTable.action?_eq_some_iff ht).2 hact⟩

theorem shift {γ input : List Symbol} {is : List Nat} {x : Symbol} {i j : Nat}
    (h : c.Shows g ⟨γ, x :: input, is⟩) (hi : (ofGrammar g).follow γ = some i)
    (hj : (ofGrammar g).goto i x = some j) : (c.shift j).Shows g ⟨γ ++ [x], input, is⟩ := by
  obtain ⟨k, st, hst, hk⟩ := h.stack.exists_top
  obtain rfl := Option.some.inj (hi.symm.trans hk)
  have hstack := h.stack
  rw [hst] at hstack
  refine ⟨?_, ?_, h.reductions⟩
  · rw [Configuration.shift, hst]
    exact hstack.push hj
  · rw [Configuration.shift, h.input]
    rfl

theorem reduce {γ input : List Symbol} {is : List Nat} {p : Production} {i j : Nat}
    (h : c.Shows g ⟨γ ++ p.rhs, input, is⟩) (hi : (ofGrammar g).follow γ = some i)
    (hj : (ofGrammar g).goto i (.nonterminal p.lhs) = some j) (q : Nat) :
    Shows g ⟨j :: c.stack.drop p.rhs.length, c.input, q :: c.reductions⟩
      ⟨γ ++ [.nonterminal p.lhs], input, q :: is⟩ := by
  have hdrop := h.stack.drop
  obtain ⟨k, st, hst, hk⟩ := hdrop.exists_top
  obtain rfl := Option.some.inj (hi.symm.trans hk)
  rw [hst] at hdrop ⊢
  exact ⟨hdrop.push hj, h.input, congrArg (q :: ·) h.reductions⟩

theorem reduce?_eq_some_iff (ht : ParseTable.ofGrammar g = .ok t) {γ input : List Symbol}
    {is : List Nat} {q : Nat} {p : Production} (h : c.Shows g ⟨γ ++ p.rhs, input, is⟩)
    (hp : g.productions[q]? = some p) : c.reduce? g t q = some d ↔
      p.lhs ∈ g.nonterminals ∧ ∃ i j, (ofGrammar g).follow γ = some i ∧
        (ofGrammar g).goto i (.nonterminal p.lhs) = some j ∧
        d = ⟨j :: c.stack.drop p.rhs.length, c.input, q :: c.reductions⟩ := by
  obtain ⟨i, st, hst, hi⟩ := h.stack.drop.exists_top
  have hreduce : c.reduce? g t q = (t.goto? i p.lhs).bind fun j =>
      some ⟨j :: c.stack.drop p.rhs.length, c.input, q :: c.reductions⟩ := by
    rw [reduce?, hp, Option.bind_eq_bind, Option.bind_some]
    dsimp only
    rw [hst]
    rfl
  rw [hreduce, Option.bind_eq_some_iff]
  constructor
  · intro h'
    obtain ⟨j, hj, hd⟩ := h'
    obtain ⟨hb, hj⟩ := (ParseTable.goto?_eq_some_iff ht).1 hj
    exact ⟨hb, i, j, hi, hj, (Option.some.inj hd).symm⟩
  · intro h'
    obtain ⟨hb, k, j, hk, hj, rfl⟩ := h'
    obtain rfl := Option.some.inj (hi.symm.trans hk)
    exact ⟨j, (ParseTable.goto?_eq_some_iff ht).2 ⟨hb, hj⟩, rfl⟩

/-- What the table makes the parser do, the valid items call for. -/
theorem moves_of_step (ht : ParseTable.ofGrammar g = .ok t) (h : c.Shows g v)
    (hs : c.step? g t = some d) : ∃ v', v.Moves g v' ∧ d.Shows g v' := by
  obtain ⟨γ, input, is⟩ := v
  unfold step? at hs
  cases hact : c.action? t with
  | none =>
    rw [hact] at hs
    cases hs
  | some act =>
    rw [hact] at hs
    obtain ⟨i, x, hi, hx, hc⟩ := (h.action?_eq_some_iff ht).1 hact
    obtain ⟨rest, rfl⟩ := List.head?_eq_some_iff.1 hx
    cases hc with
    | shift hstate hitem hn hj =>
      obtain rfl := Option.some.inj hs
      have hv := (mem_items_iff_valid hi hstate).1 hitem
      exact ⟨_, .shift hv hn, h.shift hi hj⟩
    | accept => cases hs
    | @reduce _ item p _ hstate hitem hn h₀ hp hfollow =>
      have hv := (mem_items_iff_valid hi hstate).1 hitem
      obtain ⟨p', δ, hp', hdot, rfl⟩ := hv.exists_eq_append_rhs hn
      obtain rfl := Option.some.inj (hp.symm.trans hp')
      obtain ⟨_, k, j, hk, hj, rfl⟩ := (h.reduce?_eq_some_iff ht hp).1 hs
      obtain ⟨q, dot⟩ := item
      obtain rfl : dot = p.rhs.length := hdot
      exact ⟨_, .reduce hp h₀ hv (Follow.mem_lookup_sets.1 hfollow), h.reduce hk hj q⟩

/-- What valid items call for, the table makes the parser do. -/
theorem step_of_moves (ht : ParseTable.ofGrammar g = .ok t) (h : c.Shows g v)
    (hm : v.Moves g v') : ∃ d, c.step? g t = some d ∧ d.Shows g v' := by
  obtain ⟨i, _, -, hi⟩ := h.stack.exists_top
  cases hm with
  | @shift γ input is b item hv hn =>
    obtain ⟨s, hstate, hitem⟩ := exists_state_of_valid hi hv
    obtain ⟨j, hj⟩ := exists_goto_of_valid hi hv hn
    have hact := (h.action?_eq_some_iff ht).2 ⟨i, _, hi, rfl, .shift hstate hitem hn hj⟩
    refine ⟨c.shift j, ?_, h.shift hi hj⟩
    rw [step?, hact]
  | @reduce γ input is q p x hp hq hv hx =>
    obtain ⟨s, hstate, hitem⟩ := exists_state_of_valid hi hv
    have hn : Item.next? g ⟨q, p.rhs.length⟩ = none := by
      rw [Item.next?, hp, Option.bind_some]
      exact List.getElem?_eq_none (Nat.le_refl _)
    have hact := (h.action?_eq_some_iff ht).2
      ⟨i, _, hi, rfl, .reduce hstate hitem hn hq hp (Follow.mem_lookup_sets.2 hx)⟩
    obtain ⟨parent, hparent, hb⟩ := hv.exists_parent hp hq
    obtain ⟨k, _, -, hk⟩ := h.stack.drop.exists_top
    obtain ⟨j, hj⟩ := exists_goto_of_valid hk hparent hb
    have hdeclared := Vocabulary.nonterminal_mem_symbols.1 (Item.mem_symbols_of_next? hb)
    refine ⟨_, ?_, h.reduce hk hj q⟩
    rw [step?, hact]
    exact (h.reduce?_eq_some_iff ht hp).2 ⟨hdeclared, k, j, hk, hj, rfl⟩

theorem accepting_iff (ht : ParseTable.ofGrammar g = .ok t) (h : c.Shows g v) :
    c.Accepting t ↔ v.Final g := by
  rw [Accepting, h.action?_eq_some_iff ht]
  constructor
  · intro h'
    obtain ⟨i, x, hi, hx, hc⟩ := h'
    cases hc with
    | @accept _ item hstate hitem hn hp =>
      have hv := (mem_items_iff_valid hi hstate).1 hitem
      exact ⟨hv.eq_start_of_complete hp hn, hx⟩
  · intro h'
    obtain ⟨hspelled, hend⟩ := h'
    have hv : Item.Valid g v.spelled ⟨0, 1⟩ := by
      rw [hspelled]
      exact .start (Nat.le_refl 1)
    obtain ⟨i, _, -, hi⟩ := h.stack.exists_top
    obtain ⟨s, hstate, hitem⟩ := exists_state_of_valid hi hv
    exact ⟨i, _, hi, hend, .accept hstate hitem rfl rfl⟩

theorem reaches (ht : ParseTable.ofGrammar g = .ok t) (h : c.Shows g v)
    (hr : c.Reaches g t d) : ∃ v', v.Reaches g v' ∧ d.Shows g v' := by
  induction hr with
  | refl => exact ⟨v, .refl, h⟩
  | tail _ hs ih =>
    obtain ⟨v', hv', h'⟩ := ih
    obtain ⟨v'', hm, h''⟩ := h'.moves_of_step ht hs
    exact ⟨v'', hv'.tail hm, h''⟩

theorem reaches_of_reaches (ht : ParseTable.ofGrammar g = .ok t) (h : c.Shows g v)
    (hr : v.Reaches g v') : ∃ d, c.Reaches g t d ∧ d.Shows g v' := by
  induction hr with
  | refl => exact ⟨c, .refl, h⟩
  | tail _ hm ih =>
    obtain ⟨d, hd, h'⟩ := ih
    obtain ⟨e, hs, h''⟩ := h'.step_of_moves ht hm
    exact ⟨e, hd.tail hs, h''⟩

end Configuration.Shows

end SimpleLR
