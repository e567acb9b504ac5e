import Mathlib.Data.List.Lex
import Mathlib.Data.Nat.Find
import SimpleLR.Proofs.Automaton.Search

namespace SimpleLR

variable {g : Grammar} {α β γ : List Symbol} {x y : Symbol} {i j k n : Nat}

theorem lex_append_of_length_eq {r : Symbol → Symbol → Prop} (h : List.Lex r α β)
    (hlength : α.length = β.length) (γ δ : List Symbol) : List.Lex r (α ++ γ) (β ++ δ) := by
  induction h with
  | nil => cases hlength
  | rel hr => exact .rel hr
  | cons _ ih => exact .cons (ih (Nat.succ.inj hlength))

namespace Grammar

theorem not_before_self (g : Grammar) (α : List Symbol) : ¬ g.Before α α := by
  intro h
  rcases h with hlt | ⟨-, hlex⟩
  · exact Nat.lt_irrefl _ hlt
  · exact List.lex_irrefl (fun x => Nat.lt_irrefl (g.symbols.idxOf x)) α hlex

theorem Before.trans (h : g.Before α β) (h' : g.Before β γ) : g.Before α γ := by
  rcases h with hlt | ⟨heq, hlex⟩
  · left
    rcases h' with hlt' | ⟨heq', -⟩
    · exact Nat.lt_trans hlt hlt'
    · rwa [← heq']
  · rcases h' with hlt' | ⟨heq', hlex'⟩
    · left
      rwa [heq]
    · exact .inr ⟨heq.trans heq', List.lex_trans Nat.lt_trans hlex hlex'⟩

theorem Before.asymm (h : g.Before α β) : ¬ g.Before β α :=
  fun h' => g.not_before_self α (h.trans h')

theorem nil_before_concat (g : Grammar) (β : List Symbol) (y : Symbol) :
    g.Before [] (β ++ [y]) := by
  left
  rw [List.length_append]
  exact Nat.succ_pos _

theorem Before.concat (h : g.Before α β) (x y : Symbol) :
    g.Before (α ++ [x]) (β ++ [y]) := by
  unfold Before
  rw [List.length_append, List.length_append, List.length_singleton, List.length_singleton]
  rcases h with hlt | ⟨heq, hlex⟩
  · exact .inl (Nat.add_lt_add_right hlt 1)
  · exact .inr ⟨congrArg (· + 1) heq, lex_append_of_length_eq hlex heq [x] [y]⟩

theorem before_concat_of_idxOf_lt (α : List Symbol)
    (h : g.symbols.idxOf x < g.symbols.idxOf y) : g.Before (α ++ [x]) (α ++ [y]) := by
  right
  apply And.intro
  · rw [List.length_append, List.length_append, List.length_singleton, List.length_singleton]
  · apply List.Lex.append_left
    exact .rel h

end Grammar

namespace Automaton

/-- Of the moves that lead to state `k`, the one that is made first. -/
def FirstMove (g : Grammar) (i : Nat) (x : Symbol) (k : Nat) : Prop :=
  (ofGrammar g).goto i x = some k ∧ ∀ n y, (ofGrammar g).goto n y = some k →
    i < n ∨ i = n ∧ g.symbols.idxOf x ≤ g.symbols.idxOf y

theorem exists_firstMove (h : (ofGrammar g).goto n y = some k) : ∃ i x, FirstMove g i x k := by
  classical
  have hsource : ∃ i x, (ofGrammar g).goto i x = some k := ⟨n, y, h⟩
  have hposition : ∃ t x, (ofGrammar g).goto (Nat.find hsource) x = some k ∧
      g.symbols.idxOf x = t := by
    obtain ⟨x, hx⟩ := Nat.find_spec hsource
    exact ⟨_, x, hx, rfl⟩
  obtain ⟨x, hx, ht⟩ := Nat.find_spec hposition
  refine ⟨Nat.find hsource, x, hx, ?_⟩
  intro m z hz
  rcases Nat.lt_or_eq_of_le (Nat.find_min' hsource ⟨z, hz⟩) with hlt | heq
  · exact .inl hlt
  · rw [← heq] at hz
    rw [ht]
    exact .inr ⟨heq, Nat.find_min' hposition ⟨z, hz, rfl⟩⟩

namespace FirstMove

theorem unique (h : FirstMove g i x k) (h' : FirstMove g n y k) : i = n ∧ x = y := by
  have hle := h.2 n y h'.1
  have hge := h'.2 i x h.1
  have hidx : g.symbols.idxOf x = g.symbols.idxOf y := by omega
  have hx := (List.idxOf_inj (mem_symbols_of_goto h.1)).1 hidx
  exact ⟨by omega, hx⟩

theorem source_lt_size (h : FirstMove g i x k) : i < (ofGrammar g).size := by
  obtain ⟨I, hI, -⟩ := goto_eq_some_iff.1 h.1
  exact lt_size_of_itemSets hI

theorem lt (h : FirstMove g i x k) (hk : k ≠ 0) : i < k := by
  apply Nat.lt_of_not_le
  intro hle
  obtain ⟨m, hm, hfound⟩ := exists_lt_iff_foundBefore h.source_lt_size 0
  have hsize := lt_size_of_goto h.1
  obtain ⟨n, y, hy, hn⟩ := ((hfound k hsize).1 (Nat.lt_of_le_of_lt hle hm)).resolve_left hk
  have hfirst := h.2 n y hy
  omega

theorem before (h : FirstMove g i x j) (h' : FirstMove g n y k) (hj : j ≠ 0) (hjk : j < k) :
    i < n ∨ i = n ∧ g.symbols.idxOf x < g.symbols.idxOf y := by
  obtain ⟨m, -, hfound⟩ :=
    exists_lt_iff_foundBefore h'.source_lt_size (g.symbols.idxOf y + 1)
  have hk : k < m :=
    (hfound k (lt_size_of_goto h'.1)).2 (.inr ⟨n, y, h'.1, .inr ⟨rfl, Nat.lt_succ_self _⟩⟩)
  obtain ⟨p, z, hz, hp⟩ :=
    ((hfound j (lt_size_of_goto h.1)).1 (Nat.lt_trans hjk hk)).resolve_left hj
  have hfirst := h.2 p z hz
  have hne : ¬ (i = n ∧ g.symbols.idxOf x = g.symbols.idxOf y) := by
    intro hsame
    obtain ⟨rfl, hidx⟩ := hsame
    obtain rfl := (List.idxOf_inj (mem_symbols_of_goto h.1)).1 hidx
    have heq := Option.some.inj (h.1.symm.trans h'.1)
    omega
  omega

end FirstMove

/-- The sequence of the first moves that lead from the initial state to state `k`. -/
inductive FirstPath (g : Grammar) : List Symbol → Nat → Prop where
  | nil : FirstPath g [] 0
  | concat {α : List Symbol} {i k : Nat} {x : Symbol} (h : FirstPath g α i)
    (hx : FirstMove g i x k) (hk : k ≠ 0) : FirstPath g (α ++ [x]) k

theorem exists_firstPath (hk : k < (ofGrammar g).size) : ∃ α, FirstPath g α k := by
  induction k using Nat.strongRecOn with
  | ind k ih =>
    by_cases hzero : k = 0
    · rw [hzero]
      exact ⟨[], .nil⟩
    · obtain ⟨K, hK⟩ := exists_itemSet hk
      obtain ⟨n, y, hy⟩ := exists_goto_of_ne_zero hK hzero
      obtain ⟨i, x, hx⟩ := exists_firstMove hy
      obtain ⟨α, hα⟩ := ih i (hx.lt hzero) hx.source_lt_size
      exact ⟨α ++ [x], hα.concat hx hzero⟩

namespace FirstPath

theorem follow_eq (h : FirstPath g α k) : (ofGrammar g).follow α = some k := by
  induction h with
  | nil => rfl
  | concat _ hx _ ih =>
    rw [follow_concat, ih]
    exact hx.1

theorem unique (h : FirstPath g α k) (h' : FirstPath g β k) : α = β := by
  induction h generalizing β with
  | nil =>
    cases h' with
    | nil => rfl
    | concat _ _ hk => exact absurd rfl hk
  | concat _ hx hk ih =>
    cases h' with
    | nil => exact absurd rfl hk
    | concat h' hy _ =>
      obtain ⟨rfl, rfl⟩ := hx.unique hy
      rw [ih h']

theorem before (h : FirstPath g α j) (h' : FirstPath g β k) (hjk : j < k) : g.Before α β := by
  induction h' generalizing α j with
  | nil => exact absurd hjk (Nat.not_lt_zero j)
  | concat h' hy _ ih =>
    cases h with
    | nil => exact g.nil_before_concat _ _
    | concat h hx hj =>
      rcases hx.before hy hj hjk with hlt | ⟨rfl, hidx⟩
      · exact (ih h hlt).concat _ _
      · rw [h.unique h']
        exact Grammar.before_concat_of_idxOf_lt _ hidx

/-- No sequence that leads to the state comes before that of the first moves. -/
theorem eq_or_before (h : FirstPath g α k) (hγ : (ofGrammar g).follow γ = some k) :
    γ = α ∨ g.Before α γ := by
  induction γ using List.reverseRecOn generalizing α k with
  | nil =>
    obtain rfl : 0 = k := Option.some.inj hγ
    exact .inl (FirstPath.nil.unique h)
  | append_singleton γ y ih =>
    rw [follow_concat, Option.bind_eq_some_iff] at hγ
    obtain ⟨n, hn, hy⟩ := hγ
    cases h with
    | nil => exact .inr (g.nil_before_concat γ y)
    | @concat α i _ x h hx _ =>
      rcases hx.2 n y hy with hlt | ⟨rfl, hle⟩
      · obtain ⟨β, hβ⟩ := exists_firstPath (lt_size_of_follow hn)
        have hbefore := h.before hβ hlt
        right
        rcases ih hβ hn with rfl | hγ
        · exact hbefore.concat x y
        · exact (hbefore.trans hγ).concat x y
      · rcases ih h hn with rfl | hγ
        · rcases Nat.lt_or_eq_of_le hle with hidx | hidx
          · exact .inr (Grammar.before_concat_of_idxOf_lt _ hidx)
          · rw [(List.idxOf_inj (mem_symbols_of_goto hx.1)).1 hidx]
            exact .inl rfl
        · exact .inr (hγ.concat x y)

end FirstPath

theorem isAccess_iff_firstPath : IsAccess g (ofGrammar g) k α ↔ FirstPath g α k := by
  apply Iff.intro
  · intro h
    obtain ⟨hα, hleast⟩ := h
    obtain ⟨β, hβ⟩ := exists_firstPath (lt_size_of_follow hα)
    rcases hβ.eq_or_before hα with rfl | hbefore
    · exact hβ
    · have hne : β ≠ α := by
        rintro rfl
        exact g.not_before_self β hbefore
      exact absurd (hleast β hβ.follow_eq hne) hbefore.asymm
  · intro h
    refine ⟨h.follow_eq, ?_⟩
    intro β hβ hne
    exact (h.eq_or_before hβ).resolve_left hne

/-- Each state has one first sequence that leads to it, and the numbers of the states are in the
order of these sequences. -/
theorem lt_iff_access_before (g : Grammar) :
    (∀ k < (ofGrammar g).size, ∃! α, IsAccess g (ofGrammar g) k α) ∧
      ∀ j k α β, IsAccess g (ofGrammar g) j α → IsAccess g (ofGrammar g) k β →
        (j < k ↔ g.Before α β) := by
  simp only [isAccess_iff_firstPath]
  apply And.intro
  · intro k hk
    obtain ⟨α, hα⟩ := exists_firstPath hk
    exact ⟨α, hα, fun β hβ => hβ.unique hα⟩
  · intro j k α β hα hβ
    apply Iff.intro
    · exact hα.before hβ
    · intro hbefore
      apply Nat.lt_of_not_le
      intro hle
      rcases Nat.lt_or_eq_of_le hle with hlt | rfl
      · exact hbefore.asymm (hβ.before hα hlt)
      · rw [hα.unique hβ] at hbefore
        exact g.not_before_self β hbefore

/-- State 4 is found again after two `(`, and state 2 after any number of them. -/
theorem access_found_again :
    ∃ g α β, Grammar.load ["S -> ( S )", "S -> a"] ["(", ")", "a"] ["S"] "S" = .ok g ∧
      (ofGrammar g).follow [.terminal "(", .terminal "(", .nonterminal "S"] = some 4 ∧
      (ofGrammar g).follow [.terminal "(", .terminal "(", .terminal "a"] = some 2 ∧
      IsAccess g (ofGrammar g) 2 α ∧ IsAccess g (ofGrammar g) 4 β ∧ g.Before α β := by
  obtain ⟨g, hg, h⟩ := exists_ok_of_any
    (r := Grammar.load ["S -> ( S )", "S -> a"] ["(", ")", "a"] ["S"] "S")
    (p := fun g =>
      (ofGrammar g).follow [.terminal "(", .terminal "(", .nonterminal "S"] = some 4 ∧
      (ofGrammar g).follow [.terminal "(", .terminal "(", .terminal "a"] = some 2)
    (by decide +kernel)
  obtain ⟨hfour, htwo⟩ := of_decide_eq_true h
  obtain ⟨α, hα, -⟩ := (lt_iff_access_before g).1 2 (lt_size_of_follow htwo)
  obtain ⟨β, hβ, -⟩ := (lt_iff_access_before g).1 4 (lt_size_of_follow hfour)
  have hbefore := ((lt_iff_access_before g).2 2 4 α β hα hβ).1 (by decide)
  exact ⟨g, α, β, hg, hfour, htwo, hα, hβ, hbefore⟩

end Automaton

end SimpleLR
