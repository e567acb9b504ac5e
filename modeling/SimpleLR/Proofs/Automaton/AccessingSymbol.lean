import SimpleLR.Proofs.Automaton.ViablePrefix

namespace SimpleLR

variable {g : Grammar} {I J : ItemSet} {x y : Symbol} {i : Item}

namespace Item

def previous? (g : Grammar) (i : Item) : Option Symbol :=
  match i.dot with
  | 0 => none
  | d + 1 => next? g ⟨i.production, d⟩

theorem previous?_advance (g : Grammar) (i : Item) : i.advance.previous? g = i.next? g :=
  rfl

end Item

namespace ItemSet

def kernel (I : ItemSet) : ItemSet :=
  I.filter (0 < ·.dot)

theorem mem_kernel : i ∈ kernel I ↔ i ∈ I ∧ 0 < i.dot := by
  simp [kernel]

theorem kernel_closure_start (g : Grammar) : kernel (closure g {⟨0, 0⟩}) = ∅ := by
  apply Std.ExtTreeSet.eq_empty_iff_forall_not_mem.2
  intro i hi
  obtain ⟨hi, hdot⟩ := mem_kernel.1 hi
  exact Nat.ne_of_gt hdot (dot_eq_zero_of_mem_closure_start hi)

theorem kernel_goto (g : Grammar) (I : ItemSet) (x : Symbol) :
    kernel (goto g I x) = advance g I x := by
  apply Std.ExtTreeSet.ext_mem
  intro i
  rw [mem_kernel]
  constructor
  · intro h
    exact mem_of_mem_closure h.1 (Nat.ne_of_gt h.2)
  · intro h
    obtain ⟨j, -, -, rfl⟩ := mem_advance.1 h
    exact ⟨mem_closure_of_mem h, Nat.succ_pos j.dot⟩

theorem goto_eq_empty_of_kernel (h : kernel (goto g I x) = ∅) : goto g I x = ∅ := by
  rw [kernel_goto] at h
  rw [goto, h, closure_empty]

theorem previous?_of_mem_kernel_goto (h : i ∈ kernel (goto g I x)) : i.previous? g = some x := by
  rw [kernel_goto] at h
  obtain ⟨j, -, hx, rfl⟩ := mem_advance.1 h
  rw [Item.previous?_advance, hx]

theorem goto_eq_of_kernel_eq (h : kernel (goto g I x) = kernel (goto g J y)) :
    goto g I x = goto g J y := by
  rw [kernel_goto, kernel_goto] at h
  rw [goto, h, goto]

end ItemSet

namespace Automaton

/-- No move leads to the initial state. Those to another one are all over the symbol that is before
the dots of its kernel. Only the kernel of the initial state is empty, and no two states have the
same kernel. -/
structure HasAccessingSymbols (g : Grammar) (a : Automaton) : Prop where
  target_ne_zero : ∀ t ∈ a.transitions, t.target ≠ 0
  symbol_eq : ∀ t ∈ a.transitions, ∀ u ∈ a.transitions, t.target = u.target → t.symbol = u.symbol
  before_dot : ∀ t ∈ a.transitions, ∃ I, a.itemSets[t.target]? = some I ∧ I.kernel ≠ ∅ ∧
    ∀ i ∈ I.kernel, i.previous? g = some t.symbol
  kernel_inj : ∀ (j k : Nat) (I J : ItemSet), a.itemSets[j]? = some I →
    a.itemSets[k]? = some J → I.kernel = J.kernel → j = k
  kernel_zero : ∃ I : ItemSet, a.itemSets[0]? = some I ∧ I.kernel = ∅
  eq_zero : ∀ (j : Nat) (I : ItemSet), a.itemSets[j]? = some I → I.kernel = ∅ → j = 0

variable {j k : Nat}

theorem exists_eq_goto (hI : (ofGrammar g).itemSets[j]? = some I) (hj : j ≠ 0) :
    ∃ J x, I = ItemSet.goto g J x := by
  obtain ⟨i, x, hx⟩ := exists_goto_of_ne_zero hI hj
  obtain ⟨J, -, hJ⟩ := goto_eq_some_iff.1 hx
  exact ⟨J, x, Option.some.inj (hI.symm.trans hJ)⟩

theorem kernel_eq_empty_iff (hI : (ofGrammar g).itemSets[j]? = some I) :
    I.kernel = ∅ ↔ j = 0 := by
  constructor
  · intro h
    apply Decidable.by_contra
    intro hj
    obtain ⟨J, x, rfl⟩ := exists_eq_goto hI hj
    exact ne_empty_of_itemSets hI (ItemSet.goto_eq_empty_of_kernel h)
  · rintro rfl
    rw [itemSets_zero] at hI
    rw [← Option.some.inj hI, ItemSet.kernel_closure_start]

/-- Both states are the initial one, or both are what the move over a symbol makes of their
kernels. -/
theorem eq_of_kernel_eq (hI : (ofGrammar g).itemSets[j]? = some I)
    (hJ : (ofGrammar g).itemSets[k]? = some J) (h : I.kernel = J.kernel) : j = k := by
  have hzero : j = 0 ↔ k = 0 := by
    rw [← kernel_eq_empty_iff hI, ← kernel_eq_empty_iff hJ, h]
  by_cases hj : j = 0
  · rw [hj, hzero.1 hj]
  · obtain ⟨_, _, rfl⟩ := exists_eq_goto hI hj
    obtain ⟨_, _, rfl⟩ := exists_eq_goto hJ (mt hzero.2 hj)
    rw [ItemSet.goto_eq_of_kernel_eq h, ← index?_eq_some_iff] at hI
    rw [← index?_eq_some_iff, hI] at hJ
    exact Option.some.inj hJ

theorem exists_kernel_of_goto (h : (ofGrammar g).goto j x = some k) :
    ∃ I, (ofGrammar g).itemSets[k]? = some I ∧ I.kernel ≠ ∅ ∧
      ∀ i ∈ I.kernel, i.previous? g = some x := by
  obtain ⟨J, -, hk⟩ := goto_eq_some_iff.1 h
  refine ⟨_, hk, ?_, fun i hi => ItemSet.previous?_of_mem_kernel_goto hi⟩
  intro hempty
  exact ne_empty_of_itemSets hk (ItemSet.goto_eq_empty_of_kernel hempty)

theorem symbol_eq_of_goto {i : Nat} (h : (ofGrammar g).goto i x = some k)
    (h' : (ofGrammar g).goto j y = some k) : x = y := by
  obtain ⟨I, hI, hne, hx⟩ := exists_kernel_of_goto h
  obtain ⟨J, hJ, -, hy⟩ := exists_kernel_of_goto h'
  obtain rfl := Option.some.inj (hI.symm.trans hJ)
  obtain ⟨item, hitem⟩ := ItemSet.exists_mem_of_ne_empty hne
  exact Option.some.inj ((hx item hitem).symm.trans (hy item hitem))

theorem hasAccessingSymbols_ofGrammar (g : Grammar) : (ofGrammar g).HasAccessingSymbols g where
  target_ne_zero t ht := by
    rw [mem_transitions] at ht
    intro hzero
    rw [hzero] at ht
    exact goto_ne_zero ht
  symbol_eq t ht u hu htarget := by
    rw [mem_transitions] at ht hu
    rw [← htarget] at hu
    exact symbol_eq_of_goto ht hu
  before_dot t ht := exists_kernel_of_goto (mem_transitions.1 ht)
  kernel_inj _ _ _ _ hI hJ h := eq_of_kernel_eq hI hJ h
  kernel_zero := ⟨_, itemSets_zero g, ItemSet.kernel_closure_start g⟩
  eq_zero _ _ hI := (kernel_eq_empty_iff hI).1

/-- `N` is empty and `S` begins with itself behind it. Moves from two states lead to the one after
`N`, and those over `S` lead to two states. -/
theorem accessingSymbols_past_nullable :
    ∃ g, Grammar.load ["S -> N S a", "S -> b", "N -> ε"] ["a", "b"] ["S", "N"] "S" = .ok g ∧
      (ofGrammar g).HasAccessingSymbols g ∧
      (ofGrammar g).goto 0 (.nonterminal "N") = some 3 ∧
      (ofGrammar g).goto 3 (.nonterminal "N") = some 3 ∧
      (ofGrammar g).goto 0 (.nonterminal "S") = some 2 ∧
      (ofGrammar g).goto 3 (.nonterminal "S") = some 4 := by
  obtain ⟨g, hg, h⟩ := exists_ok_of_any
    (r := Grammar.load ["S -> N S a", "S -> b", "N -> ε"] ["a", "b"] ["S", "N"] "S")
    (p := fun g => (ofGrammar g).goto 0 (.nonterminal "N") = some 3 ∧
      (ofGrammar g).goto 3 (.nonterminal "N") = some 3 ∧
      (ofGrammar g).goto 0 (.nonterminal "S") = some 2 ∧
      (ofGrammar g).goto 3 (.nonterminal "S") = some 4) (by decide +kernel)
  exact ⟨g, hg, hasAccessingSymbols_ofGrammar g, of_decide_eq_true h⟩

end Automaton

end SimpleLR
