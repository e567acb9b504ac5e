import SimpleLR.Automaton.Collection
import SimpleLR.Proofs.Automaton.Closure

namespace SimpleLR

namespace Collection

variable {g : Grammar} {c d : Collection g} {I J : ItemSet} {i j m n : Nat} {x y : Symbol}
  {xs ys : List Symbol}

theorem lt_length_of_getElem? (h : c.itemSets[i]? = some I) : i < c.itemSets.length :=
  (List.getElem?_eq_some_iff.1 h).1

theorem lt_size_of_getElem? (h : c.itemSets[i]? = some I) : i < c.size := by
  rw [← Automaton.length_itemSets]
  exact lt_length_of_getElem? h

theorem mem_of_index (h : c.index[I]? = some i) : I ∈ c.itemSets :=
  List.mem_of_getElem? ((c.getElem?_index I i).1 h)

theorem exists_index (h : I ∈ c.itemSets) : ∃ i, c.index[I]? = some i := by
  obtain ⟨i, hi⟩ := List.mem_iff_getElem?.1 h
  exact ⟨i, (c.getElem?_index I i).2 hi⟩

theorem itemSets_add (h : I.InRange g) (hnew : c.index[I]? = none) :
    (c.add I h hnew).itemSets = c.itemSets ++ [I] :=
  c.itemSets_addState I

theorem getElem?_intern (h : I.InRange g) :
    (c.intern I h).2.itemSets[(c.intern I h).1]? = some I := by
  unfold intern
  split
  · rename_i i hi
    exact (c.getElem?_index I i).1 hi
  · rw [itemSets_add, ← Automaton.length_itemSets]
    exact List.getElem?_concat_length

theorem itemSets_intern (h : I.InRange g) : (c.intern I h).2.itemSets =
    if I ∈ c.itemSets then c.itemSets else c.itemSets ++ [I] := by
  unfold intern
  split
  · rename_i i hi
    rw [if_pos (mem_of_index hi)]
  · rename_i hnew
    rw [if_neg (not_mem_of_index hnew), itemSets_add]

theorem goto_intern (h : I.InRange g) (m : Nat) (y : Symbol) :
    (c.intern I h).2.goto m y = c.goto m y := by
  unfold intern
  split
  · rfl
  · exact c.goto_addState I m y

theorem move_of_eq_empty (h : ItemSet.goto g I x = ∅) : c.move n I x = c :=
  if_pos h

theorem move_of_ne_empty (h : ItemSet.goto g I x ≠ ∅) : c.move n I x =
    let r := c.intern (ItemSet.goto g I x) (ItemSet.inRange_goto g I x)
    r.2.connect n x r.1 :=
  if_neg h

theorem itemSets_connect (c : Collection g) (i : Nat) (x : Symbol) (j : Nat) :
    (c.connect i x j).itemSets = c.itemSets :=
  c.itemSets_addEdge i x j

theorem itemSets_move (c : Collection g) (n : Nat) (I : ItemSet) (x : Symbol) :
    (c.move n I x).itemSets =
      if ItemSet.goto g I x = ∅ ∨ ItemSet.goto g I x ∈ c.itemSets then c.itemSets
      else c.itemSets ++ [ItemSet.goto g I x] := by
  by_cases h : ItemSet.goto g I x = ∅
  · rw [move_of_eq_empty h, if_pos (.inl h)]
  · rw [move_of_ne_empty h, itemSets_connect, itemSets_intern]
    simp only [h, false_or]

theorem prefix_move (c : Collection g) (n : Nat) (I : ItemSet) (x : Symbol) :
    c.itemSets <+: (c.move n I x).itemSets := by
  rw [itemSets_move]
  split
  · exact List.prefix_refl c.itemSets
  · exact List.prefix_append c.itemSets _

theorem mem_move : J ∈ (c.move n I x).itemSets ↔
    J ∈ c.itemSets ∨ J = ItemSet.goto g I x ∧ J ≠ ∅ := by
  rw [itemSets_move]
  grind

theorem goto_move (hn : n < c.size) (hne : ItemSet.goto g I x ≠ ∅) (m : Nat) (y : Symbol) :
    (c.move n I x).goto m y = if m = n ∧ y = x then (c.move n I x).index[ItemSet.goto g I x]?
      else c.goto m y := by
  have hinRange := ItemSet.inRange_goto g I x
  have hprefix : c.itemSets <+: (c.intern _ hinRange).2.itemSets := by
    rw [itemSets_intern]
    grind
  have hn' : n < (c.intern _ hinRange).2.size := by
    rw [← Automaton.length_itemSets] at hn ⊢
    exact Nat.lt_of_lt_of_le hn hprefix.length_le
  have hindex : (c.intern _ hinRange).2.index[ItemSet.goto g I x]? =
      some (c.intern _ hinRange).1 :=
    (getElem?_index ..).2 (getElem?_intern hinRange)
  rw [move_of_ne_empty hne]
  exact (Automaton.goto_addEdge hn' ..).trans (by rw [goto_intern, ← hindex]; rfl)

/-- The move from state `m` over `x` is one of those from the states before `n` and of those from
state `n` over `xs`. -/
def Made (n : Nat) (xs : List Symbol) (m : Nat) (x : Symbol) : Prop :=
  m < n ∨ m = n ∧ x ∈ xs

theorem made_concat : Made n (xs ++ [x]) m y ↔ Made n xs m y ∨ m = n ∧ y = x := by
  rw [Made, Made, List.mem_append, List.mem_singleton, and_or_left, or_assoc]

theorem made_nil : Made n [] m x ↔ m < n := by
  simp only [Made, List.not_mem_nil, and_false, or_false]

theorem Made.le (h : Made n xs m x) : m ≤ n := by
  rcases h with hlt | ⟨rfl, -⟩
  · exact Nat.le_of_lt hlt
  · exact Nat.le_refl m

/-- Of the moves that have been made, those that lead somewhere are recorded, and nothing else. -/
structure Recorded (c : Collection g) (n : Nat) (xs : List Symbol) : Prop where
  sound : ∀ m x j, c.goto m x = some j → Made n xs m x ∧
    ∃ I, c.itemSets[m]? = some I ∧ c.itemSets[j]? = some (ItemSet.goto g I x)
  complete : ∀ m x I, Made n xs m x → c.itemSets[m]? = some I → ItemSet.goto g I x ≠ ∅ →
    ∃ j, c.goto m x = some j

theorem recorded_initial (g : Grammar) : (initial g).Recorded 0 [] where
  sound m x j h := by
    cases m with
    | zero => cases Std.ExtTreeMap.getElem?_empty.symm.trans h
    | succ m => cases h
  complete m x I h := by
    rcases h with h | ⟨-, h⟩
    · exact absurd h (Nat.not_lt_zero m)
    · exact absurd h List.not_mem_nil

theorem Recorded.skip (h : c.Recorded n xs) (hI : c.itemSets[n]? = some I)
    (hempty : ItemSet.goto g I x = ∅) : c.Recorded n (xs ++ [x]) where
  sound m y j hj := by
    obtain ⟨hmade, hK⟩ := h.sound m y j hj
    exact ⟨made_concat.2 (.inl hmade), hK⟩
  complete m y K hmade hK hne := by
    rcases made_concat.1 hmade with hmade | ⟨rfl, rfl⟩
    · exact h.complete m y K hmade hK hne
    · obtain rfl := Option.some.inj (hI.symm.trans hK)
      exact absurd hempty hne

theorem Recorded.add (h : c.Recorded n xs) (hI : c.itemSets[n]? = some I)
    (hne : ItemSet.goto g I x ≠ ∅) : (c.move n I x).Recorded n (xs ++ [x]) where
  sound m y j hj := by
    have hgrow := prefix_move c n I x
    rw [goto_move (lt_size_of_getElem? hI) hne] at hj
    split at hj
    · rename_i hnew
      obtain ⟨rfl, rfl⟩ := hnew
      have hj := (getElem?_index ..).1 hj
      exact ⟨made_concat.2 (.inr ⟨rfl, rfl⟩), I, getElem?_mono hgrow hI, hj⟩
    · obtain ⟨hmade, K, hK, hj⟩ := h.sound m y j hj
      have hK := getElem?_mono hgrow hK
      exact ⟨made_concat.2 (.inl hmade), K, hK, getElem?_mono hgrow hj⟩
  complete m y K hmade hK hne' := by
    rw [goto_move (lt_size_of_getElem? hI) hne]
    split
    · exact exists_index (mem_move.2 (.inr ⟨rfl, hne⟩))
    · rename_i hold
      have hmade := (made_concat.1 hmade).resolve_right hold
      have hlt : m < c.itemSets.length := Nat.lt_of_le_of_lt hmade.le (lt_length_of_getElem? hI)
      exact h.complete m y K hmade (getElem?_of_mono (prefix_move c n I x) hlt hK) hne'

theorem Recorded.move (h : c.Recorded n xs) (hI : c.itemSets[n]? = some I) (x : Symbol) :
    (c.move n I x).Recorded n (xs ++ [x]) := by
  by_cases hempty : ItemSet.goto g I x = ∅
  · rw [move_of_eq_empty hempty]
    exact h.skip hI hempty
  · exact h.add hI hempty

/-- After the moves over all symbols of the grammar nothing is left to record for a state. -/
theorem Recorded.expanded (h : c.Recorded n g.symbols) : c.Recorded (n + 1) [] where
  sound m x j hj := by
    obtain ⟨hmade, hI⟩ := h.sound m x j hj
    exact ⟨.inl (Nat.lt_succ_of_le hmade.le), hI⟩
  complete m x I hmade hI hne := by
    have hx : x ∈ g.symbols :=
      Decidable.by_contra fun hx => hne (ItemSet.goto_eq_empty_of_not_mem_symbols hx)
    have hle := Nat.le_of_lt_succ (made_nil.1 hmade)
    exact h.complete m x I ((Nat.lt_or_eq_of_le hle).imp_right (⟨·, hx⟩)) hI hne

theorem prefix_moves (c : Collection g) (n : Nat) (I : ItemSet) (xs : List Symbol) :
    c.itemSets <+: (c.moves n I xs).itemSets := by
  induction xs generalizing c with
  | nil => exact List.prefix_refl c.itemSets
  | cons x xs ih => exact (prefix_move c n I x).trans (ih (c.move n I x))

theorem mem_moves : J ∈ (c.moves n I xs).itemSets ↔
    J ∈ c.itemSets ∨ ∃ x ∈ xs, J = ItemSet.goto g I x ∧ J ≠ ∅ := by
  unfold moves
  induction xs generalizing c with
  | nil => simp
  | cons x xs ih =>
    rw [List.foldl_cons, ih, mem_move, or_assoc]
    simp only [List.mem_cons, or_and_right, exists_or, exists_eq_left]

theorem moves_append (c : Collection g) (n : Nat) (I : ItemSet) (xs ys : List Symbol) :
    c.moves n I (xs ++ ys) = (c.moves n I xs).moves n I ys :=
  List.foldl_append

theorem Recorded.moves (h : c.Recorded n xs) (hI : c.itemSets[n]? = some I) (ys : List Symbol) :
    (c.moves n I ys).Recorded n (xs ++ ys) := by
  induction ys generalizing c xs with
  | nil =>
    rw [List.append_nil]
    exact h
  | cons y ys ih =>
    rw [List.append_cons]
    exact ih (h.move hI y) (getElem?_mono (prefix_move c n I y) hI)

theorem prefix_expandFrom (c : Collection g) (n : Nat) :
    c.itemSets <+: (c.expandFrom n).itemSets := by
  fun_induction expandFrom c n with
  | case1 c n hn ih => exact (prefix_moves c n _ _).trans ih
  | case2 c n hn => exact List.prefix_refl c.itemSets

/-- The search for the states of an automaton, round by round. A round makes all moves from the next
state, as long as there is one. -/
inductive Search (g : Grammar) : Nat → Collection g → Prop where
  | initial : Search g 0 (initial g)
  | expand {n : Nat} {c : Collection g} (h : Search g n c) (hn : n < c.itemSets.length) :
    Search g (n + 1) (c.moves n c.itemSets[n] g.symbols)

namespace Search

theorem recorded (h : Search g n c) : c.Recorded n [] := by
  induction h with
  | initial => exact recorded_initial g
  | @expand n c _ hn ih =>
    have h := ih.moves (List.getElem?_eq_getElem hn) g.symbols
    rw [List.nil_append] at h
    exact h.expanded

theorem expandFrom_eq (h : Search g n c) : c.expandFrom n = canonical g := by
  induction h with
  | initial => rfl
  | expand _ hn ih =>
    rw [expandFrom, dif_pos hn] at ih
    exact ih

theorem prefix_canonical (h : Search g n c) : c.itemSets <+: (canonical g).itemSets := by
  rw [← h.expandFrom_eq]
  exact prefix_expandFrom c n

theorem lt_length (h : Search g n c) (hn : n < (canonical g).itemSets.length) :
    n < c.itemSets.length := by
  apply Decidable.by_contra
  intro hend
  have heq := h.expandFrom_eq
  rw [expandFrom, dif_neg hend] at heq
  rw [heq] at hend
  exact hend hn

theorem le_length (h : Search g n c) : n ≤ c.itemSets.length := by
  cases h with
  | initial => exact Nat.zero_le _
  | expand _ hn => exact Nat.lt_of_lt_of_le hn (prefix_moves ..).length_le

theorem empty_not_mem (h : Search g n c) : ∅ ∉ c.itemSets := by
  induction h with
  | initial =>
    intro h
    have hempty : ∅ = ItemSet.closure g {⟨0, 0⟩} := List.mem_singleton.1 h
    have hmem := ItemSet.start_mem_closure g
    rw [← hempty] at hmem
    exact Std.ExtTreeSet.not_mem_empty hmem
  | expand _ _ ih =>
    intro h
    rcases mem_moves.1 h with h' | ⟨_, _, _, hne⟩
    · exact ih h'
    · exact hne rfl

theorem exists_closure (h : Search g n c) (hI : I ∈ c.itemSets) :
    ∃ J, I = ItemSet.closure g J := by
  induction h with
  | initial => exact ⟨_, List.mem_singleton.1 hI⟩
  | expand _ _ ih =>
    rcases mem_moves.1 hI with hI' | ⟨x, _, rfl, _⟩
    · exact ih hI'
    · exact ⟨_, rfl⟩

end Search

theorem exists_search (hn : n ≤ (canonical g).itemSets.length) : ∃ c, Search g n c := by
  induction n with
  | zero => exact ⟨_, .initial⟩
  | succ n ih =>
    obtain ⟨c, hc⟩ := ih (Nat.le_of_succ_le hn)
    exact ⟨_, hc.expand (hc.lt_length hn)⟩

/-- After as many rounds as there are item sets nothing is left to expand. -/
theorem search_canonical (g : Grammar) :
    Search g (canonical g).itemSets.length (canonical g) := by
  obtain ⟨c, hc⟩ := exists_search (Nat.le_refl (canonical g).itemSets.length)
  have heq := hc.expandFrom_eq
  have hend : ¬ (canonical g).itemSets.length < c.itemSets.length :=
    Nat.not_lt.2 hc.prefix_canonical.length_le
  rw [expandFrom, dif_neg hend] at heq
  rwa [heq] at hc

end Collection

end SimpleLR
