import Mathlib.Order.Bounds.Basic
import SimpleLR.Proofs.Grammar.Declaration
import SimpleLR.Proofs.Grammar.Load

namespace SimpleLR

def withQuotes (a : String) (k : Nat) : String :=
  a ++ String.join (List.replicate k "'")

section

variable {names : List String} {a : String} {k : Nat}

theorem withQuotes_zero (a : String) : withQuotes a 0 = a :=
  String.append_empty

theorem withQuotes_succ (a : String) (k : Nat) :
    withQuotes a (k + 1) = withQuotes (a ++ "'") k := by
  rw [withQuotes, List.replicate_succ, String.join_cons, ← String.append_assoc, withQuotes]

theorem length_withQuotes (a : String) (k : Nat) : (withQuotes a k).length = a.length + k := by
  induction k generalizing a with
  | zero => rw [withQuotes_zero, Nat.add_zero]
  | succ k ih =>
    have hquote : (a ++ "'").length = a.length + 1 := String.length_append ..
    rw [withQuotes_succ, ih, hquote]
    omega

theorem withQuotes_injective (a : String) : Function.Injective (withQuotes a) := by
  intro j k h
  have hlength := congrArg String.length h
  rw [length_withQuotes, length_withQuotes] at hlength
  omega

theorem le_length_of_taken (h : ∀ j < k, withQuotes a j ∈ names) : k ≤ names.length := by
  have hnodup : ((List.range k).map (withQuotes a)).Nodup :=
    List.nodup_range.map (withQuotes_injective a)
  have hsub : (List.range k).map (withQuotes a) ⊆ names := by
    intro b hb
    obtain ⟨j, hj, rfl⟩ := List.mem_map.1 hb
    exact h j (List.mem_range.1 hj)
  simpa only [List.length_map, List.length_range] using hnodup.length_le_of_subset hsub

end

namespace Vocabulary

theorem exists_freshen_eq (v : Vocabulary) (a : String) :
    ∃ k, v.freshen a = withQuotes a k ∧ ∀ j < k, withQuotes a j ∈ v.names := by
  fun_induction v.freshen a with
  | case1 a ha ih =>
    obtain ⟨k, hk, htaken⟩ := ih
    refine ⟨k + 1, hk.trans (withQuotes_succ a k).symm, ?_⟩
    intro j hj
    cases j with
    | zero => rwa [withQuotes_zero]
    | succ j =>
      rw [withQuotes_succ]
      exact htaken j (Nat.lt_of_succ_lt_succ hj)
  | case2 a _ => exact ⟨0, (withQuotes_zero a).symm, fun _ hj => absurd hj (Nat.not_lt_zero _)⟩

/-- A taken name gets the fewest quotes that make it new: one at least, and no more than there are
names. -/
theorem exists_freshen_isLeast {v : Vocabulary} {a : String} (ha : a ∈ v.names) :
    ∃ k, v.freshen (a ++ "'") = withQuotes a k ∧
      IsLeast {k | 1 ≤ k ∧ withQuotes a k ∉ v.names} k ∧ k ≤ v.names.length := by
  obtain ⟨k, hk, htaken⟩ := v.exists_freshen_eq a
  have hnew : withQuotes a k ∉ v.names := by
    rw [← hk]
    exact v.freshen_not_mem a
  have hpos : 1 ≤ k := by
    apply Nat.one_le_iff_ne_zero.2
    rintro rfl
    rw [withQuotes_zero] at hnew
    exact hnew ha
  have hleast : ∀ j, 1 ≤ j ∧ withQuotes a j ∉ v.names → k ≤ j := by
    intro j hj
    by_contra hlt
    exact hj.2 (htaken j (Nat.lt_of_not_le hlt))
  rw [freshen, if_pos ha] at hk
  exact ⟨k, hk, ⟨⟨hpos, hnew⟩, hleast⟩, le_length_of_taken htaken⟩

end Vocabulary

namespace Grammar

variable {g : Grammar} {rules terminals nonterminals : List String} {start : String}

theorem lhs_ne_augmentedStart {p : Production} (hp : p ∈ g.rules) : p.lhs ≠ g.augmentedStart :=
  fun he => g.augmentedStart_not_mem.2 (he ▸ (g.rules_over p hp).1)

theorem exists_lhs_eq_augmentedStart_iff {i : Nat} :
    (∃ p, g.productions[i]? = some p ∧ p.lhs = g.augmentedStart) ↔ i = 0 := by
  cases i with
  | zero => exact iff_of_true ⟨g.startProduction, rfl, rfl⟩ rfl
  | succ i =>
    refine iff_of_false ?_ (Nat.succ_ne_zero i)
    intro h
    obtain ⟨p, hp, he⟩ := h
    exact lhs_ne_augmentedStart (List.mem_of_getElem? hp) he

/-- The augmented start is the start symbol with as few quotes behind it, one at least, as make it
a new name, which takes no more quotes than there are declared names. The first production leads
from it and no other does, and none leads to it. -/
theorem augmentedStart_fresh (h : load rules terminals nonterminals start = .ok g) :
    (∃ k, g.augmentedStart = withQuotes start k ∧
        IsLeast {k | 1 ≤ k ∧ withQuotes start k ∉ terminals ++ nonterminals} k ∧
        k ≤ (terminals ++ nonterminals).length) ∧
      (∀ i, (∃ p, g.productions[i]? = some p ∧ p.lhs = g.augmentedStart) ↔ i = 0) ∧
      ∀ p ∈ g.productions,
        .terminal g.augmentedStart ∉ p.rhs ∧ .nonterminal g.augmentedStart ∉ p.rhs := by
  obtain ⟨hdeclare, rfl, haug, -⟩ := load_eq_ok_iff.1 h
  obtain ⟨rfl, rfl⟩ := Vocabulary.declare_eq_ok_iff.1 hdeclare
  have hstart : g.start ∈ g.names := List.mem_append_right _ g.start_mem
  obtain ⟨k, hk, hleast, hle⟩ := Vocabulary.exists_freshen_isLeast hstart
  refine ⟨⟨k, haug.trans hk, hleast, hle⟩, fun i => exists_lhs_eq_augmentedStart_iff, ?_⟩
  intro p hp
  exact ⟨fun hx => name_ne_augmentedStart hp hx rfl, fun hx => name_ne_augmentedStart hp hx rfl⟩

/-- The names with one, two and four quotes are declared, so that three quotes are added. -/
theorem augmentedStart_with_three_quotes : ∃ g,
    load ["S -> S' S''", "S'' -> ε", "S'' -> S''''"] ["S'", "S''''"] ["S", "S''"] "S" = .ok g ∧
      g.augmentedStart = "S'''" ∧
      IsLeast {k | 1 ≤ k ∧ withQuotes "S" k ∉ ["S'", "S''''", "S", "S''"]} 3 ∧
      (∀ i, (∃ p, g.productions[i]? = some p ∧ p.lhs = "S'''") ↔ i = 0) ∧
      ∀ p ∈ g.productions, .terminal "S'''" ∉ p.rhs ∧ .nonterminal "S'''" ∉ p.rhs := by
  obtain ⟨g, hg, hcheck⟩ := exists_ok_of_any
    (r := load ["S -> S' S''", "S'' -> ε", "S'' -> S''''"] ["S'", "S''''"] ["S", "S''"] "S")
    (p := fun g => g.augmentedStart = "S'''") (by decide +kernel)
  have haug : g.augmentedStart = "S'''" := of_decide_eq_true hcheck
  obtain ⟨⟨k, hk, hleast, -⟩, hlhs, hrhs⟩ := augmentedStart_fresh hg
  rw [haug] at hk hlhs hrhs
  have hthree : withQuotes "S" 3 = "S'''" := by decide +kernel
  obtain rfl := withQuotes_injective "S" (hthree.trans hk)
  exact ⟨g, hg, haug, hleast, hlhs, hrhs⟩

end Grammar

end SimpleLR
