import Mathlib.Data.List.DropRight
import Mathlib.Data.List.Induction
import SimpleLR.Proofs.Words
import SimpleLR.Text.Line
import SimpleLR.Text.Numeral

namespace SimpleLR.Text

variable {c : Char} {s u : List Char}

theorem trim_cons (h : isBlank c = true) : trim (c :: s) = trim s := by
  rw [trim, List.dropWhile_cons_of_pos h, trim]

theorem trim_concat (h : isBlank c = true) : trim (s ++ [c]) = trim s := by
  rw [trim, List.dropWhile_append, trim]
  split
  · rename_i hs
    rw [List.isEmpty_iff.1 hs, List.dropWhile_cons_of_pos h]
    rfl
  · rw [List.reverse_concat, List.dropWhile_cons_of_pos h]

theorem trim_cons_concat {d : Char} (h : isBlank c = false) (hd : isBlank d = false) :
    trim (c :: s ++ [d]) = c :: s ++ [d] := by
  rw [trim, List.cons_append, List.dropWhile_cons_of_neg (Bool.eq_false_iff.1 h),
    ← List.cons_append, List.reverse_concat, List.dropWhile_cons_of_neg (Bool.eq_false_iff.1 hd),
    ← List.reverse_concat, List.reverse_reverse]

theorem exists_trim_eq_cons (h : isBlank c = false) (s : List Char) :
    ∃ u v, trim (c :: s) = c :: u ∧ s = u ++ v := by
  induction s using List.reverseRecOn with
  | nil =>
    refine ⟨[], [], ?_, rfl⟩
    rw [trim, List.dropWhile_cons_of_neg (Bool.eq_false_iff.1 h), List.reverse_singleton,
      List.dropWhile_cons_of_neg (Bool.eq_false_iff.1 h), List.reverse_singleton]
  | append_singleton s d ih =>
    cases hd : isBlank d with
    | true =>
      obtain ⟨u, v, htrim, hs⟩ := ih
      rw [← List.cons_append, trim_concat hd]
      exact ⟨u, v ++ [d], htrim, by rw [hs, List.append_assoc]⟩
    | false => exact ⟨s ++ [d], [], trim_cons_concat h hd, by rw [List.append_nil]⟩

theorem trim_of_not_blank (h : ∀ c ∈ s, isBlank c = false) : trim s = s := by
  have hdrop {u : List Char} (hu : ∀ c ∈ u, isBlank c = false) : u.dropWhile isBlank = u := by
    cases u with
    | nil => rfl
    | cons c u => exact List.dropWhile_cons_of_neg (Bool.eq_false_iff.1 (hu c List.mem_cons_self))
  rw [trim, hdrop h, hdrop fun c hc => h c (List.mem_reverse.1 hc), List.reverse_reverse]

theorem trim_eq (s : List Char) : trim s = (s.dropWhile isBlank).rdropWhile isBlank :=
  rfl

theorem trim_trim (s : List Char) : trim (trim s) = trim s := by
  cases hs : s.dropWhile isBlank with
  | nil =>
    rw [trim_eq s, hs]
    rfl
  | cons c u =>
    have hc : isBlank c = false := by
      have hhead := List.head?_dropWhile_not isBlank s
      rwa [hs, List.head?_cons] at hhead
    have htrim : trim s = (c :: u).rdropWhile isBlank := by rw [trim_eq, hs]
    obtain ⟨u', -, hu, -⟩ := exists_trim_eq_cons hc u
    rw [trim_eq, List.dropWhile_cons_of_neg (Bool.eq_false_iff.1 hc), ← htrim] at hu
    rw [trim_eq (trim s), hu, List.dropWhile_cons_of_neg (Bool.eq_false_iff.1 hc), ← hu, htrim,
      List.rdropWhile_idempotent]

theorem mem_of_mem_trim (h : c ∈ trim s) : c ∈ s := by
  have h := (List.dropWhile_sublist _).subset (List.mem_reverse.1 h)
  exact (List.dropWhile_sublist _).subset (List.mem_reverse.1 h)

theorem trim_dropReturn (s : List Char) : trim (dropReturn s) = trim s := by
  unfold dropReturn
  split
  · rename_i hs
    obtain ⟨u, rfl⟩ := List.getLast?_eq_some_iff.1 hs
    rw [List.dropLast_concat, trim_concat (by decide)]
  · rfl

theorem lines_append_cons (h : '\n' ∉ u) (s : List Char) :
    lines (u ++ '\n' :: s) = dropReturn u :: lines s := by
  have hsplit : (u ++ '\n' :: s).splitOn '\n' = u :: s.splitOn '\n' := by
    apply List.splitOnP_append_cons_of_forall_mem
    · intro c hc
      apply beq_eq_false_iff_ne.2
      intro he
      exact h (he ▸ hc)
    · rfl
  obtain ⟨part, parts, hparts⟩ := List.exists_cons_of_ne_nil (List.splitOn_ne_nil '\n' s)
  simp only [lines, hsplit, hparts, List.dropLast_cons_cons, List.map_cons, List.getLast?_cons_cons,
    List.cons_append]

theorem mem_of_mem_dropReturn (h : c ∈ dropReturn s) : c ∈ s := by
  unfold dropReturn at h
  split at h
  · exact List.dropLast_subset _ h
  · exact h

theorem mem_dropReturn (hc : c ∈ s) (hne : c ≠ '\r') : c ∈ dropReturn s := by
  unfold dropReturn
  split
  · rename_i hs
    obtain ⟨u, rfl⟩ := List.getLast?_eq_some_iff.1 hs
    rw [List.dropLast_concat]
    exact (List.mem_append.1 hc).resolve_right fun h => hne (List.mem_singleton.1 h)
  · exact hc

theorem newline_not_mem_of_mem_lines {line : List Char} (h : line ∈ lines s) : '\n' ∉ line := by
  have hpart {part : List Char} (hpart : part ∈ s.splitOn '\n') : '\n' ∉ part := by
    intro hmem
    exact Bool.noConfusion (not_separates_of_mem_splitOnP hpart '\n' hmem)
  rcases List.mem_append.1 h with h | h
  · obtain ⟨part, hmem, rfl⟩ := List.mem_map.1 h
    intro hnewline
    exact hpart (List.dropLast_subset _ hmem) (mem_of_mem_dropReturn hnewline)
  · exact hpart (List.mem_of_getLast? (Option.mem_toList.1 h))

theorem not_all_isBlank (h : '|' ∈ s) : (!s.all isBlank) = true := by
  rw [Bool.not_eq_true', List.all_eq_false]
  exact ⟨'|', h, by decide⟩

/-- Lines that end in a bar are read as they are written. -/
theorem filter_lines {ls : List (List Char)}
    (h : ∀ l ∈ ls, l.getLast? = some '|' ∧ '\n' ∉ l) :
    (lines (ls.flatMap (· ++ ['\n']))).filter (fun line => !line.all isBlank) = ls := by
  induction ls with
  | nil => rfl
  | cons l ls ih =>
    obtain ⟨⟨hlast, hnewline⟩, hls⟩ := List.forall_mem_cons.1 h
    have hreturn : dropReturn l = l := by
      rw [dropReturn, hlast, if_neg (by decide)]
    have hbar := not_all_isBlank (List.mem_of_getLast? hlast)
    rw [List.flatMap_cons, List.append_assoc, List.singleton_append, lines_append_cons hnewline,
      hreturn, List.filter_cons_of_pos (by exact hbar), ih hls]

theorem not_isBlank_of_isDigit (h : c.isDigit) : isBlank c = false := by
  simp only [Char.isDigit, Bool.and_eq_true, decide_eq_true_eq, ge_iff_le,
    UInt32.le_iff_toNat_le] at h
  have hlow : 48 ≤ c.toNat := h.1
  have hhigh : c.toNat ≤ 57 := h.2
  apply Bool.eq_false_iff.2
  intro hblank
  obtain ⟨r, hr, hbounds⟩ := CharClass.contains_iff.1 hblank
  simp only [blanks, List.mem_cons, List.not_mem_nil, or_false] at hr
  rcases hr with rfl | rfl | rfl | rfl | rfl | rfl | rfl | rfl | rfl | rfl <;> omega

theorem readNat_toString {n : Nat} (h : n < numeralBound) :
    readNat (toString n).toList = some n := by
  have hdigits : (toString n).toList = Nat.toDigits 10 n := Nat.toList_repr
  have hall : ∀ c ∈ Nat.toDigits 10 n, c.isDigit :=
    fun c hc => Nat.isDigit_of_mem_toDigits (by decide) (by decide) hc
  have hplus : dropPlus (Nat.toDigits 10 n) = Nat.toDigits 10 n := by
    unfold dropPlus
    split
    · rename_i he
      rw [he] at hall
      exact absurd (hall '+' List.mem_cons_self) (by decide)
    · rfl
  have hvalue : Nat.ofDigitChars 10 (Nat.toDigits 10 n) 0 = n :=
    Nat.ofDigitChars_toDigits (by decide) (by decide)
  simp only [readNat, hdigits, hplus, hvalue]
  rw [if_pos ⟨Nat.toDigits_ne_nil, List.all_eq_true.2 hall⟩, if_pos h]

end SimpleLR.Text
