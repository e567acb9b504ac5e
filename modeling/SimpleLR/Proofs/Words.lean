import SimpleLR.Text.Blank

namespace SimpleLR.Text

variable {c : Char} {s u w : List Char} {separates : Char → Bool} {a : String}

/-- A name that a text can hold as one of its words. -/
def IsWord (a : String) : Prop :=
  a ≠ "" ∧ ∀ c ∈ a.toList, isBlank c = false

instance : DecidablePred IsWord :=
  fun a => decidable_of_iff (a ≠ "" ∧ a.toList.all fun c => !isBlank c) (by simp [IsWord])

theorem runs_append_cons (hc : separates c = true) (s u : List Char) :
    runs separates (s ++ c :: u) = runs separates s ++ runs separates u := by
  rw [runs, List.splitOnP_append_cons s u hc, List.filter_append, runs, runs]

theorem runs_of_not_separates (hne : s ≠ []) (h : ∀ c ∈ s, separates c = false) :
    runs separates s = [s] := by
  rw [runs, List.splitOnP_eq_singleton h, List.filter_cons_of_pos (by simpa using hne),
    List.filter_nil]

theorem not_separates_of_mem_splitOnP {α : Type} {separates : α → Bool} {s w : List α}
    (h : w ∈ s.splitOnP separates) : ∀ c ∈ w, separates c = false := by
  induction s generalizing w with
  | nil =>
    obtain rfl : w = [] := by simpa [List.splitOnP_nil] using h
    exact fun c hc => absurd hc List.not_mem_nil
  | cons d s ih =>
    obtain ⟨part, parts, hparts⟩ := List.exists_cons_of_ne_nil (List.splitOnP_ne_nil separates s)
    rw [hparts] at ih
    rw [List.splitOnP_cons_eq_if_modifyHead, hparts] at h
    split at h
    · rcases List.mem_cons.1 h with rfl | h
      · exact fun c hc => absurd hc List.not_mem_nil
      · exact ih h
    · rename_i hd
      rw [List.modifyHead_cons] at h
      rcases List.mem_cons.1 h with rfl | h
      · intro c hc
        rcases List.mem_cons.1 hc with rfl | hc
        · exact Bool.eq_false_iff.2 hd
        · exact ih List.mem_cons_self c hc
      · exact ih (List.mem_cons_of_mem part h)

theorem append_eq_append_cons {α : Type} {s u v w : List α} {x : α}
    (h : s ++ u = v ++ x :: w) :
    (∃ s', s = v ++ x :: s' ∧ w = s' ++ u) ∨ ∃ v', v = s ++ v' ∧ u = v' ++ x :: w := by
  rcases List.append_eq_append_iff.1 h with ⟨v', hv, hu⟩ | ⟨s', hs, hw⟩
  · exact .inr ⟨v', hv, hu⟩
  · cases s' with
    | nil =>
      rw [List.append_nil] at hs
      exact .inr ⟨[], by rw [hs, List.append_nil], hw.symm⟩
    | cons y s' =>
      obtain ⟨rfl, rfl⟩ := List.cons.inj hw
      exact .inl ⟨s', hs, rfl⟩

section

variable {α : Type} [DecidableEq α] {x : α}

theorem splitOn_cons_self (s : List α) : (x :: s).splitOn x = [] :: s.splitOn x := by
  rw [List.splitOn, List.splitOnP_cons_eq_if_modifyHead, if_pos (beq_self_eq_true x)]
  rfl

theorem splitOn_append {s u l : List α} {ls : List (List α)} (hs : x ∉ s)
    (hu : u.splitOn x = l :: ls) : (s ++ u).splitOn x = (s ++ l) :: ls := by
  induction s with
  | nil => exact hu
  | cons y s ih =>
    have hne : ¬ (y == x) = true := by
      rw [beq_iff_eq]
      rintro rfl
      exact hs List.mem_cons_self
    have htail := ih fun hmem => hs (List.mem_cons_of_mem y hmem)
    rw [List.splitOn] at htail
    rw [List.cons_append, List.splitOn, List.splitOnP_cons_eq_if_modifyHead, if_neg hne, htail]
    rfl

theorem exists_splitOn_cons (x : α) (u : List α) :
    ∃ l ls, u.splitOn x = l :: ls ∧ x ∉ l ∧ ∀ y ∈ l.head?, y ∈ u.head? := by
  cases u with
  | nil => exact ⟨[], [], rfl, List.not_mem_nil, nofun⟩
  | cons y u =>
    by_cases heq : y = x
    · subst heq
      exact ⟨[], u.splitOn y, splitOn_cons_self u, List.not_mem_nil, nofun⟩
    · obtain ⟨l, ls, hl⟩ := List.exists_cons_of_ne_nil (List.splitOn_ne_nil x u)
      have hnot : x ∉ l := fun hmem => by
        have := not_separates_of_mem_splitOnP (hl ▸ List.mem_cons_self) x hmem
        simp at this
      have hy : x ∉ [y] := fun hmem => heq (List.mem_singleton.1 hmem).symm
      refine ⟨y :: l, ls, splitOn_append hy hl, ?_, fun z hz => hz⟩
      exact fun hmem => hnot (List.mem_of_ne_of_mem (Ne.symm heq) hmem)

/-- What is put behind a list goes to its last part. -/
theorem exists_splitOn_append {s u : List α} (h : x ∉ u) :
    ∃ parts part, s.splitOn x = parts ++ [part] ∧ (s ++ u).splitOn x = parts ++ [part ++ u] := by
  induction s with
  | nil =>
    refine ⟨[], [], rfl, List.splitOnP_eq_singleton fun y hy => ?_⟩
    rw [beq_eq_false_iff_ne]
    rintro rfl
    exact h hy
  | cons y s ih =>
    obtain ⟨parts, part, hs, hu⟩ := ih
    by_cases heq : y = x
    · subst heq
      rw [List.cons_append, splitOn_cons_self, splitOn_cons_self, hs, hu]
      exact ⟨[] :: parts, part, rfl, rfl⟩
    · have hy : x ∉ [y] := fun hmem => heq (List.mem_singleton.1 hmem).symm
      cases parts with
      | nil => exact ⟨[], y :: part, splitOn_append hy hs, splitOn_append hy hu⟩
      | cons p parts => exact ⟨(y :: p) :: parts, part, splitOn_append hy hs, splitOn_append hy hu⟩

end

theorem isWord_of_mem_words {s : String} (h : a ∈ words s) : IsWord a := by
  obtain ⟨w, hw, rfl⟩ := List.mem_map.1 h
  constructor
  · intro he
    exact ne_nil_of_mem_runs hw (String.ofList_eq_empty_iff.1 he)
  · rw [String.toList_ofList]
    exact not_separates_of_mem_splitOnP (List.mem_filter.1 hw).1

theorem words_of_isWord (h : IsWord a) : words a = [a] := by
  have hne : a.toList ≠ [] := fun he => h.1 (String.toList_eq_nil_iff.1 he)
  rw [words, runs_of_not_separates hne h.2, List.map_singleton, String.ofList_toList]

/-- Words put together with spaces fall apart again, each into its own words. -/
theorem words_intercalate (ws : List String) : words (" ".intercalate ws) = ws.flatMap words := by
  induction ws with
  | nil => rfl
  | cons a ws ih =>
    cases ws with
    | nil => rw [String.intercalate_singleton, List.flatMap_singleton]
    | cons b ws =>
      have hspace : (a ++ " " ++ " ".intercalate (b :: ws)).toList =
          a.toList ++ ' ' :: (" ".intercalate (b :: ws)).toList := by
        rw [String.toList_append, String.toList_append, List.append_assoc]
        rfl
      rw [String.intercalate_cons_cons, words, hspace, runs_append_cons (by decide),
        List.map_append, List.flatMap_cons, ← ih, words, words]

theorem flatMap_words_eq_self_iff {ws : List String} :
    ws.flatMap words = ws ↔ ∀ a ∈ ws, IsWord a := by
  constructor
  · intro h a ha
    rw [← h] at ha
    obtain ⟨b, -, ha⟩ := List.mem_flatMap.1 ha
    exact isWord_of_mem_words ha
  · intro h
    induction ws with
    | nil => rfl
    | cons a ws ih =>
      obtain ⟨ha, h⟩ := List.forall_mem_cons.1 h
      rw [List.flatMap_cons, words_of_isWord ha, ih h, List.singleton_append]

end SimpleLR.Text
