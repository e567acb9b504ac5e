import Mathlib.Data.List.Induction
import Mathlib.Data.List.Nodup
import SimpleLR.NameTable

namespace SimpleLR.NameTable

variable {as : List String} {a : String}

theorem ofList_concat (as : List String) (a : String) :
    ofList (as ++ [a]) = (ofList as).insert a :=
  List.foldl_append

theorem names_ofList (as : List String) : (ofList as).names = as.eraseDups := by
  induction as using List.reverseRecOn with
  | nil => rfl
  | append_singleton as a ih =>
    have hmem : a ∈ ofList as ↔ a ∈ as := by rw [mem_iff, ih, List.mem_eraseDups]
    rw [ofList_concat, names_insert, List.eraseDups_append, ih]
    by_cases h : a ∈ as
    · have hnone : [a].removeAll as = [] := by simp [List.removeAll, h]
      rw [if_pos (hmem.2 h), hnone, List.eraseDups_nil, List.append_nil]
    · have hnew : [a].removeAll as = [a] := by simp [List.removeAll, h]
      rw [if_neg (mt hmem.1 h), hnew]
      rfl

theorem mem_ofList : a ∈ ofList as ↔ a ∈ as := by
  rw [mem_iff, names_ofList, List.mem_eraseDups]

theorem names_ofList_of_nodup (h : as.Nodup) : (ofList as).names = as := by
  induction as using List.reverseRecOn with
  | nil => rfl
  | append_singleton as a ih =>
    obtain ⟨has, -, hdisjoint⟩ := List.nodup_append'.1 h
    have ha : a ∉ ofList as := fun hmem => hdisjoint (mem_ofList.1 hmem) List.mem_cons_self
    rw [ofList_concat, names_insert, if_neg ha, ih has]

theorem head?_names_ofList (as : List String) : (ofList as).names.head? = as.head? := by
  rw [names_ofList]
  cases as with
  | nil => rfl
  | cons a as => rw [List.eraseDups_cons, List.head?_cons, List.head?_cons]

theorem prefix_ofList_append (as bs : List String) :
    (ofList as).names <+: (ofList (as ++ bs)).names := by
  induction bs using List.reverseRecOn with
  | nil => simpa only [List.append_nil] using List.prefix_refl (ofList as).names
  | append_singleton bs b ih =>
    rw [← List.append_assoc, ofList_concat]
    exact ih.trans (prefix_insert _ b)

/-- The position that a name is given when it is added stays its position from then on. -/
theorem index?_ofList_append (as : List String) (a : String) (bs : List String) :
    (ofList (as ++ a :: bs)).index? a = some ((ofList as).intern a).1 := by
  have hnow : (ofList (as ++ [a])).name? ((ofList as).intern a).1 = some a := by
    rw [ofList_concat, ← intern_snd]
    exact name?_intern _ a
  have hlater := prefix_ofList_append (as ++ [a]) bs
  rw [List.append_assoc, List.singleton_append] at hlater
  exact index?_eq_some_iff.2 (name?_mono hlater hnow)

/-- Names that are added one after the other are in the table without their repeats. Names and
positions are each other's inverses, a position is never given up, and the tables of two lists of
names are equal, positions included, if their names are. -/
theorem ofList_outcome (as : List String) :
    (ofList as).names = as.eraseDups ∧
      (∀ a i, (ofList as).index? a = some i ↔ (ofList as).name? i = some a) ∧
      (∀ a, (ofList as).contains a ↔ a ∈ as) ∧
      (∀ a, ((ofList as).intern a).2 = ofList (as ++ [a]) ∧
        ∀ bs, (ofList (as ++ a :: bs)).index? a = some ((ofList as).intern a).1) ∧
      ∀ bs, ofList as = ofList bs ↔ (ofList as).names = (ofList bs).names := by
  refine ⟨names_ofList as, fun a i => index?_eq_some_iff, ?_, ?_, fun bs => NameTable.ext_iff⟩
  · intro a
    rw [contains_iff, mem_ofList]
  · intro a
    rw [intern_snd, ofList_concat]
    exact ⟨rfl, index?_ofList_append as a⟩

end SimpleLR.NameTable
