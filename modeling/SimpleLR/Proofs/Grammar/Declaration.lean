import SimpleLR.Grammar.Load
import SimpleLR.Proofs.NameTable

namespace SimpleLR.Vocabulary

variable {v v' : Vocabulary} {a : String} {names terminals nonterminals : List String}

theorem nodup_names (v : Vocabulary) : v.names.Nodup :=
  List.nodup_append'.2 ⟨v.terminals.nodup, v.nonterminals.nodup, v.disjoint⟩

theorem exists_of_names (hnodup : (terminals ++ nonterminals).Nodup)
    (hr : ∀ a ∈ terminals ++ nonterminals, a ∉ reserved) :
    ∃ v : Vocabulary, v.terminals.names = terminals ∧ v.nonterminals.names = nonterminals := by
  obtain ⟨ht, hn, hdisjoint⟩ := List.nodup_append'.1 hnodup
  let v : Vocabulary := {
    terminals := .ofList terminals
    nonterminals := .ofList nonterminals
    disjoint := fun a ha ha' =>
      hdisjoint (NameTable.mem_ofList.1 ha) (NameTable.mem_ofList.1 ha')
    unreserved := fun a ha => hr a <|
      List.mem_append.2 (ha.imp NameTable.mem_ofList.1 NameTable.mem_ofList.1) }
  exact ⟨v, NameTable.names_ofList_of_nodup ht, NameTable.names_ofList_of_nodup hn⟩

theorem declareTerminal_eq_ok_iff : v.declareTerminal a = .ok v' ↔
    a ∉ reserved ∧ a ∉ v.names ∧ v'.terminals.names = v.terminals.names ++ [a] ∧
      v'.nonterminals = v.nonterminals := by
  unfold declareTerminal
  split
  · simp [*]
  · split
    · simp [mem_names, *]
    · rename_i hr hd
      have hnew : (v.terminals.insert a).names = v.terminals.names ++ [a] := by
        rw [NameTable.names_insert, if_neg fun h => hd (.inl h)]
      rw [Except.ok.injEq, Vocabulary.ext_iff, NameTable.ext_iff, hnew, mem_names]
      simp only [hr, hd, not_false_eq_true, true_and, eq_comm]

theorem declareNonterminal_eq_ok_iff : v.declareNonterminal a = .ok v' ↔
    a ∉ reserved ∧ a ∉ v.names ∧ v'.terminals = v.terminals ∧
      v'.nonterminals.names = v.nonterminals.names ++ [a] := by
  unfold declareNonterminal
  split
  · simp [*]
  · split
    · simp [mem_names, *]
    · rename_i hr hd
      have hnew : (v.nonterminals.insert a).names = v.nonterminals.names ++ [a] := by
        rw [NameTable.names_insert, if_neg fun h => hd (.inr h)]
      rw [Except.ok.injEq, Vocabulary.ext_iff, NameTable.ext_iff (y := v'.nonterminals), hnew,
        mem_names]
      simp only [hr, hd, not_false_eq_true, true_and, eq_comm]

theorem exists_declareTerminal (hr : a ∉ reserved) (hd : a ∉ v.names) :
    ∃ m, v.declareTerminal a = .ok m := by
  rw [mem_names] at hd
  exact ⟨_, (dif_neg hr).trans (dif_neg hd)⟩

theorem exists_declareNonterminal (hr : a ∉ reserved) (hd : a ∉ v.names) :
    ∃ m, v.declareNonterminal a = .ok m := by
  rw [mem_names] at hd
  exact ⟨_, (dif_neg hr).trans (dif_neg hd)⟩

theorem not_mem_names_of_perm {ns : List String} (h : v'.names.Perm (v.names ++ a :: ns)) :
    a ∉ reserved ∧ a ∉ v.names := by
  have ha : a ∈ v'.names := h.mem_iff.2 (List.mem_append_right _ List.mem_cons_self)
  have hnodup := h.nodup_iff.1 v'.nodup_names
  refine ⟨v'.unreserved a (mem_names.1 ha), ?_⟩
  intro hv
  exact List.disjoint_of_nodup_append hnodup hv List.mem_cons_self

theorem foldlM_declareTerminal_eq_ok_iff : names.foldlM declareTerminal v = .ok v' ↔
    v'.terminals.names = v.terminals.names ++ names ∧ v'.nonterminals = v.nonterminals := by
  apply foldlM_eq_ok_iff (R := fun (v : Vocabulary) names (v' : Vocabulary) =>
    v'.terminals.names = v.terminals.names ++ names ∧ v'.nonterminals = v.nonterminals)
  · intro v v'
    rw [List.append_nil, ← NameTable.ext_iff, eq_comm (a := v), Vocabulary.ext_iff]
  · intro v a names v'
    constructor
    · intro h
      obtain ⟨ht, hn⟩ := h
      have hnames : v'.names.Perm (v.names ++ a :: names) := by
        rw [Vocabulary.names, Vocabulary.names, ht, hn, List.append_assoc, List.append_assoc]
        exact List.perm_append_comm.append_left _
      obtain ⟨hr, hd⟩ := not_mem_names_of_perm hnames
      obtain ⟨m, hm⟩ := exists_declareTerminal hr hd
      obtain ⟨-, -, hmt, hmn⟩ := declareTerminal_eq_ok_iff.1 hm
      refine ⟨m, hm, ?_, hn.trans hmn.symm⟩
      rw [ht, hmt, List.append_assoc, List.singleton_append]
    · intro h
      obtain ⟨m, hm, ht, hn⟩ := h
      obtain ⟨-, -, hmt, hmn⟩ := declareTerminal_eq_ok_iff.1 hm
      refine ⟨?_, hn.trans hmn⟩
      rw [ht, hmt, List.append_assoc, List.singleton_append]

theorem foldlM_declareNonterminal_eq_ok_iff : names.foldlM declareNonterminal v = .ok v' ↔
    v'.terminals = v.terminals ∧ v'.nonterminals.names = v.nonterminals.names ++ names := by
  apply foldlM_eq_ok_iff (R := fun (v : Vocabulary) names (v' : Vocabulary) =>
    v'.terminals = v.terminals ∧ v'.nonterminals.names = v.nonterminals.names ++ names)
  · intro v v'
    rw [List.append_nil, ← NameTable.ext_iff, eq_comm (a := v), Vocabulary.ext_iff]
  · intro v a names v'
    constructor
    · intro h
      obtain ⟨ht, hn⟩ := h
      have hnames : v'.names.Perm (v.names ++ a :: names) := by
        rw [Vocabulary.names, Vocabulary.names, ht, hn, List.append_assoc]
      obtain ⟨hr, hd⟩ := not_mem_names_of_perm hnames
      obtain ⟨m, hm⟩ := exists_declareNonterminal hr hd
      obtain ⟨-, -, hmt, hmn⟩ := declareNonterminal_eq_ok_iff.1 hm
      refine ⟨m, hm, ht.trans hmt.symm, ?_⟩
      rw [hn, hmn, List.append_assoc, List.singleton_append]
    · intro h
      obtain ⟨m, hm, ht, hn⟩ := h
      obtain ⟨-, -, hmt, hmn⟩ := declareNonterminal_eq_ok_iff.1 hm
      refine ⟨ht.trans hmt, ?_⟩
      rw [hn, hmn, List.append_assoc, List.singleton_append]

theorem declare_eq_ok_iff : declare terminals nonterminals = .ok v ↔
    v.terminals.names = terminals ∧ v.nonterminals.names = nonterminals := by
  have hnone : (∅ : Vocabulary).terminals.names = [] ∧ (∅ : Vocabulary).nonterminals = ∅ :=
    ⟨rfl, rfl⟩
  unfold declare
  constructor
  · intro h
    obtain ⟨m, hm, h⟩ := bind_eq_ok_iff.1 h
    obtain ⟨hmt, hmn⟩ := foldlM_declareTerminal_eq_ok_iff.1 hm
    obtain ⟨ht, hn⟩ := foldlM_declareNonterminal_eq_ok_iff.1 h
    rw [ht, hn, hmt, hmn, hnone.1, hnone.2]
    exact ⟨rfl, rfl⟩
  · intro h
    obtain ⟨rfl, rfl⟩ := h
    let m : Vocabulary :=
      ⟨v.terminals, ∅, fun _ _ => NameTable.not_mem_empty _,
        fun a ha => v.unreserved a (ha.imp_right fun hn => absurd hn (NameTable.not_mem_empty a))⟩
    have hm : v.terminals.names.foldlM declareTerminal ∅ = .ok m :=
      foldlM_declareTerminal_eq_ok_iff.2 ⟨rfl, rfl⟩
    rw [hm]
    exact foldlM_declareNonterminal_eq_ok_iff.2 ⟨rfl, rfl⟩

end SimpleLR.Vocabulary
