import SimpleLR.Proofs.Text
import SimpleLR.Table.Cells

namespace SimpleLR.Cells

open Text

variable {c : Char} {s rest p : List Char} {ps : List (List Char)} {cells : List String} {cell : String}

def trimmed (cell : String) : String :=
  String.ofList (trim cell.toList)

theorem trimmed_eq_iff : trimmed cell = cell ↔ trim cell.toList = cell.toList := by
  rw [trimmed, ← String.toList_inj, String.toList_ofList]

theorem map_trimmed_eq_iff :
    cells.map trimmed = cells ↔ ∀ cell ∈ cells, trim cell.toList = cell.toList := by
  have h := List.map_inj_left (f := trimmed) (g := id) (l := cells)
  simpa only [List.map_id, id_eq, trimmed_eq_iff] using h

def body (cells : List String) : List Char :=
  cells.flatMap fun cell => ' ' :: escape cell.toList ++ [' ', '|']

def padded (cell : String) : List Char :=
  ' ' :: cell.toList ++ [' ']

theorem trim_padded (cell : String) : String.ofList (trim (padded cell)) = trimmed cell := by
  rw [padded, trim_concat (by decide), trim_cons (by decide), trimmed]

theorem parts_nil : parts [] = some [[]] :=
  rfl

theorem parts_plain (h : c ≠ '\\') (h' : c ≠ '|') :
    parts (c :: s) = (parts s).map (·.modifyHead (c :: ·)) := by
  rw [parts]
  · exact fun he _ => h he
  · exact fun _ _ he _ => h he
  · exact h'

theorem parts_cons (h : c ≠ '\\') (h' : c ≠ '|') (hs : parts s = some (p :: ps)) :
    parts (c :: s) = some ((c :: p) :: ps) := by
  rw [parts_plain h h', hs]
  rfl

theorem parts_bar (hs : parts s = some ps) : parts ('|' :: s) = some ([] :: ps) := by
  rw [parts, hs]
  rfl

theorem parts_escaped (c : Char) (hs : parts s = some (p :: ps)) :
    parts ('\\' :: c :: s) = some ((c :: p) :: ps) := by
  rw [parts, hs]
  rfl

/-- Both replacements together put a backslash before each backslash and each bar. -/
theorem escape_eq_flatMap (s : List Char) :
    escape s = s.flatMap fun c => if c = '\\' ∨ c = '|' then ['\\', c] else [c] := by
  rw [escape, replace, replace, List.flatMap_assoc]
  congr 1
  funext c
  by_cases hc : c = '\\'
  · subst c
    rfl
  · by_cases hbar : c = '|'
    · subst c
      rfl
    · rw [if_neg hc, List.flatMap_singleton, if_neg hbar, if_neg (not_or.2 ⟨hc, hbar⟩)]

/-- An escaped text is read as one part, or the beginning of one. -/
theorem parts_escape (s : List Char) (h : parts rest = some (p :: ps)) :
    parts (escape s ++ rest) = some ((s ++ p) :: ps) := by
  rw [escape_eq_flatMap]
  induction s with
  | nil => exact h
  | cons c s ih =>
    rw [List.flatMap_cons, List.append_assoc]
    by_cases hc : c = '\\' ∨ c = '|'
    · rw [if_pos hc]
      exact parts_escaped c ih
    · rw [if_neg hc]
      rw [not_or] at hc
      exact parts_cons hc.1 hc.2 ih

theorem parts_cell (cell : String) (h : parts rest = some (p :: ps)) :
    parts (' ' :: escape cell.toList ++ ' ' :: rest) = some ((padded cell ++ p) :: ps) := by
  have hend := parts_cons (c := ' ') (by decide) (by decide) h
  have hcell := parts_cons (c := ' ') (by decide) (by decide) (parts_escape cell.toList hend)
  simpa only [padded, List.append_assoc, List.cons_append, List.nil_append] using hcell

theorem body_cons (cell : String) (cells : List String) :
    body (cell :: cells) = ' ' :: escape cell.toList ++ ' ' :: '|' :: body cells := by
  simp only [body, List.flatMap_cons, List.append_assoc, List.cons_append, List.nil_append]

theorem body_concat (cells : List String) (cell : String) :
    body (cells ++ [cell]) = body cells ++ (' ' :: escape cell.toList ++ [' ']) ++ ['|'] := by
  simp only [body, List.flatMap_append, List.flatMap_singleton, List.append_assoc,
    List.cons_append, List.nil_append]

theorem parts_body (cells : List String) (h : parts rest = some ps) :
    parts (body cells ++ rest) = some (cells.map padded ++ ps) := by
  induction cells with
  | nil => exact h
  | cons cell cells ih =>
    have hcell := parts_cell cell (parts_bar ih)
    rw [List.append_nil] at hcell
    rw [body_cons, List.append_assoc, List.cons_append, List.cons_append]
    exact hcell

theorem exists_body_eq_concat (h : cells ≠ []) : ∃ u, body cells = u ++ ['|'] ∧
    ∃ ps, parts u = some ps ∧ ps.length = cells.length := by
  rw [← List.dropLast_concat_getLast h]
  generalize cells.dropLast = cs
  have hbody := parts_body cs (parts_cell (cells.getLast h) parts_nil)
  refine ⟨_, body_concat cs _, _, hbody, ?_⟩
  simp only [List.length_append, List.length_map, List.length_singleton]

theorem exists_write_eq (h : cells ≠ []) : ∃ u, write cells = '|' :: u ++ ['|'] := by
  obtain ⟨u, hu, -⟩ := exists_body_eq_concat h
  have hwrite : write cells = '|' :: body cells := rfl
  exact ⟨u, by rw [hwrite, hu, List.cons_append]⟩

theorem trim_write (cells : List String) : trim (write cells) = write cells := by
  by_cases h : cells = []
  · subst h
    rfl
  · obtain ⟨u, hu⟩ := exists_write_eq h
    rw [hu, trim_cons_concat (by decide) (by decide)]

theorem read_eq_some_iff {line : List Char} : read line = some cells ↔
    ∃ s ps, trim line = '|' :: s ∧ parts s = some ps ∧ ps.getLast?.all (·.all isBlank) ∧
      ps.dropLast.map (fun p => String.ofList (trim p)) = cells := by
  constructor
  · intro h
    unfold read at h
    split at h
    · rename_i s hs
      obtain ⟨ps, hps, h⟩ := Option.bind_eq_some_iff.1 h
      split at h
      · exact ⟨s, ps, hs, hps, ‹_›, Option.some.inj h⟩
      · cases h
    · cases h
  · intro h
    obtain ⟨s, ps, hs, hps, hlast, rfl⟩ := h
    rw [read, hs]
    simp only [hps, Option.bind_eq_bind, Option.bind_some, if_pos hlast]

theorem read_of_parts {line : List Char} (hs : trim line = '|' :: s)
    (hps : parts s = some (ps ++ [[]])) :
    read line = some (ps.map fun p => String.ofList (trim p)) := by
  refine read_eq_some_iff.2 ⟨s, _, hs, hps, ?_, ?_⟩
  · rw [List.getLast?_concat]
    rfl
  · rw [List.dropLast_concat]

/-- Blanks around a row do not count, nor do those around its cells. -/
theorem read_of_trim_eq_write {line : List Char} (h : trim line = write cells) :
    read line = some (cells.map trimmed) := by
  have hparts : parts (body cells) = some (cells.map padded ++ [[]]) := by
    have h := parts_body cells parts_nil
    rwa [List.append_nil] at h
  rw [read_of_parts h hparts, List.map_map]
  exact congrArg some (List.map_congr_left fun cell _ => trim_padded cell)

/-- A row is read as the cells that it was written from, without the blanks around them, whatever
characters there are in the cells. -/
theorem read_write_trimmed (cells : List String) :
    read (write cells) = some (cells.map trimmed) :=
  read_of_trim_eq_write (trim_write cells)

/-- Blanks inside a cell stay, and an escaped backslash does not escape the bar after it. -/
example : read (write ["\\|", " a\u3000b\n", ""]) = some ["\\|", "a\u3000b", ""] := by
  decide +kernel

theorem getLast?_write (h : cells ≠ []) : (write cells).getLast? = some '|' := by
  obtain ⟨u, hu⟩ := exists_write_eq h
  rw [hu, List.getLast?_concat]

theorem newline_mem_escape : '\n' ∈ escape s ↔ '\n' ∈ s := by
  simp only [escape_eq_flatMap, List.mem_flatMap]
  apply Iff.intro
  · intro h
    obtain ⟨c, hc, h⟩ := h
    split at h
    · have hne : '\n' ≠ '\\' := by decide
      obtain rfl := List.mem_singleton.1 ((List.mem_cons.1 h).resolve_left hne)
      exact hc
    · obtain rfl := List.mem_singleton.1 h
      exact hc
  · intro h
    exact ⟨'\n', h, List.mem_singleton.2 rfl⟩

theorem newline_mem_write : '\n' ∈ write cells ↔ ∃ cell ∈ cells, '\n' ∈ cell.toList := by
  have hbar : '\n' ≠ '|' := by decide
  have hspace : '\n' ≠ ' ' := by decide
  simp only [write, List.mem_cons, List.mem_flatMap, List.mem_append, newline_mem_escape,
    List.not_mem_nil, hbar, hspace, false_or, or_false]

/-- A row shows the cell as it is: there are no blanks at its ends and no line feeds in it. -/
def Plain (cell : String) : Prop :=
  trim cell.toList = cell.toList ∧ '\n' ∉ cell.toList

instance : DecidablePred Plain :=
  fun cell => inferInstanceAs (Decidable (trim cell.toList = cell.toList ∧ '\n' ∉ cell.toList))

theorem read_write_of_plain (h : ∀ cell ∈ cells, Plain cell) : read (write cells) = some cells := by
  rw [read_of_trim_eq_write (trim_write cells),
    map_trimmed_eq_iff.2 fun cell hcell => (h cell hcell).1]

theorem newline_not_mem_write (h : ∀ cell ∈ cells, Plain cell) : '\n' ∉ write cells := by
  intro hmem
  obtain ⟨cell, hcell, hnewline⟩ := newline_mem_write.1 hmem
  exact (h cell hcell).2 hnewline

theorem read_dropReturn (line : List Char) : read (dropReturn line) = read line := by
  simp only [read, trim_dropReturn]

theorem exists_cons_of_parts (h : parts s = some ps) : ∃ p ps', ps = p :: ps' := by
  fun_induction parts s generalizing ps with
  | case1 => exact ⟨_, _, (Option.some.inj h).symm⟩
  | case2 => cases h
  | case3 c s ih =>
    obtain ⟨qs, hqs, rfl⟩ := Option.map_eq_some_iff.1 h
    obtain ⟨p, ps', rfl⟩ := ih hqs
    exact ⟨_, _, rfl⟩
  | case4 s ih =>
    obtain ⟨qs, hqs, rfl⟩ := Option.map_eq_some_iff.1 h
    exact ⟨_, _, rfl⟩
  | case5 c s _ _ _ ih =>
    obtain ⟨qs, hqs, rfl⟩ := Option.map_eq_some_iff.1 h
    obtain ⟨p, ps', rfl⟩ := ih hqs
    exact ⟨_, _, rfl⟩

theorem length_le_of_parts_append {t : List Char} {qs : List (List Char)} (h : parts s = some qs)
    (h' : parts (s ++ t) = some ps) : qs.length ≤ ps.length := by
  fun_induction parts s generalizing qs ps with
  | case1 =>
    obtain rfl := Option.some.inj h
    obtain ⟨p, ps', rfl⟩ := exists_cons_of_parts h'
    simp
  | case2 => cases h
  | case3 c s ih =>
    obtain ⟨qs, hqs, rfl⟩ := Option.map_eq_some_iff.1 h
    obtain ⟨ps, hps, rfl⟩ := Option.map_eq_some_iff.1 h'
    simpa only [List.length_modifyHead] using ih hqs hps
  | case4 s ih =>
    obtain ⟨qs, hqs, rfl⟩ := Option.map_eq_some_iff.1 h
    obtain ⟨ps, hps, rfl⟩ := Option.map_eq_some_iff.1 h'
    simpa only [List.length_cons, Nat.add_le_add_iff_right] using ih hqs hps
  | case5 c s hlast hescape hbar ih =>
    have hc : c ≠ '\\' := by
      intro he
      cases s with
      | nil => exact hlast he rfl
      | cons d s => exact hescape d s he rfl
    rw [List.cons_append, parts_plain hc hbar] at h'
    obtain ⟨qs, hqs, rfl⟩ := Option.map_eq_some_iff.1 h
    obtain ⟨ps, hps, rfl⟩ := Option.map_eq_some_iff.1 h'
    simpa only [List.length_modifyHead] using ih hqs hps

theorem exists_parts_of_read {line : List Char} (h : read line = some cells) :
    ∃ s ps, trim line = '|' :: s ∧ parts s = some ps ∧ ps.length = cells.length + 1 := by
  obtain ⟨s, ps, hs, hps, -, rfl⟩ := read_eq_some_iff.1 h
  obtain ⟨p, ps', rfl⟩ := exists_cons_of_parts hps
  refine ⟨s, _, hs, hps, ?_⟩
  rw [List.length_map, List.length_dropLast, List.length_cons, Nat.add_sub_cancel]

/-- A row that breaks off before its last bar has fewer cells than it was written from. -/
theorem length_lt_of_read {line v : List Char} {cells' : List String} (hne : cells ≠ [])
    (h : write cells = line ++ v) (hv : v ≠ []) (hread : read line = some cells') :
    cells'.length < cells.length := by
  obtain ⟨u, hu, ps, hps, hlength⟩ := exists_body_eq_concat hne
  obtain ⟨s, qs, htrim, hqs, hlength'⟩ := exists_parts_of_read hread
  cases line with
  | nil => cases htrim
  | cons c line =>
    obtain rfl := (List.cons.inj h).1
    have hbody : body cells = line ++ v := (List.cons.inj h).2
    obtain ⟨s', v', htrim', rfl⟩ := exists_trim_eq_cons (c := '|') (by decide) line
    obtain rfl := (List.cons.inj (htrim'.symm.trans htrim)).2
    have hbefore : u = s' ++ (v' ++ v.dropLast) := by
      rw [hu] at hbody
      have hlast := congrArg List.dropLast hbody
      rwa [List.dropLast_concat, List.dropLast_append_of_ne_nil hv, List.append_assoc] at hlast
    rw [hbefore] at hps
    have hle := length_le_of_parts_append hqs hps
    omega

theorem exists_mem_of_mem_modifyHead {d : Char} (hp : p ∈ ps.modifyHead (d :: ·)) (hc : c ∈ p) :
    c = d ∨ ∃ q ∈ ps, c ∈ q := by
  cases ps with
  | nil => cases hp
  | cons q ps =>
    rcases List.mem_cons.1 hp with rfl | hp
    · rcases List.mem_cons.1 hc with rfl | hc
      · exact .inl rfl
      · exact .inr ⟨q, List.mem_cons_self, hc⟩
    · exact .inr ⟨p, List.mem_cons_of_mem q hp, hc⟩

theorem mem_of_mem_parts (h : parts s = some ps) (hp : p ∈ ps) (hc : c ∈ p) : c ∈ s := by
  fun_induction parts s generalizing ps p with
  | case1 =>
    obtain rfl := Option.some.inj h
    obtain rfl := List.mem_singleton.1 hp
    exact hc
  | case2 => cases h
  | case3 d s ih =>
    obtain ⟨qs, hqs, rfl⟩ := Option.map_eq_some_iff.1 h
    rcases exists_mem_of_mem_modifyHead hp hc with rfl | ⟨q, hq, hc⟩
    · exact List.mem_cons_of_mem _ List.mem_cons_self
    · exact List.mem_cons_of_mem _ (List.mem_cons_of_mem _ (ih hqs hq hc))
  | case4 s ih =>
    obtain ⟨qs, hqs, rfl⟩ := Option.map_eq_some_iff.1 h
    rcases List.mem_cons.1 hp with rfl | hp
    · cases hc
    · exact List.mem_cons_of_mem _ (ih hqs hp hc)
  | case5 d s _ _ _ ih =>
    obtain ⟨qs, hqs, rfl⟩ := Option.map_eq_some_iff.1 h
    rcases exists_mem_of_mem_modifyHead hp hc with rfl | ⟨q, hq, hc⟩
    · exact List.mem_cons_self
    · exact List.mem_cons_of_mem _ (ih hqs hq hc)

theorem plain_of_read {line : List Char} (h : read line = some cells) (hline : '\n' ∉ line) :
    ∀ cell ∈ cells, Plain cell := by
  obtain ⟨s, ps, hs, hps, -, rfl⟩ := read_eq_some_iff.1 h
  intro cell hcell
  obtain ⟨p, hp, rfl⟩ := List.mem_map.1 hcell
  rw [Plain, String.toList_ofList]
  refine ⟨trim_trim p, fun hnewline => hline (mem_of_mem_trim ?_)⟩
  have hmem := mem_of_mem_parts hps (List.dropLast_subset _ hp) (mem_of_mem_trim hnewline)
  rw [hs]
  exact List.mem_cons_of_mem _ hmem

end SimpleLR.Cells
