import Mathlib.Data.List.Basic
import SimpleLR.Outcome
import SimpleLR.Proofs.Table.Rows

namespace SimpleLR

open Text

variable {g g' : Grammar} {t : ParseTable} {c : Char} {s u : List Char} {cell : String}

def Vocabulary.Plain (v : Vocabulary) : Prop :=
  ∀ a ∈ v.names, Cells.Plain a

instance : DecidablePred Vocabulary.Plain :=
  fun v => List.decidableBAll Cells.Plain v.names

namespace Grammar

theorem headers_eq (g : Grammar) :
    g.headers = "State" :: g.terminals.names ++ endName :: g.nonterminals.names := by
  simp only [headers, columns, List.map_append, List.map_cons, List.map_map, Function.comp_def,
    Symbol.name, List.map_id', List.cons_append]

theorem headers_ne_nil (g : Grammar) : g.headers ≠ [] :=
  List.cons_ne_nil _ _

theorem mem_headers : cell ∈ g.headers ↔ cell = "State" ∨ cell = endName ∨ cell ∈ g.names := by
  rw [headers_eq, List.cons_append, List.mem_cons, List.mem_append, List.mem_cons,
    Vocabulary.names, List.mem_append, or_left_comm (a := cell ∈ g.terminals.names)]

theorem plain_headers : (∀ cell ∈ g.headers, Cells.Plain cell) ↔ g.Plain := by
  apply Iff.intro
  · intro h a ha
    exact h a (mem_headers.2 (.inr (.inr ha)))
  · intro h cell hcell
    rcases mem_headers.1 hcell with rfl | rfl | ha
    · decide
    · decide
    · exact h cell ha

/-- The end marker tells the terminals and the nonterminals apart. -/
theorem headers_inj :
    g.headers = g'.headers ↔ g.terminals = g'.terminals ∧ g.nonterminals = g'.nonterminals := by
  have hterminals : endName ∉ g.terminals.names :=
    fun h => g.unreserved endName (.inl h) (by decide)
  have hnonterminals : endName ∉ g.nonterminals.names :=
    fun h => g.unreserved endName (.inr h) (by decide)
  rw [headers_eq, headers_eq, List.cons_append, List.cons_append, List.cons_inj_right,
    List.append_cons_inj_of_notMem hterminals hnonterminals, eq_self_iff_true, true_and,
    NameTable.ext_iff, NameTable.ext_iff]

theorem mem_columns {x : Symbol} : x ∈ g.columns ↔ x ∈ g.symbols ∨ x = .endMarker := by
  rw [columns, Vocabulary.symbols, List.mem_append, List.mem_cons, List.mem_append,
    or_left_comm, or_comm]

end Grammar

namespace ParseTable

/-- The rows are for columns of the grammar, and all numbers fit in a machine word. -/
structure Fits (g : Grammar) (t : ParseTable) : Prop where
  size : t.size ≤ numeralBound
  rows : ∀ r ∈ t.rows, r.Fits g

theorem parts_dashes {α : Type} (as : List α) :
    Cells.parts (as.flatMap fun _ => ['-', '-', '-', '|']) =
      some (as.map (fun _ => ['-', '-', '-']) ++ [[]]) := by
  induction as with
  | nil => rfl
  | cons a as ih =>
    have hbar := Cells.parts_bar ih
    have hdash := Cells.parts_cons (c := '-') (by decide) (by decide) hbar
    have hdash' := Cells.parts_cons (c := '-') (by decide) (by decide) hdash
    exact Cells.parts_cons (c := '-') (by decide) (by decide) hdash'

theorem exists_separator_eq (g : Grammar) : ∃ u, separator g = '|' :: u ++ ['|'] := by
  have h := List.dropLast_concat_getLast g.headers_ne_nil
  rw [separator, ← h, List.flatMap_append, List.flatMap_singleton]
  generalize g.headers.dropLast.flatMap _ = v
  exact ⟨v ++ ['-', '-', '-'], by simp⟩

theorem newline_not_mem_separator (g : Grammar) : '\n' ∉ separator g := by
  simp [separator]

theorem read_separator (g : Grammar) :
    Cells.read (separator g) = some (g.headers.map fun _ => "---") := by
  obtain ⟨u, hu⟩ := exists_separator_eq g
  have htrim : trim (separator g) = separator g := by
    rw [hu, trim_cons_concat (by decide) (by decide)]
  rw [Cells.read_of_parts htrim (parts_dashes g.headers), List.map_map]
  rfl

theorem isSeparator_dashes (g : Grammar) : isSeparator g (g.headers.map fun _ => "---") := by
  simp [isSeparator]

theorem drop_lines (t : ParseTable) (g : Grammar) :
    (t.lines g).drop 2 = t.rows.zipIdx.map fun (r, i) => Cells.write (r.cells g i) :=
  rfl

theorem mapM_read_lines (h : t.Fits g) :
    ((t.lines g).drop 2).zipIdx.mapM (fun (line, i) => Row.read g line i) = .ok t.rows := by
  rw [drop_lines]
  apply mapM_eq_ok_of_getElem?
  · rw [List.length_zipIdx, List.length_map, List.length_zipIdx]
  · intro i c r hc hr
    have hi : i < numeralBound :=
      Nat.lt_of_lt_of_le (List.getElem?_eq_some_iff.1 hr).1 h.size
    rw [List.getElem?_zipIdx, List.getElem?_map, List.getElem?_zipIdx, hr] at hc
    simp only [Option.map_some, Nat.zero_add, Option.some.injEq] at hc
    subst hc
    exact Row.read_write (h.rows r (List.mem_of_getElem? hr)) hi

theorem cells_of_elim {o : Option (List String)} {fault : TableFault} {cells : List String}
    (h : o.elim (Except.error fault) .ok = .ok cells) : o = some cells := by
  cases o with
  | none => cases h
  | some cells' => exact congrArg some (Except.ok.inj h)

theorem readLines_eq_ok_iff {ls : List (List Char)} : readLines g ls = .ok t ↔
    ∃ header separator rest cells, ls = header :: separator :: rest ∧
      Cells.read header = some g.headers ∧ Cells.read separator = some cells ∧
      isSeparator g cells ∧
      rest.zipIdx.mapM (fun (line, i) => Row.read g line i) = .ok t.rows := by
  apply Iff.intro
  · intro h
    obtain ⟨cells, hheader, h⟩ := bind_eq_ok_iff.1 h
    have hheader := cells_of_elim hheader
    split at h
    · cases h
    · rename_i hne
      obtain rfl := Decidable.not_not.1 hne
      obtain ⟨cells, hseparator, h⟩ := bind_eq_ok_iff.1 h
      have hseparator := cells_of_elim hseparator
      split at h
      · cases h
      · rename_i hcells
        obtain ⟨rows, hrows, h⟩ := bind_eq_ok_iff.1 h
        obtain rfl := Except.ok.inj h
        match ls, hheader, hseparator with
        | header :: separator :: rest, hheader, hseparator =>
          exact ⟨header, separator, rest, cells, rfl, hheader, hseparator,
            Decidable.not_not.1 hcells, hrows⟩
  · intro h
    obtain ⟨header, separator, rest, cells, rfl, hheader, hseparator, hcells, hrows⟩ := h
    have hfirst : ((header :: separator :: rest)[0]?).bind Cells.read = some g.headers := hheader
    have hsecond : ((header :: separator :: rest)[1]?).bind Cells.read = some cells := hseparator
    rw [readLines, hfirst, hsecond, List.drop_succ_cons, List.drop_succ_cons, List.drop_zero, hrows]
    simp only [Option.elim_some, bind, Except.bind, ne_eq, not_true_eq_false, if_false, hcells]
    rfl

theorem readLines_lines (hg : g.Plain) (h : t.Fits g) : readLines g (t.lines g) = .ok t := by
  have hheader := Cells.read_write_of_plain (Grammar.plain_headers.2 hg)
  exact readLines_eq_ok_iff.2 ⟨_, _, _, _, rfl, hheader, read_separator g, isSeparator_dashes g,
    mapM_read_lines h⟩

theorem toList_text (t : ParseTable) (g : Grammar) :
    (t.text g).toList = (t.lines g).flatMap (· ++ ['\n']) :=
  String.toList_ofList

theorem bar_and_newline_of_mem_lines (hg : g.Plain) {line : List Char} (h : line ∈ t.lines g) :
    line.getLast? = some '|' ∧ '\n' ∉ line := by
  rcases List.mem_cons.1 h with rfl | h
  · exact ⟨Cells.getLast?_write g.headers_ne_nil,
      Cells.newline_not_mem_write (Grammar.plain_headers.2 hg)⟩
  rcases List.mem_cons.1 h with rfl | h
  · obtain ⟨u, hu⟩ := exists_separator_eq g
    refine ⟨?_, newline_not_mem_separator g⟩
    rw [hu, List.getLast?_concat]
  · obtain ⟨⟨r, i⟩, -, rfl⟩ := List.mem_map.1 h
    exact ⟨Cells.getLast?_write (List.cons_ne_nil _ _),
      Cells.newline_not_mem_write fun cell hcell => (Row.solid_of_mem_cells hcell).plain⟩

theorem read_eq_ok_iff {text : String} : read text g = .ok t ↔
    readLines g ((Text.lines text.toList).filter fun line => !line.all isBlank) = .ok t := by
  rw [read]
  cases readLines g ((Text.lines text.toList).filter fun line => !line.all isBlank) with
  | error e => exact iff_of_false nofun nofun
  | ok t' => exact (Except.ok.injEq t' t).to_iff.trans (Except.ok.injEq t' t).to_iff.symm

theorem read_congr (h : g'.columns = g.columns) (text : String) : read text g' = read text g := by
  have hheaders : g'.headers = g.headers := by rw [Grammar.headers, h, Grammar.headers]
  simp only [read, readLines, isSeparator, Row.read, hheaders, h]

/-- The text of a table whose entries fit is read as that table by each grammar with the same
columns. -/
theorem read_text (hg : g.Plain) (h : t.Fits g) (hcolumns : g'.columns = g.columns) :
    read (t.text g) g' = .ok t := by
  have hlines := filter_lines fun line => bar_and_newline_of_mem_lines (t := t) hg
  rw [read_congr hcolumns, read_eq_ok_iff, toList_text, hlines]
  exact readLines_lines hg h

theorem read_eq_error {text : String} (htext : text.toList = '|' :: u ++ '\n' :: s)
    (hu : '\n' ∉ '|' :: u) (h : Cells.read ('|' :: u) ≠ some g.headers) :
    ∃ fault, read text g = .error (.malformedTable fault) := by
  have hbar := not_all_isBlank (mem_dropReturn (s := '|' :: u) List.mem_cons_self (by decide))
  rw [read, htext, lines_append_cons hu, List.filter_cons_of_pos (by exact hbar)]
  simp only [readLines, List.getElem?_cons_zero, Option.bind_some, Cells.read_dropReturn]
  cases hread : Cells.read ('|' :: u) with
  | none => exact ⟨.noHeader, rfl⟩
  | some cells =>
    have hne : cells ≠ g.headers := by
      rintro rfl
      exact h hread
    refine ⟨.header cells g.headers, ?_⟩
    simp only [Option.elim_some, bind, Except.bind, if_pos hne]
    rfl

theorem toList_text_eq (t : ParseTable) (g : Grammar) :
    ∃ rest, (t.text g).toList = Cells.write g.headers ++ '\n' :: rest := by
  rw [toList_text]
  refine ⟨((t.lines g).drop 1).flatMap (· ++ ['\n']), ?_⟩
  rw [lines, List.flatMap_cons, List.append_assoc]
  rfl

theorem read_text_of_ne (hnewline : '\n' ∉ Cells.write g.headers)
    (hne : g.headers.map Cells.trimmed ≠ g'.headers) :
    ∃ fault, read (t.text g) g' = .error (.malformedTable fault) := by
  obtain ⟨rest, htext⟩ := t.toList_text_eq g
  apply read_eq_error htext hnewline
  have hread := Cells.read_of_trim_eq_write (Cells.trim_write g.headers)
  intro h
  exact hne (Option.some.inj (hread.symm.trans h))

/-- A line feed in the headers ends the header row before its last cell. -/
theorem read_text_of_newline (hnewline : '\n' ∈ Cells.write g.headers) :
    ∃ fault, read (t.text g) g = .error (.malformedTable fault) := by
  obtain ⟨rest, htext⟩ := t.toList_text_eq g
  obtain ⟨line, v, hwrite, hline⟩ := List.eq_append_cons_of_mem hnewline
  cases line with
  | nil => cases hwrite
  | cons c u =>
    obtain rfl : '|' = c := (List.cons.inj hwrite).1
    rw [hwrite, List.append_assoc] at htext
    apply read_eq_error htext hline
    intro hread
    have hlength := Cells.length_lt_of_read g.headers_ne_nil hwrite (List.cons_ne_nil _ _) hread
    exact Nat.lt_irrefl _ hlength

/-- Where the names cannot stand in the columns, no table is read from its text. -/
theorem read_text_of_not_plain (hg : ¬ g.Plain) :
    ∃ fault, read (t.text g) g = .error (.malformedTable fault) := by
  by_cases hnewline : '\n' ∈ Cells.write g.headers
  · exact read_text_of_newline hnewline
  · apply read_text_of_ne hnewline
    intro h
    apply hg
    apply Grammar.plain_headers.1
    intro cell hcell
    have htrim := Cells.map_trimmed_eq_iff.1 h cell hcell
    exact ⟨htrim, fun hmem => hnewline (Cells.newline_mem_write.2 ⟨cell, hcell, hmem⟩)⟩

theorem read_text_of_headers_ne (hg : g.Plain) (hne : g.headers ≠ g'.headers) :
    ∃ fault, read (t.text g) g' = .error (.malformedTable fault) := by
  have hheaders := Grammar.plain_headers.2 hg
  apply read_text_of_ne (Cells.newline_not_mem_write hheaders)
  rwa [Cells.map_trimmed_eq_iff.2 fun cell hcell => (hheaders cell hcell).1]

end ParseTable

end SimpleLR
