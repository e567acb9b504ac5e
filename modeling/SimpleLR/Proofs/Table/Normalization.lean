import SimpleLR.Grammar.Load
import SimpleLR.Proofs.Table.Lines

namespace SimpleLR

open Text

variable {g : Grammar} {t : ParseTable} {r r' : Row} {i j n : Nat} {x : Symbol} {cell : String}
  {line s : List Char}

theorem Text.lt_of_readNat (h : readNat s = some n) : n < numeralBound := by
  unfold readNat at h
  dsimp only at h
  split at h
  · split at h
    · rename_i hlt
      rwa [Option.some.inj h] at hlt
    · cases h
  · cases h

theorem Action.number_lt_of_ofText? {act : Action} (h : Action.ofText? s = some act) :
    act.number < numeralBound := by
  unfold ofText? at h
  split at h
  · obtain rfl := Option.some.inj h
    decide
  · split at h
    · obtain ⟨n, hn, rfl⟩ := Option.map_eq_some_iff.1 h
      exact lt_of_readNat hn
    · obtain ⟨n, hn, rfl⟩ := Option.map_eq_some_iff.1 h
      exact lt_of_readNat hn
    · cases h

namespace Row

theorem fits_empty (g : Grammar) : Fits g ⟨∅, ∅⟩ :=
  ⟨by simp, by simp⟩

theorem Fits.insertAction {act : Action} (h : r.Fits g) (hx : x ∈ g.columns)
    (hn : x.isNonterminal = false) (hact : act.number < numeralBound) :
    Fits g { r with actions := r.actions.insert x act } := by
  refine ⟨?_, h.gotos⟩
  intro y act' hy
  rw [Std.ExtTreeMap.getElem?_insert] at hy
  split at hy
  · rename_i he
    obtain rfl := Std.LawfulEqOrd.eq_of_compare he
    obtain rfl := Option.some.inj hy
    exact ⟨hx, hn, hact⟩
  · exact h.actions y act' hy

theorem Fits.insertGoto {a : String} (h : r.Fits g) (ha : .nonterminal a ∈ g.columns)
    (hj : j < numeralBound) : Fits g { r with gotos := r.gotos.insert a j } := by
  refine ⟨h.actions, ?_⟩
  intro b k hb
  rw [Std.ExtTreeMap.getElem?_insert] at hb
  split at hb
  · rename_i he
    obtain rfl := Std.LawfulEqOrd.eq_of_compare he
    obtain rfl := Option.some.inj hb
    exact ⟨ha, hj⟩
  · exact h.gotos b k hb

theorem Fits.readCell (h : r.Fits g) (hx : x ∈ g.columns) (hr : readCell i r x cell = .ok r') :
    r'.Fits g := by
  unfold Row.readCell at hr
  split at hr
  · obtain rfl := Except.ok.inj hr
    exact h
  · split at hr
    · split at hr
      · rename_i hj
        obtain rfl := Except.ok.inj hr
        exact h.insertGoto hx (lt_of_readNat hj)
      · cases hr
    · rename_i hne
      split at hr
      · rename_i hact
        obtain rfl := Except.ok.inj hr
        have hn : x.isNonterminal = false := by
          cases x with
          | nonterminal a => exact absurd rfl (hne a)
          | terminal | epsilon | endMarker => rfl
        exact h.insertAction hx hn (Action.number_lt_of_ofText? hact)
      · cases hr

/-- A line is accepted as row `i` if it has a cell for each column behind one that shows the number
`i`, and the cells are read one after the other. -/
theorem read_eq_ok_iff : read g line i = .ok r ↔ ∃ state cells,
    Cells.read line = some (state :: cells) ∧ cells.length = g.columns.length ∧
      readNat state.toList = some i ∧
      (g.columns.zip cells).foldlM (fun r (x, cell) => readCell i r x cell) ⟨∅, ∅⟩ = .ok r := by
  unfold read
  split
  · rename_i hcells
    simp only [hcells, reduceCtorEq, false_and, exists_false]
  · rename_i hcells
    simp only [hcells, reduceCtorEq, Option.some.injEq, false_and, exists_false]
  · rename_i state cells hcells
    simp only [hcells, Option.some.injEq, List.cons.injEq]
    apply Iff.intro
    · intro h
      split at h
      · cases h
      · rename_i hlength
        split at h
        · cases h
        · rename_i j hj
          split at h
          · cases h
          · rename_i hji
            rw [Decidable.not_not.1 hji] at hj
            exact ⟨state, cells, ⟨rfl, rfl⟩, Decidable.not_not.1 hlength, hj, h⟩
    · rintro ⟨_, _, ⟨rfl, rfl⟩, hlength, hi, h⟩
      rw [if_neg (Decidable.not_not.2 hlength), hi]
      exact (if_neg (Decidable.not_not.2 rfl)).trans h

theorem fits_of_read (h : read g line i = .ok r) : r.Fits g ∧ i < numeralBound := by
  obtain ⟨state, cells, -, -, hi, hr⟩ := read_eq_ok_iff.1 h
  refine ⟨?_, lt_of_readNat hi⟩
  apply foldlM_induction (P := fun r => r.Fits g) hr (fits_empty g)
  intro r c m hr hc hm
  exact hr.readCell (List.of_mem_zip hc).1 hm

theorem read_of_mapM_read {ls : List (List Char)} {rows : List Row}
    (h : ls.zipIdx.mapM (fun (line, i) => read g line i) = .ok rows) (hr : rows[i]? = some r) :
    ∃ line, ls[i]? = some line ∧ read g line i = .ok r := by
  rcases getElem?_of_mapM_eq_ok h i with ⟨-, hnone⟩ | ⟨⟨line, k⟩, r', hline, hr', hread⟩
  · cases hr.symm.trans hnone
  · obtain rfl := Option.some.inj (hr.symm.trans hr')
    rw [List.getElem?_zipIdx, Nat.zero_add] at hline
    obtain ⟨_, hline', he⟩ := Option.map_eq_some_iff.1 hline
    obtain ⟨rfl, rfl⟩ := Prod.mk.inj he
    exact ⟨_, hline', hread⟩

end Row

namespace ParseTable

theorem fits_of_mapM_read {ls : List (List Char)} {rows : List Row}
    (h : ls.zipIdx.mapM (fun (line, i) => Row.read g line i) = .ok rows) : Fits g ⟨rows⟩ := by
  have hrow {i : Nat} {r : Row} (hr : rows[i]? = some r) : r.Fits g ∧ i < numeralBound := by
    obtain ⟨line, -, hread⟩ := Row.read_of_mapM_read h hr
    exact Row.fits_of_read hread
  constructor
  · have hsize (n : Nat) (hn : rows.length = n) : n ≤ numeralBound := by
      cases n with
      | zero => exact Nat.zero_le _
      | succ n => exact (hrow (List.getElem?_eq_getElem (hn ▸ Nat.lt_succ_self n))).2
    exact hsize _ rfl
  · intro r hr
    obtain ⟨i, hi⟩ := List.mem_iff_getElem?.1 hr
    exact (hrow hi).1

theorem plain_and_fits_of_read {text : String} (h : read text g = .ok t) : g.Plain ∧ t.Fits g := by
  obtain ⟨header, _, _, _, hls, hheader, -, -, hrows⟩ :=
    readLines_eq_ok_iff.1 (read_eq_ok_iff.1 h)
  have hmem : header ∈ Text.lines text.toList := by
    apply List.mem_of_mem_filter (p := fun line => !line.all isBlank)
    rw [hls]
    exact List.mem_cons_self
  have hnewline := newline_not_mem_of_mem_lines hmem
  exact ⟨Grammar.plain_headers.1 (Cells.plain_of_read hheader hnewline), fits_of_mapM_read hrows⟩

/-- The lines of a text from which a table is read, but for blank ones, are the header, the separator
and a line for each row, which shows the number of the row and has a cell for each column. -/
theorem lines_of_read {text : String} (h : read text g = .ok t) : ∃ header separator ls dashes,
    (Text.lines text.toList).filter (fun line => !line.all isBlank) = header :: separator :: ls ∧
      Cells.read header = some g.headers ∧ Cells.read separator = some dashes ∧
      isSeparator g dashes ∧ ls.length = t.size ∧
      ∀ i line, ls[i]? = some line → ∃ state cells, Cells.read line = some (state :: cells) ∧
        cells.length = g.columns.length ∧ readNat state.toList = some i := by
  obtain ⟨header, separator, ls, dashes, hls, hheader, hseparator, hdashes, hrows⟩ :=
    readLines_eq_ok_iff.1 (read_eq_ok_iff.1 h)
  have hlength : ls.length = t.rows.length := by
    rw [length_of_mapM_eq_ok hrows, List.length_zipIdx]
  refine ⟨header, separator, ls, dashes, hls, hheader, hseparator, hdashes, hlength, ?_⟩
  intro i line hline
  have hi : i < t.rows.length := by
    rw [← hlength]
    exact (List.getElem?_eq_some_iff.1 hline).1
  obtain ⟨line', hline', hread⟩ := Row.read_of_mapM_read hrows (List.getElem?_eq_getElem hi)
  obtain rfl := Option.some.inj (hline.symm.trans hline')
  obtain ⟨state, cells, hcells, hcount, hnumber, -⟩ := Row.read_eq_ok_iff.1 hread
  exact ⟨state, cells, hcells, hcount, hnumber⟩

/-- A table that is read from a text, in whatever spelling, has entries for the columns of the
grammar alone, and is read again from the text that is written from it. -/
theorem read_text_of_read {text : String} (h : read text g = .ok t) :
    (∀ i x act, t.action? i x = some act → i < t.size ∧ x ∈ g.columns) ∧
      (∀ i a j, t.goto? i a = some j → i < t.size ∧ .nonterminal a ∈ g.columns) ∧
      read (t.text g) g = .ok t := by
  obtain ⟨hg, hfits⟩ := plain_and_fits_of_read h
  refine ⟨?_, ?_, read_text hg hfits rfl⟩
  · intro i x act hact
    obtain ⟨r, hr, hact⟩ := Option.bind_eq_some_iff.1 hact
    have hmem := List.mem_of_getElem? hr
    exact ⟨(List.getElem?_eq_some_iff.1 hr).1, ((hfits.rows r hmem).actions x act hact).1⟩
  · intro i a j hj
    obtain ⟨r, hr, hj⟩ := Option.bind_eq_some_iff.1 hj
    have hmem := List.mem_of_getElem? hr
    exact ⟨(List.getElem?_eq_some_iff.1 hr).1, ((hfits.rows r hmem).gotos a j hj).1⟩

/-- Blanks, line ends, dashes, numerals and escapes are written in one way, however they were read,
and the greatest number of a machine word stays as it is. -/
theorem read_text_of_spelling :
    ∃ g t, Grammar.load ["S -> |"] ["|"] ["S"] "S" = .ok g ∧
      read (" | State |\\||\\$ | S | \r\n\n|-|--|---|----|\n| +0 | \\s007 || 2 |\n" ++
        "|1| |r1|18446744073709551615|") g = .ok t ∧
      t.text g = "| State | \\| | $ | S |\n|---|---|---|---|\n| 0 | s7 |  | 2 |\n" ++
        "| 1 |  | r1 | 18446744073709551615 |\n" ∧
      read (t.text g) g = .ok t := by
  obtain ⟨g, hg, hcheck⟩ := exists_ok_of_any (r := Grammar.load ["S -> |"] ["|"] ["S"] "S")
    (p := fun g => (read (" | State |\\||\\$ | S | \r\n\n|-|--|---|----|\n| +0 | \\s007 || 2 |\n" ++
      "|1| |r1|18446744073709551615|") g).toOption.any fun t =>
        t.text g = "| State | \\| | $ | S |\n|---|---|---|---|\n| 0 | s7 |  | 2 |\n" ++
          "| 1 |  | r1 | 18446744073709551615 |\n")
    (by decide +kernel)
  obtain ⟨t, ht, htext⟩ := exists_ok_of_any hcheck
  obtain ⟨-, -, hread⟩ := read_text_of_read ht
  exact ⟨g, t, hg, ht, of_decide_eq_true htext, hread⟩

end ParseTable

end SimpleLR
