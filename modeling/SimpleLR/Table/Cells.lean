import SimpleLR.Text.Blank

namespace SimpleLR.Cells

open Text

def replace (c : Char) (u s : List Char) : List Char :=
  s.flatMap fun d => if d = c then u else [d]

/-- The backslashes come first, so that those of the bars are not doubled. -/
def escape (cell : List Char) : List Char :=
  replace '|' ['\\', '|'] (replace '\\' ['\\', '\\'] cell)

/-- Each cell has a space on either side and a bar after it; a bar begins the row. -/
def write (cells : List String) : List Char :=
  '|' :: cells.flatMap fun cell => ' ' :: escape cell.toList ++ [' ', '|']

/-- The parts between the bars of a row, with their escapes undone. A character after a backslash
stands for itself, and a backslash does not end the row. -/
def parts : List Char → Option (List (List Char))
  | [] => some [[]]
  | ['\\'] => none
  | '\\' :: c :: s => (parts s).map (·.modifyHead (c :: ·))
  | '|' :: s => (parts s).map ([] :: ·)
  | c :: s => (parts s).map (·.modifyHead (c :: ·))

/-- Reads a row, which begins and ends with a bar except for blanks. Cells lose the blanks around
them. -/
def read (line : List Char) : Option (List String) :=
  match trim line with
  | '|' :: s => do
    let ps ← parts s
    if ps.getLast?.all (·.all isBlank) then
      some (ps.dropLast.map fun p => String.ofList (trim p))
    else none
  | _ => none

end SimpleLR.Cells
