import SimpleLR.Error
import SimpleLR.Grammar.Basic
import SimpleLR.Table.Basic
import SimpleLR.Table.Cells
import SimpleLR.Text.Line
import SimpleLR.Text.Numeral

namespace SimpleLR

open Text

/-- The columns after the column of the state. -/
def Grammar.columns (g : Grammar) : List Symbol :=
  g.terminals.names.map .terminal ++ .endMarker :: g.nonterminals.names.map .nonterminal

def Grammar.headers (g : Grammar) : List String :=
  "State" :: g.columns.map Symbol.name

namespace Action

def ofText? (cell : List Char) : Option Action :=
  if cell = "acc".toList then some .accept
  else match cell with
    | 's' :: digits => (readNat digits).map .shift
    | 'r' :: digits => (readNat digits).map .reduce
    | _ => none

end Action

namespace Row

def cell (r : Row) : Symbol → String
  | .nonterminal a => (r.gotos[a]?.map toString).getD ""
  | x => (r.actions[x]?.map Action.text).getD ""

def readCell (i : Nat) (r : Row) (column : Symbol) (cell : String) : Except TableFault Row :=
  if cell = "" then .ok r
  else match column with
    | .nonterminal a => match readNat cell.toList with
      | some j => .ok { r with gotos := r.gotos.insert a j }
      | none => .error (.gotoCell cell i)
    | x => match Action.ofText? cell.toList with
      | some act => .ok { r with actions := r.actions.insert x act }
      | none => .error (.actionCell cell i)

def read (g : Grammar) (line : List Char) (i : Nat) : Except TableFault Row :=
  match Cells.read line with
  | none => .error (.row (String.ofList line))
  | some [] => .error (.cellCount (String.ofList line) 0 g.headers.length)
  | some (state :: cells) =>
    if cells.length ≠ g.columns.length then
      .error (.cellCount (String.ofList line) (cells.length + 1) g.headers.length)
    else match readNat state.toList with
      | none => .error (.stateIndex state)
      | some j =>
        if j ≠ i then .error (.stateOrder i j)
        else (g.columns.zip cells).foldlM (fun r (x, cell) => readCell i r x cell) ⟨∅, ∅⟩

end Row

namespace ParseTable

def separator (g : Grammar) : List Char :=
  '|' :: (g.headers.flatMap fun _ => ['-', '-', '-', '|'])

def lines (t : ParseTable) (g : Grammar) : List (List Char) :=
  Cells.write g.headers :: separator g ::
    t.rows.zipIdx.map fun (r, i) => Cells.write (toString i :: g.columns.map r.cell)

def text (t : ParseTable) (g : Grammar) : String :=
  String.ofList ((t.lines g).flatMap (· ++ ['\n']))

/-- A separator row has as many cells as the header row, all of them dashes. -/
def isSeparator (g : Grammar) (cells : List String) : Bool :=
  cells.length = g.headers.length && cells.all fun cell => cell ≠ "" && cell.toList.all (· = '-')

def readLines (g : Grammar) (lines : List (List Char)) : Except TableFault ParseTable := do
  let header ← ((lines[0]?).bind Cells.read).elim (.error .noHeader) .ok
  if header ≠ g.headers then
    throw (.header header g.headers)
  let cells ← ((lines[1]?).bind Cells.read).elim (.error .noSeparator) .ok
  if ¬ isSeparator g cells then
    throw .separator
  let rows ← (lines.drop 2).zipIdx.mapM fun (line, i) => Row.read g line i
  return ⟨rows⟩

/-- Reads the text of a table with the columns of a grammar. Lines of blanks do not count. -/
def read (text : String) (g : Grammar) : Except GrammarError ParseTable :=
  let lines := (Text.lines text.toList).filter fun line => !line.all isBlank
  (readLines g lines).mapError .malformedTable

end ParseTable

end SimpleLR
