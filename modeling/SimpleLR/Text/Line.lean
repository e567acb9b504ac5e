namespace SimpleLR.Text

def dropReturn (line : List Char) : List Char :=
  if line.getLast? = some '\r' then line.dropLast else line

/-- The lines of a text. What follows the last line feed is the last line, and keeps all its
characters. -/
def lines (s : List Char) : List (List Char) :=
  let parts := s.splitOn '\n'
  parts.dropLast.map dropReturn ++ parts.getLast?.toList

end SimpleLR.Text
