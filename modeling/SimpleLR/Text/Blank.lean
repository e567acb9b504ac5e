import SimpleLR.Text.CharClass

namespace SimpleLR.Text

/-- The characters with the Unicode property White_Space. -/
def blanks : CharClass where
  ranges :=
    [(0x9, 0xD), (0x20, 0x20), (0x85, 0x85), (0xA0, 0xA0), (0x1680, 0x1680), (0x2000, 0x200A),
      (0x2028, 0x2029), (0x202F, 0x202F), (0x205F, 0x205F), (0x3000, 0x3000)]

def isBlank (c : Char) : Bool :=
  blanks.contains c

def trim (s : List Char) : List Char :=
  ((s.dropWhile isBlank).reverse.dropWhile isBlank).reverse

/-- The maximal runs of characters for which `separates` does not hold. -/
def runs (separates : Char → Bool) (s : List Char) : List (List Char) :=
  (s.splitOnP separates).filter (· ≠ [])

def words (s : String) : List String :=
  (runs isBlank s.toList).map String.ofList

theorem ne_nil_of_mem_runs {separates : Char → Bool} {s w : List Char}
    (h : w ∈ runs separates s) : w ≠ [] := by
  simpa using (List.mem_filter.1 h).2

end SimpleLR.Text
