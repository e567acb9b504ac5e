import SimpleLR.Lookup

namespace SimpleLR

/-- Names in the order in which they were added, and the position of each of them. -/
structure NameTable where
  names : List String
  positions : Std.ExtTreeMap String Nat
  getElem?_positions (a : String) (i : Nat) : positions[a]? = some i ↔ names[i]? = some a
deriving DecidableEq

namespace NameTable

def empty : NameTable :=
  ⟨[], ∅, by simp⟩

instance : EmptyCollection NameTable :=
  ⟨empty⟩

instance : Membership String NameTable :=
  ⟨fun t a => a ∈ t.names⟩

theorem mem_iff {t : NameTable} {a : String} : a ∈ t ↔ a ∈ t.names :=
  Iff.rfl

@[simp] theorem not_mem_empty (a : String) : a ∉ (∅ : NameTable) :=
  List.not_mem_nil

def contains (t : NameTable) (a : String) : Bool :=
  t.positions.contains a

def size (t : NameTable) : Nat :=
  t.names.length

def isEmpty (t : NameTable) : Bool :=
  t.names.isEmpty

def index? (t : NameTable) (a : String) : Option Nat :=
  t.positions[a]?

def name? (t : NameTable) (i : Nat) : Option String :=
  t.names[i]?

theorem index?_eq_some_iff {t : NameTable} {a : String} {i : Nat} :
    t.index? a = some i ↔ t.name? i = some a :=
  t.getElem?_positions a i

theorem index?_isSome_iff {t : NameTable} {a : String} : (t.index? a).isSome ↔ a ∈ t := by
  rw [Option.isSome_iff_exists, mem_iff, List.mem_iff_getElem?]
  exact exists_congr fun _ => index?_eq_some_iff

theorem contains_iff {t : NameTable} {a : String} : t.contains a ↔ a ∈ t := by
  rw [contains, Std.ExtTreeMap.contains_eq_isSome_getElem?]
  exact index?_isSome_iff

instance (t : NameTable) (a : String) : Decidable (a ∈ t) :=
  decidable_of_iff (t.contains a) contains_iff

theorem nodup (t : NameTable) : t.names.Nodup :=
  nodup_of_positions t.getElem?_positions

@[ext] theorem ext {x y : NameTable} (h : x.names = y.names) : x = y := by
  have hpositions : x.positions = y.positions := by
    apply Std.ExtTreeMap.ext_getElem?
    intro a
    apply Option.ext
    intro i
    rw [x.getElem?_positions, y.getElem?_positions, h]
  cases x
  cases y
  obtain rfl := h
  obtain rfl := hpositions
  rfl

def insert (t : NameTable) (a : String) : NameTable :=
  if h : a ∈ t then t
  else ⟨t.names ++ [a], t.positions.insert a t.size, positions_concat t.getElem?_positions h⟩

/-- The position of a name in the table after it has been added, and that table. -/
def intern (t : NameTable) (a : String) : Nat × NameTable :=
  match t.index? a with
  | some i => (i, t)
  | none => (t.size, t.insert a)

def ofList (names : List String) : NameTable :=
  names.foldl insert ∅

theorem names_insert (t : NameTable) (a : String) :
    (t.insert a).names = if a ∈ t then t.names else t.names ++ [a] := by
  unfold insert
  split <;> rfl

theorem mem_insert {t : NameTable} {a b : String} : b ∈ t.insert a ↔ b ∈ t ∨ b = a := by
  grind [mem_iff, names_insert]

theorem prefix_insert (t : NameTable) (a : String) : t.names <+: (t.insert a).names := by
  rw [names_insert]
  split
  · exact List.prefix_refl t.names
  · exact List.prefix_append t.names [a]

theorem intern_snd (t : NameTable) (a : String) : (t.intern a).2 = t.insert a := by
  unfold intern
  split
  · have ha : a ∈ t := index?_isSome_iff.1 (Option.isSome_of_eq_some ‹_›)
    rw [insert, dif_pos ha]
  · rfl

theorem prefix_intern (t : NameTable) (a : String) : t.names <+: (t.intern a).2.names := by
  rw [intern_snd]
  exact t.prefix_insert a

theorem name?_mono {t u : NameTable} {a : String} {i : Nat} (h : t.names <+: u.names)
    (hi : t.name? i = some a) : u.name? i = some a :=
  getElem?_mono h hi

theorem name?_intern (t : NameTable) (a : String) :
    (t.intern a).2.name? (t.intern a).1 = some a := by
  unfold intern
  split
  · exact index?_eq_some_iff.1 ‹_›
  · rename_i hnone
    have ha : a ∉ t := by simp [← index?_isSome_iff, hnone]
    simp [name?, size, names_insert, ha]

end NameTable

end SimpleLR
