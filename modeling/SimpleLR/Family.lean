import Std.Data.ExtTreeMap
import Std.Data.ExtTreeSet
import SimpleLR.Saturation
import SimpleLR.Symbol

namespace SimpleLR

abbrev SymbolSet := Std.ExtTreeSet Symbol

theorem SymbolSet.mem_singleton {x y : Symbol} : x ∈ ({y} : SymbolSet) ↔ x = y := by
  simp only [Std.ExtTreeSet.singleton_eq_insert, Std.ExtTreeSet.mem_insert,
    Std.LawfulEqCmp.compare_eq_iff_eq, Std.ExtTreeSet.not_mem_empty, or_false]
  exact eq_comm

theorem SymbolSet.mem_erase {s : SymbolSet} {x y : Symbol} : x ∈ s.erase y ↔ x ≠ y ∧ x ∈ s := by
  rw [Std.ExtTreeSet.mem_erase, ne_eq, Std.LawfulEqCmp.compare_eq_iff_eq, eq_comm]

/-- What the sets of some names hold. -/
abbrev Reading := String → Symbol → Prop

/-- A set of symbols for each of some names. A name without an entry has the empty set. -/
structure Family where
  entries : Std.ExtTreeMap String SymbolSet
deriving DecidableEq

namespace Family

instance : EmptyCollection Family :=
  ⟨⟨∅⟩⟩

def lookup (F : Family) (a : String) : SymbolSet :=
  F.entries.getD a ∅

def get? (F : Family) (a : String) : Option SymbolSet :=
  F.entries[a]?

def toList (F : Family) : List (String × SymbolSet) :=
  F.entries.toList

def reading (F : Family) : Reading :=
  fun a x => x ∈ F.lookup a

/-- Adds symbols to the set of a name, which has an entry from then on. -/
def add (F : Family) (a : String) (s : SymbolSet) : Family :=
  ⟨F.entries.insert a (F.lookup a ∪ s)⟩

def ofNames (names : List String) : Family :=
  names.foldl (·.add · ∅) ∅

def merge (F G : Family) : Family :=
  G.toList.foldl (fun F (a, s) => F.add a s) F

def symbols (F : Family) : SymbolSet :=
  .ofList (F.toList.flatMap fun (_, s) => s.toList)

instance : Membership String Family :=
  ⟨fun F a => a ∈ F.entries⟩

instance : LE Family :=
  ⟨fun F G => ∀ a, ∀ x ∈ F.lookup a, x ∈ G.lookup a⟩

@[simp] theorem lookup_empty (a : String) : (∅ : Family).lookup a = ∅ :=
  Std.ExtTreeMap.getD_empty

theorem lookup_eq (F : Family) (a : String) : F.lookup a = (F.get? a).getD ∅ :=
  Std.ExtTreeMap.getD_eq_getD_getElem?

theorem lookup_add (F : Family) (a b : String) (s : SymbolSet) :
    (F.add a s).lookup b = if a = b then F.lookup a ∪ s else F.lookup b := by
  simp [lookup, add, Std.ExtTreeMap.getD_insert]

theorem mem_lookup_add {F : Family} {a b : String} {s : SymbolSet} {x : Symbol} :
    x ∈ (F.add a s).lookup b ↔ x ∈ F.lookup b ∨ a = b ∧ x ∈ s := by
  rw [lookup_add]
  split
  · subst b
    simp
  · simp_all

theorem get?_add (F : Family) (a b : String) (s : SymbolSet) :
    (F.add a s).get? b = if a = b then some (F.lookup a ∪ s) else F.get? b := by
  simp only [get?, add, Std.ExtTreeMap.getElem?_insert, Std.LawfulEqCmp.compare_eq_iff_eq]

theorem get?_of_mem {F : Family} {a : String} (h : a ∈ F) : F.get? a = some (F.lookup a) := by
  obtain ⟨s, hs⟩ : ∃ s, F.get? a = some s := ⟨_, Std.ExtTreeMap.getElem?_eq_some_getElem h⟩
  rw [lookup_eq, hs, Option.getD_some]

theorem mem_of_get? {F : Family} {a : String} {s : SymbolSet} (h : F.get? a = some s) : a ∈ F :=
  Std.ExtTreeMap.mem_iff_isSome_getElem?.2 (Option.isSome_of_eq_some h)

theorem mem_add {F : Family} {a b : String} {s : SymbolSet} : b ∈ F.add a s ↔ a = b ∨ b ∈ F := by
  change b ∈ F.entries.insert a _ ↔ _
  rw [Std.ExtTreeMap.mem_insert, Std.LawfulEqCmp.compare_eq_iff_eq]
  exact Iff.rfl

theorem mem_lookup_iff {F : Family} {a : String} {x : Symbol} :
    x ∈ F.lookup a ↔ ∃ s, (a, s) ∈ F.toList ∧ x ∈ s := by
  simp only [lookup, toList, Std.ExtTreeMap.mem_toList_iff_getElem?_eq_some,
    Std.ExtTreeMap.getD_eq_getD_getElem?]
  cases F.entries[a]? <;> simp

theorem mem_symbols {F : Family} {x : Symbol} : x ∈ F.symbols ↔ ∃ a, x ∈ F.lookup a := by
  simp only [symbols, Std.ExtTreeSet.mem_ofList, List.contains_iff_mem, List.mem_flatMap,
    Std.ExtTreeSet.mem_toList, Prod.exists, mem_lookup_iff]

theorem mem_lookup_merge {F G : Family} {a : String} {x : Symbol} :
    x ∈ (F.merge G).lookup a ↔ x ∈ F.lookup a ∨ x ∈ G.lookup a := by
  have h (l : List (String × SymbolSet)) : ∀ F : Family,
      x ∈ (l.foldl (fun F (a, s) => F.add a s) F).lookup a ↔
        x ∈ F.lookup a ∨ ∃ s, (a, s) ∈ l ∧ x ∈ s := by
    induction l with
    | nil => simp
    | cons e l ih =>
      intro F
      rw [List.foldl_cons, ih, mem_lookup_add]
      grind
  rw [merge, h, mem_lookup_iff (F := G)]

theorem mem_merge_of_mem {F : Family} {a : String} (h : a ∈ F) (G : Family) : a ∈ F.merge G := by
  have h (l : List (String × SymbolSet)) : ∀ F : Family, a ∈ F →
      a ∈ l.foldl (fun F (a, s) => F.add a s) F := by
    induction l with
    | nil => exact fun _ => id
    | cons e l ih => exact fun F h => ih _ (mem_add.2 (.inr h))
  exact h _ F ‹_›

theorem mem_ofNames {names : List String} {a : String} : a ∈ ofNames names ↔ a ∈ names := by
  have h (names : List String) : ∀ F : Family,
      a ∈ names.foldl (·.add · ∅) F ↔ a ∈ F ∨ a ∈ names := by
    induction names with
    | nil => simp
    | cons b names ih =>
      intro F
      rw [List.foldl_cons, ih, mem_add, List.mem_cons, eq_comm, or_comm (a := a = b), or_assoc]
  rw [ofNames, h]
  exact or_iff_right Std.ExtTreeMap.not_mem_empty

theorem not_mem_lookup_ofNames {names : List String} {a : String} {x : Symbol} :
    x ∉ (ofNames names).lookup a := by
  have h (names : List String) : ∀ F : Family,
      x ∈ (names.foldl (·.add · ∅) F).lookup a ↔ x ∈ F.lookup a := by
    induction names with
    | nil => simp
    | cons b names ih =>
      intro F
      rw [List.foldl_cons, ih, mem_lookup_add]
      simp
  rw [ofNames, h, lookup_empty]
  exact Std.ExtTreeSet.not_mem_empty

theorem le_iff {F G : Family} : F ≤ G ↔ ∀ a, ∀ x ∈ F.lookup a, x ∈ G.lookup a :=
  Iff.rfl

instance (F G : Family) : Decidable (F ≤ G) :=
  decidable_of_iff (∀ e ∈ F.toList, ∀ x ∈ e.2.toList, x ∈ G.lookup e.1) <| by
    simp only [le_iff, mem_lookup_iff (F := F), Prod.forall, Std.ExtTreeSet.mem_toList]
    grind

protected theorem le_refl (F : Family) : F ≤ F :=
  fun _ _ => id

protected theorem le_trans {F G H : Family} (h : F ≤ G) (h' : G ≤ H) : F ≤ H :=
  fun a x hx => h' a x (h a x hx)

theorem le_add (F : Family) (a : String) (s : SymbolSet) : F ≤ F.add a s :=
  fun _ _ hx => mem_lookup_add.2 (.inl hx)

theorem le_merge (F G : Family) : F ≤ F.merge G :=
  fun _ _ hx => mem_lookup_merge.2 (.inl hx)

theorem merge_le_merge {F G : Family} (h : F ≤ G) (K : Family) : K.merge F ≤ K.merge G :=
  fun a x hx => mem_lookup_merge.2 ((mem_lookup_merge.1 hx).imp id (h a x))

/-- The pairs of a name and a symbol, known already or in `base`, by which the family can still
grow. -/
def room (names : List String) (base : SymbolSet) (F : Family) : Nat :=
  names.foldr (fun a n => ((base ∪ F.symbols).toList.filter (· ∉ F.lookup a)).length + n) 0

/-- `G` has grown from `F` by symbols that were known already or are in `base`, and only at some
names. -/
structure Extends (names : List String) (base : SymbolSet) (F G : Family) : Prop where
  le : F ≤ G
  bound : ∀ a, ∀ x ∈ G.lookup a, x ∈ F.lookup a ∨ a ∈ names ∧ x ∈ base ∪ F.symbols

variable {names : List String} {base : SymbolSet} {F G : Family}

theorem Extends.refl : Extends names base F F :=
  ⟨F.le_refl, fun _ _ => .inl⟩

theorem Extends.mem (h : Extends names base F G) {a : String} {x : Symbol}
    (hx : x ∈ G.lookup a) : x ∈ base ∪ F.symbols := by
  rcases h.bound a x hx with hx | hx
  · exact Std.ExtTreeSet.mem_union_iff.2 (.inr (mem_symbols.2 ⟨a, hx⟩))
  · exact hx.2

theorem Extends.add (h : Extends names base F G) {a : String} (ha : a ∈ names) {s : SymbolSet}
    (hs : ∀ x ∈ s, x ∈ base ∪ F.symbols) : Extends names base F (G.add a s) where
  le := Family.le_trans h.le (G.le_add a s)
  bound b x hx := by
    rcases mem_lookup_add.1 hx with hG | ⟨rfl, hs'⟩
    · exact h.bound b x hG
    · exact .inr ⟨ha, hs x hs'⟩

theorem foldr_add_le {f f' : String → Nat} (h : ∀ a ∈ names, f a ≤ f' a) :
    names.foldr (fun a n => f a + n) 0 ≤ names.foldr (fun a n => f' a + n) 0 := by
  induction names with
  | nil => exact Nat.le_refl 0
  | cons b names ih =>
    have hb := h b List.mem_cons_self
    have htail := ih fun a ha => h a (List.mem_cons_of_mem b ha)
    simp only [List.foldr_cons]
    omega

theorem foldr_add_lt {f f' : String → Nat} (hle : ∀ a ∈ names, f a ≤ f' a)
    (hlt : ∃ a ∈ names, f a < f' a) :
    names.foldr (fun a n => f a + n) 0 < names.foldr (fun a n => f' a + n) 0 := by
  induction names with
  | nil => simp at hlt
  | cons b names ih =>
    have hb := hle b List.mem_cons_self
    have hle := fun a ha => hle a (List.mem_cons_of_mem b ha)
    have htail := foldr_add_le hle
    simp only [List.foldr_cons]
    obtain ⟨a, ha, hlt⟩ := hlt
    rcases List.mem_cons.1 ha with rfl | ha'
    · omega
    · have := ih hle ⟨a, ha', hlt⟩
      omega

theorem Extends.room_lt (h : Extends names base F G) (hgrow : ¬ G ≤ F) :
    room names base G < room names base F := by
  have hsub (a : String) :
      ((base ∪ G.symbols).toList.filter (· ∉ G.lookup a)) ⊆
        (base ∪ F.symbols).toList.filter (· ∉ F.lookup a) := by
    intro x hx
    simp only [List.mem_filter, Std.ExtTreeSet.mem_toList, decide_eq_true_eq] at hx ⊢
    refine ⟨?_, fun hF => hx.2 (h.le a x hF)⟩
    rcases Std.ExtTreeSet.mem_union_iff.1 hx.1 with hb | hb
    · exact Std.ExtTreeSet.mem_union_iff.2 (.inl hb)
    · obtain ⟨b, hb⟩ := mem_symbols.1 hb
      exact h.mem hb
  have hnodup (s : SymbolSet) (p : Symbol → Bool) : (s.toList.filter p).Nodup :=
    ((s.distinct_toList).imp fun hne he => hne (by simp [he])).filter p
  obtain ⟨a, hgrow⟩ := Classical.not_forall.1 hgrow
  obtain ⟨x, hgrow⟩ := Classical.not_forall.1 hgrow
  obtain ⟨hG, hF⟩ := Classical.not_imp.1 hgrow
  have hnames : a ∈ names := ((h.bound a x hG).resolve_left hF).1
  refine foldr_add_lt (fun b _ => (hnodup ..).length_le_of_subset (hsub b)) ⟨a, hnames, ?_⟩
  have hx : x ∉ (base ∪ G.symbols).toList.filter (· ∉ G.lookup a) := by
    simp [hG]
  refine Nat.lt_of_succ_le ((List.nodup_cons.2 ⟨hx, hnodup ..⟩).length_le_of_subset ?_)
  refine List.cons_subset.2 ⟨?_, hsub a⟩
  simp only [List.mem_filter, Std.ExtTreeSet.mem_toList, decide_eq_true_eq]
  exact ⟨h.mem hG, hF⟩

end Family

end SimpleLR
