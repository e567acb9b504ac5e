import Std.Data.ExtTreeSet
import SimpleLR.Grammar.Basic
import SimpleLR.Saturation

namespace SimpleLR

/-- A production, by its number, with as many symbols of its right-hand side before the dot as
`dot` says. An item may also be outside a grammar, or have its dot past the end. -/
structure Item where
  production : Nat
  dot : Nat
deriving DecidableEq, Repr

namespace Item

instance : Ord Item :=
  ⟨compareLex (compareOn production) (compareOn dot)⟩

instance : Std.TransOrd Item :=
  inferInstanceAs (Std.TransCmp (compareLex (compareOn production) (compareOn dot)))

instance : Std.LawfulEqOrd Item where
  eq_of_compare {i j} h := by
    have h := Ordering.then_eq_eq.1 h
    simp only [compareOn, Std.LawfulEqCmp.compare_eq_iff_eq] at h
    cases i
    cases j
    simp_all

def next? (g : Grammar) (i : Item) : Option Symbol :=
  g.productions[i.production]?.bind (·.rhs[i.dot]?)

def isComplete (g : Grammar) (i : Item) : Bool :=
  g.productions[i.production]?.any (i.dot = ·.rhs.length)

def advance (i : Item) : Item :=
  ⟨i.production, i.dot + 1⟩

/-- The items that begin a production for the nonterminal after the dot. -/
def expansion (g : Grammar) (i : Item) : List Item :=
  match i.next? g with
  | some (.nonterminal a) => (g.productionIndices a).map (⟨·, 0⟩)
  | _ => []

def InRange (g : Grammar) (i : Item) : Prop :=
  ∃ p, g.productions[i.production]? = some p ∧ i.dot ≤ p.rhs.length

theorem mem_expansion {g : Grammar} {i j : Item} :
    j ∈ i.expansion g ↔ ∃ a p, i.next? g = some (.nonterminal a) ∧
      g.productions[j.production]? = some p ∧ p.lhs = a ∧ j.dot = 0 := by
  cases j
  unfold expansion
  split <;> grind [Grammar.mem_productionIndices]

theorem inRange_of_mem_expansion {g : Grammar} {i j : Item} (h : j ∈ i.expansion g) :
    j.InRange g := by
  obtain ⟨_, p, _, hp, _, hd⟩ := mem_expansion.1 h
  exact ⟨p, hp, by omega⟩

theorem inRange_advance {g : Grammar} {i : Item} {x : Symbol} (h : i.next? g = some x) :
    i.advance.InRange g := by
  obtain ⟨p, hp, hx⟩ := Option.bind_eq_some_iff.1 h
  exact ⟨p, hp, (List.getElem?_eq_some_iff.1 hx).1⟩

end Item

abbrev ItemSet := Std.ExtTreeSet Item

namespace ItemSet

def InRange (g : Grammar) (I : ItemSet) : Prop :=
  ∀ i ∈ I, i.InRange g

def expand (g : Grammar) (I : ItemSet) : ItemSet :=
  I.insertMany (I.toList.flatMap (Item.expansion g))

theorem mem_expand {g : Grammar} {I : ItemSet} {j : Item} :
    j ∈ expand g I ↔ j ∈ I ∨ ∃ i ∈ I, j ∈ i.expansion g := by
  simp [expand]

/-- The number of productions that do not begin at a dot of the set. -/
def room (g : Grammar) (I : ItemSet) : Nat :=
  (List.range g.productions.length).countP fun p => ⟨p, 0⟩ ∉ I

theorem room_expand_lt {g : Grammar} {I : ItemSet} (h : expand g I ≠ I) :
    room g (expand g I) < room g I := by
  obtain ⟨j, hj, hjI⟩ : ∃ j ∈ expand g I, j ∉ I := by
    refine Classical.byContradiction fun hn => h (Std.ExtTreeSet.ext_mem fun j => ?_)
    refine ⟨fun hj => Classical.byContradiction fun hjI => hn ⟨j, hj, hjI⟩, fun hj => ?_⟩
    exact mem_expand.2 (.inl hj)
  obtain ⟨i, _, hi⟩ := (mem_expand.1 hj).resolve_left hjI
  obtain ⟨_, p, _, hp, _, hd⟩ := Item.mem_expansion.1 hi
  have hj₀ : (⟨j.production, 0⟩ : Item) = j := by
    rw [← hd]
  refine countP_lt_countP (fun q _ hq => ?_) ⟨j.production, ?_, ?_⟩
  · simp only [decide_eq_true_eq] at hq ⊢
    exact fun hI => hq (mem_expand.2 (.inl hI))
  · exact List.mem_range.2 (List.getElem?_eq_some_iff.1 hp).1
  · simp [hj₀, hj, hjI]

/-- The least set that holds the items of `I` and the expansion of each of its items. -/
def closure (g : Grammar) (I : ItemSet) : ItemSet :=
  saturate (expand g) (fun I => expand g I = I) (room g) (fun _ => room_expand_lt) I

def advance (g : Grammar) (I : ItemSet) (x : Symbol) : ItemSet :=
  .ofList ((I.toList.filter (·.next? g = some x)).map Item.advance)

def goto (g : Grammar) (I : ItemSet) (x : Symbol) : ItemSet :=
  closure g (advance g I x)

theorem mem_advance {g : Grammar} {I : ItemSet} {x : Symbol} {j : Item} :
    j ∈ advance g I x ↔ ∃ i ∈ I, i.next? g = some x ∧ i.advance = j := by
  simp [advance, and_assoc]

theorem InRange.closure {g : Grammar} {I : ItemSet} (h : InRange g I) :
    InRange g (closure g I) := by
  refine saturate_induction (fun I h j hj => ?_) h
  rcases mem_expand.1 hj with hj | ⟨i, _, hj⟩
  · exact h j hj
  · exact Item.inRange_of_mem_expansion hj

theorem inRange_goto (g : Grammar) (I : ItemSet) (x : Symbol) : InRange g (goto g I x) := by
  refine InRange.closure fun j hj => ?_
  obtain ⟨i, _, hx, rfl⟩ := mem_advance.1 hj
  exact Item.inRange_advance hx

end ItemSet

end SimpleLR
