import SimpleLR.Proofs.Automaton.ViablePrefix
import SimpleLR.Proofs.Follow.Exactness
import SimpleLR.Proofs.Grammar.Parses

namespace SimpleLR

/-- A configuration with symbols on the stack, the bottom one first. -/
structure View where
  spelled : List Symbol
  input : List Symbol
  reductions : List Nat

namespace View

/-- The moves that valid items call for. -/
inductive Moves (g : Grammar) : View → View → Prop where
  | shift {γ input : List Symbol} {is : List Nat} {b : String} {i : Item} (hv : i.Valid g γ)
    (hn : i.next? g = some (.terminal b)) :
    Moves g ⟨γ, .terminal b :: input, is⟩ ⟨γ ++ [.terminal b], input, is⟩
  | reduce {γ input : List Symbol} {is : List Nat} {q : Nat} {p : Production} {x : Symbol}
    (hp : g.productions[q]? = some p) (hq : q ≠ 0)
    (hv : Item.Valid g (γ ++ p.rhs) ⟨q, p.rhs.length⟩) (hx : g.CanFollow p.lhs x) :
    Moves g ⟨γ ++ p.rhs, x :: input, is⟩ ⟨γ ++ [.nonterminal p.lhs], x :: input, q :: is⟩

def Reaches (g : Grammar) : View → View → Prop :=
  Relation.ReflTransGen (Moves g)

def initial (w : List String) : View :=
  ⟨[], w.map .terminal ++ [.endMarker], []⟩

/-- The start symbol has been read and nothing else, up to the end marker. -/
def Final (g : Grammar) (v : View) : Prop :=
  v.spelled = [.nonterminal g.start] ∧ v.input.head? = some .endMarker

/-- What has been spelled derives the part of `w` that has been read. -/
def Undoes (g : Grammar) (w : List String) (v : View) : Prop :=
  ∃ u, g.Parses v.spelled v.reductions.reverse u ∧
    u.map .terminal ++ v.input = w.map .terminal ++ [.endMarker]

variable {g : Grammar} {v v' : View} {w : List String}

theorem undoes_initial (g : Grammar) (w : List String) : Undoes g w (initial w) :=
  ⟨[], .nil, rfl⟩

theorem Undoes.moves (h : Undoes g w v) (hm : v.Moves g v') : Undoes g w v' := by
  obtain ⟨u, hu, hinput⟩ := h
  cases hm with
  | @shift γ input is b i hv hn =>
    have hinput' : (u ++ [b]).map .terminal ++ input = w.map .terminal ++ [.endMarker] := by
      rw [List.map_append, List.append_assoc]
      exact hinput
    exact ⟨u ++ [b], hu.shift b, hinput'⟩
  | @reduce γ input is q p x hp =>
    have hu' := hu.reduce hp
    rw [← List.reverse_cons] at hu'
    exact ⟨u, hu', hinput⟩

theorem Undoes.reaches (h : Undoes g w v) (hm : v.Reaches g v') : Undoes g w v' := by
  induction hm with
  | refl => exact h
  | tail _ hm ih => exact ih.moves hm

theorem eq_of_terminals_append {u w : List String} {rest : List Symbol}
    (h : u.map Symbol.terminal ++ .endMarker :: rest = w.map Symbol.terminal ++ [.endMarker]) :
    u = w := by
  induction u generalizing w with
  | nil =>
    cases w with
    | nil => rfl
    | cons a w => cases (List.cons.inj h).1
  | cons a u ih =>
    cases w with
    | nil => cases (List.cons.inj h).1
    | cons b w =>
      obtain ⟨hab, htail⟩ := List.cons.inj h
      rw [Symbol.terminal.inj hab, ih htail]

theorem Undoes.input_eq (h : Undoes g w v) (hend : v.input.head? = some .endMarker) :
    v.input = [.endMarker] := by
  obtain ⟨u, -, hinput⟩ := h
  obtain ⟨rest, hrest⟩ := List.head?_eq_some_iff.1 hend
  rw [hrest] at hinput ⊢
  obtain rfl := eq_of_terminals_append hinput
  exact List.append_cancel_left hinput

theorem Undoes.final (h : Undoes g w v) (hf : v.Final g) :
    g.Parses [.nonterminal g.start] v.reductions.reverse w := by
  obtain ⟨u, hu, hinput⟩ := h
  obtain ⟨hspelled, hend⟩ := hf
  obtain ⟨rest, hrest⟩ := List.head?_eq_some_iff.1 hend
  rw [hrest] at hinput
  rw [hspelled, eq_of_terminals_append hinput] at hu
  exact hu

theorem next?_of_drop {q d : Nat} {p : Production} {x : Symbol} {α : List Symbol}
    (hp : g.productions[q]? = some p) (h : p.rhs.drop d = x :: α) :
    Item.next? g ⟨q, d⟩ = some x ∧ p.rhs.drop (d + 1) = α := by
  constructor
  · rw [Item.next?, hp, Option.bind_some, ← List.head?_drop, h]
    rfl
  · rw [← List.tail_drop, h]
    rfl

/-- The symbol after a nonterminal of a production, in the input or after all that the production
derives, can follow the nonterminal. -/
theorem exists_lookahead {p : Production} (hp : p ∈ g.productions) {α β : List Symbol}
    {b : String} {is : List Nat} {u : List String} {z : Symbol}
    (he : p.rhs = α ++ .nonterminal b :: β) (hβ : g.Parses β is u) (hz : g.CanFollow p.lhs z)
    (input : List Symbol) :
    ∃ x input', u.map .terminal ++ z :: input = x :: input' ∧ g.CanFollow b x := by
  have hd : g.Derives β (u.map .terminal) := Grammar.derives_iff_parses.2 ⟨is, hβ⟩
  obtain ⟨hfirst, hinherit⟩ := Follow.obeys_canFollow hp α b β he
  cases u with
  | nil =>
    exact ⟨z, input, rfl, hinherit (First.mem_ofSequence_of_canBegin hd) z hz⟩
  | cons a u =>
    have hb : g.CanFollow b (.terminal a) := by
      apply hfirst
      · exact First.mem_ofSequence_of_canBegin ⟨_, hd⟩
      · exact Symbol.noConfusion
    exact ⟨.terminal a, u.map .terminal ++ z :: input, rfl, hb⟩

/-- From the dot of a valid item on, the parser reads what the rest of the production derives. -/
theorem reaches_of_parses {α : List Symbol} {is : List Nat} {u : List String}
    (h : g.Parses α is u) {γ : List Symbol} {q d : Nat} {p : Production} {z : Symbol}
    (hv : Item.Valid g γ ⟨q, d⟩) (hp : g.productions[q]? = some p) (hα : p.rhs.drop d = α)
    (hz : g.CanFollow p.lhs z) (input : List Symbol) (js : List Nat) :
    Reaches g ⟨γ, u.map .terminal ++ z :: input, js⟩ ⟨γ ++ α, z :: input, is.reverse ++ js⟩ := by
  induction h generalizing γ q d p z input js with
  | nil =>
    rw [List.append_nil]
    exact .refl
  | @terminal a α is u _ ih =>
    obtain ⟨hn, hα'⟩ := next?_of_drop hp hα
    have h := ih (hv.advance hn) hp hα' hz input js
    rw [List.append_assoc] at h
    exact .head (.shift hv hn) h
  | @nonterminal i p' α is is' u u' hp' _ hparses ihrhs ih =>
    obtain ⟨hn, hα'⟩ := next?_of_drop hp hα
    have he : p.rhs = p.rhs.take d ++ .nonterminal p'.lhs :: α := by
      rw [← hα, List.take_append_drop]
    obtain ⟨x, input', hinput, hx⟩ :=
      exists_lookahead (List.mem_of_getElem? hp) he hparses hz input
    have hv₀ : Item.Valid g γ ⟨i, 0⟩ :=
      hv.of_mem_expansion (Item.mem_expansion.2 ⟨_, p', hn, hp', rfl, rfl⟩)
    -- the right-hand side of `p'` is read first, and then reduced
    have hrhs := ihrhs hv₀ hp' List.drop_zero hx input' js
    have hv' : Item.Valid g (γ ++ p'.rhs) ⟨i, p'.rhs.length⟩ := by
      have hv' := Item.Valid.expand hv hn hp' (Nat.le_refl _)
      rwa [List.take_length] at hv'
    have hi : i ≠ 0 := by
      rintro rfl
      obtain rfl := Option.some.inj hp'
      exact Item.next?_ne_augmentedStart hn
    have hreduce := hrhs.tail (.reduce hp' hi hv' hx)
    have h := ih (hv.advance hn) hp hα' hz input (i :: (is.reverse ++ js))
    rw [hinput] at h
    have hrun : Reaches g _ _ := hreduce.trans h
    rw [List.map_append, List.append_assoc, hinput, List.reverse_append, List.reverse_cons]
    simpa only [List.append_assoc, List.cons_append, List.nil_append] using hrun

theorem reaches_final {is : List Nat} (h : g.Parses [.nonterminal g.start] is w) :
    ∃ v, (initial w).Reaches g v ∧ v.Final g ∧ v.reductions = is.reverse := by
  have hz : g.CanFollow g.startProduction.lhs .endMarker := ⟨[], .refl⟩
  have hr := reaches_of_parses h (Item.Valid.start_zero g) (p := g.startProduction) rfl rfl hz [] []
  exact ⟨_, hr, ⟨rfl, rfl⟩, List.append_nil _⟩

end View

end SimpleLR
