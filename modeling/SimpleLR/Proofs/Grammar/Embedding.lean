import Mathlib.Logic.Function.Basic
import SimpleLR.Proofs.Automaton.ViablePrefix
import SimpleLR.Proofs.Follow.Exactness

namespace SimpleLR

/-- Renumbers what follows the first place and leaves that as it is. -/
def shiftIndex (f : Nat → Nat) : Nat → Nat
  | 0 => 0
  | i + 1 => f i + 1

theorem shiftIndex_injective {f : Nat → Nat} (hf : Function.Injective f) :
    Function.Injective (shiftIndex f) := by
  intro i j hij
  cases i with
  | zero =>
    cases j with
    | zero => rfl
    | succ j => cases hij
  | succ i =>
    cases j with
    | zero => cases hij
    | succ j => rw [hf (Nat.succ.inj hij)]

/-- The productions of `g` are productions of `g'`, with the numbers that `σ` gives them. What is
not the number of a production does not become one. -/
structure Grammar.Embeds (g g' : Grammar) (σ : Nat → Nat) : Prop where
  productions : ∀ i, g'.productions[σ i]? = g.productions[i]?
  zero : σ 0 = 0
  injective : Function.Injective σ
  nonterminals : ∀ a ∈ g.nonterminals, a ∈ g'.nonterminals

def Item.renumber (σ : Nat → Nat) (i : Item) : Item :=
  ⟨σ i.production, i.dot⟩

namespace Grammar.Embeds

variable {g g' : Grammar} {σ : Nat → Nat} {α β γ : List Symbol} {x : Symbol}

theorem mem_productions (h : g.Embeds g' σ) {p : Production} (hp : p ∈ g.productions) :
    p ∈ g'.productions := by
  obtain ⟨i, hi⟩ := List.mem_iff_getElem?.1 hp
  rw [← h.productions] at hi
  exact List.mem_of_getElem? hi

theorem startProduction_eq (h : g.Embeds g' σ) : g'.startProduction = g.startProduction := by
  have hzero := h.productions 0
  rw [h.zero] at hzero
  exact Option.some.inj hzero

theorem augmentedStart_eq (h : g.Embeds g' σ) : g'.augmentedStart = g.augmentedStart :=
  congrArg Production.lhs h.startProduction_eq

theorem start_eq (h : g.Embeds g' σ) : g'.start = g.start := by
  have hrhs : [Symbol.nonterminal g'.start] = [.nonterminal g.start] :=
    congrArg Production.rhs h.startProduction_eq
  exact Symbol.nonterminal.inj (List.singleton_inj.1 hrhs)

theorem mem_heads (h : g.Embeds g' σ) {a : String} (ha : a ∈ g.heads) : a ∈ g'.heads := by
  rcases List.mem_cons.1 ha with rfl | ha
  · exact List.mem_cons.2 (.inl h.augmentedStart_eq.symm)
  · exact List.mem_cons_of_mem _ (h.nonterminals a ha)

theorem derives (h : g.Embeds g' σ) (hd : g.Derives α β) : g'.Derives α β := by
  induction hd with
  | refl => exact .refl
  | tail _ hs ih =>
    cases hs with
    | intro hp γ δ => exact ih.tail (.intro (h.mem_productions hp) γ δ)

theorem canBegin (h : g.Embeds g' σ) (hx : g.CanBegin α x) : g'.CanBegin α x := by
  cases x with
  | terminal a =>
    obtain ⟨β, hβ⟩ := hx
    exact ⟨β, h.derives hβ⟩
  | epsilon => exact h.derives hx
  | nonterminal => exact hx
  | endMarker => exact hx

theorem canFollow (h : g.Embeds g' σ) {a : String} (hx : g.CanFollow a x) : g'.CanFollow a x := by
  cases x with
  | terminal b =>
    obtain ⟨c, hc, α, β, hd⟩ := hx
    exact ⟨c, h.mem_heads hc, α, β, h.derives hd⟩
  | endMarker =>
    obtain ⟨α, hd⟩ := hx
    rw [← h.augmentedStart_eq] at hd
    exact ⟨α, h.derives hd⟩
  | nonterminal => exact hx
  | epsilon => exact hx

theorem first_le (h : g.Embeds g' σ) : First.sets g ≤ First.sets g' := by
  intro a x hx
  exact First.mem_lookup_sets.2 (h.canBegin (First.mem_lookup_sets.1 hx))

theorem follow_le (h : g.Embeds g' σ) :
    Follow.sets g (First.sets g) ≤ Follow.sets g' (First.sets g') := by
  intro a x hx
  exact Follow.mem_lookup_sets.2 (h.canFollow (Follow.mem_lookup_sets.1 hx))

theorem next?_renumber (h : g.Embeds g' σ) (i : Item) :
    (i.renumber σ).next? g' = i.next? g := by
  rw [Item.next?, Item.renumber, h.productions, Item.next?]

theorem valid (h : g.Embeds g' σ) {i : Item} (hv : i.Valid g γ) : (i.renumber σ).Valid g' γ := by
  induction hv with
  | start hd =>
    rw [Item.renumber, h.zero, ← h.startProduction_eq]
    apply Item.Valid.start
    rw [h.startProduction_eq]
    exact hd
  | expand _ hn hp hd ih =>
    rw [← h.next?_renumber] at hn
    rw [← h.productions] at hp
    exact .expand ih hn hp hd

end Grammar.Embeds

end SimpleLR
