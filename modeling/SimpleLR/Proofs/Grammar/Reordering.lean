import Mathlib.Logic.Equiv.Basic
import SimpleLR.Proofs.Family
import SimpleLR.Proofs.Grammar.Embedding
import SimpleLR.Proofs.Grammar.RuleText

namespace SimpleLR

def shiftPerm (σ : Equiv.Perm Nat) : Equiv.Perm Nat where
  toFun := shiftIndex σ
  invFun := shiftIndex σ.symm
  left_inv i := by
    cases i with
    | zero => rfl
    | succ i => simp only [shiftIndex, Equiv.symm_apply_apply]
  right_inv i := by
    cases i with
    | zero => rfl
    | succ i => simp only [shiftIndex, Equiv.apply_symm_apply]

theorem exists_perm_getElem? {α : Type} {l l' : List α} (h : l.Perm l') :
    ∃ σ : Equiv.Perm Nat, ∀ i, l'[σ i]? = l[i]? := by
  induction h with
  | nil => exact ⟨Equiv.refl Nat, fun _ => rfl⟩
  | cons a _ ih =>
    obtain ⟨σ, hσ⟩ := ih
    refine ⟨shiftPerm σ, fun i => ?_⟩
    cases i with
    | zero => rfl
    | succ i => exact hσ i
  | swap a b l =>
    refine ⟨Equiv.swap 0 1, fun i => ?_⟩
    match i with
    | 0 => rfl
    | 1 => rfl
    | i + 2 =>
      rw [Equiv.swap_apply_of_ne_of_ne (by omega) (by omega)]
      rfl
  | trans _ _ ih ih' =>
    obtain ⟨σ, hσ⟩ := ih
    obtain ⟨τ, hτ⟩ := ih'
    exact ⟨σ.trans τ, fun i => (hτ (σ i)).trans (hσ i)⟩

/-- The renumbering of productions that takes one list of rules to another. The production of the
augmented start, which is not one of the rules, keeps its number. -/
def Renumbers (σ : Equiv.Perm Nat) (rules rules' : List String) : Prop :=
  σ 0 = 0 ∧ ∀ i j, σ (i + 1) = j + 1 → rules'[j]? = rules[i]?

theorem exists_renumbers {rules rules' : List String} (h : rules.Perm rules') :
    ∃ σ, Renumbers σ rules rules' := by
  obtain ⟨σ, hσ⟩ := exists_perm_getElem? h
  refine ⟨shiftPerm σ, rfl, ?_⟩
  intro i j hij
  obtain rfl : σ i = j := Nat.succ.inj hij
  exact hσ i

namespace Grammar

/-- The grammars have the same productions, with the numbers that `σ` gives them in the second. -/
structure Reorders (g g' : Grammar) (σ : Equiv.Perm Nat) : Prop where
  productions : ∀ i, g'.productions[σ i]? = g.productions[i]?
  zero : σ 0 = 0
  nonterminals : ∀ a, a ∈ g.nonterminals ↔ a ∈ g'.nonterminals

namespace Reorders

variable {g g' : Grammar} {σ : Equiv.Perm Nat}

theorem symm (h : g.Reorders g' σ) : g'.Reorders g σ.symm where
  productions i := by rw [← h.productions, Equiv.apply_symm_apply]
  zero := by rw [Equiv.symm_apply_eq, h.zero]
  nonterminals a := (h.nonterminals a).symm

theorem embeds (h : g.Reorders g' σ) : g.Embeds g' σ :=
  ⟨h.productions, h.zero, σ.injective, fun a => (h.nonterminals a).1⟩

theorem mem_heads_iff (h : g.Reorders g' σ) {a : String} : a ∈ g.heads ↔ a ∈ g'.heads :=
  ⟨h.embeds.mem_heads, h.symm.embeds.mem_heads⟩

theorem first_eq (h : g.Reorders g' σ) : First.sets g = First.sets g' := by
  apply Family.ext_lookup
  · intro a
    rw [First.mem_sets_iff, First.mem_sets_iff, h.mem_heads_iff]
  · intro a x
    exact ⟨h.embeds.first_le a x, h.symm.embeds.first_le a x⟩

theorem follow_eq (h : g.Reorders g' σ) :
    Follow.sets g (First.sets g) = Follow.sets g' (First.sets g') := by
  apply Family.ext_lookup
  · intro a
    rw [Follow.mem_sets_iff, Follow.mem_sets_iff, h.mem_heads_iff]
  · intro a x
    exact ⟨h.embeds.follow_le a x, h.symm.embeds.follow_le a x⟩

end Reorders

variable {g g' : Grammar} {rules rules' terminals terminals' : List String}
  {nonterminals nonterminals' : List String} {start : String} {σ : Equiv.Perm Nat}

theorem freshen_congr {v v' : Vocabulary} (h : ∀ x, x ∈ v.symbols ↔ x ∈ v'.symbols) (a : String) :
    v.freshen a = v'.freshen a := by
  have hnames (a : String) : a ∈ v.names ↔ a ∈ v'.names := by
    simp only [Vocabulary.mem_names, ← Vocabulary.terminal_mem_symbols,
      ← Vocabulary.nonterminal_mem_symbols, h]
  fun_induction v.freshen a with
  | case1 a ha ih => rw [ih, Vocabulary.freshen.eq_def v' a, if_pos ((hnames a).1 ha)]
  | case2 a ha => rw [Vocabulary.freshen, if_neg fun ha' => ha ((hnames a).2 ha')]

theorem readRule_of_symbols {v v' : Vocabulary} (h : ∀ x, x ∈ v.symbols ↔ x ∈ v'.symbols)
    {text : String} {p : Production} (hp : readRule v text = .ok p) :
    readRule v' text = .ok p := by
  obtain ⟨⟨hlhs, hrhs⟩, hwords⟩ := readRule_eq_ok_iff.1 hp
  rw [← Vocabulary.nonterminal_mem_symbols, h] at hlhs
  have hover : p.Over v' :=
    ⟨Vocabulary.nonterminal_mem_symbols.1 hlhs, fun x hx => (h x).1 (hrhs x hx)⟩
  exact readRule_eq_ok_iff.2 ⟨hover, hwords⟩

theorem rules_getElem?_eq (hsymbols : ∀ x, x ∈ g.symbols ↔ x ∈ g'.symbols)
    (hg : rules.mapM (readRule g.toVocabulary) = .ok g.rules)
    (hg' : rules'.mapM (readRule g'.toVocabulary) = .ok g'.rules) {i j : Nat}
    (hij : rules'[j]? = rules[i]?) : g'.rules[j]? = g.rules[i]? := by
  rcases getElem?_of_mapM_eq_ok hg i with ⟨hi, hp⟩ | ⟨text, p, hi, hp, hread⟩
  · rcases getElem?_of_mapM_eq_ok hg' j with ⟨_, hp'⟩ | ⟨text', _, hj, _, _⟩
    · rw [hp, hp']
    · rw [hij, hi] at hj
      cases hj
  · rcases getElem?_of_mapM_eq_ok hg' j with ⟨hj, _⟩ | ⟨text', p', hj, hp', hread'⟩
    · rw [hij, hi] at hj
      cases hj
    · obtain rfl : text = text' := Option.some.inj ((hi.symm.trans hij.symm).trans hj)
      have hsame := (readRule_of_symbols hsymbols hread).symm.trans hread'
      rw [hp, hp', Except.ok.inj hsame]

/-- Rules that are read in another order are read as the same productions. -/
theorem reorders_of_load (hg : load rules terminals nonterminals start = .ok g)
    (hg' : load rules' terminals' nonterminals' start = .ok g') (ht : terminals.Perm terminals')
    (hn : nonterminals.Perm nonterminals') (hσ : Renumbers σ rules rules') :
    g.Reorders g' σ := by
  obtain ⟨hdeclare, hstart, haug, hrules⟩ := load_eq_ok_iff.1 hg
  obtain ⟨hdeclare', hstart', haug', hrules'⟩ := load_eq_ok_iff.1 hg'
  obtain ⟨rfl, rfl⟩ := Vocabulary.declare_eq_ok_iff.1 hdeclare
  obtain ⟨rfl, rfl⟩ := Vocabulary.declare_eq_ok_iff.1 hdeclare'
  have hnonterminals (a : String) : a ∈ g.nonterminals ↔ a ∈ g'.nonterminals := hn.mem_iff
  have hsymbols (x : Symbol) : x ∈ g.symbols ↔ x ∈ g'.symbols :=
    ((ht.map _).append (hn.map _)).mem_iff
  have hstartProduction : g'.startProduction = g.startProduction := by
    rw [startProduction, startProduction, haug, haug', hstart, hstart', freshen_congr hsymbols]
  refine ⟨fun i => ?_, hσ.1, hnonterminals⟩
  cases i with
  | zero =>
    rw [hσ.1]
    exact congrArg some hstartProduction
  | succ i =>
    have hne : σ (i + 1) ≠ 0 := by
      intro he
      exact Nat.succ_ne_zero i (σ.injective (he.trans hσ.1.symm))
    obtain ⟨j, hj⟩ := Nat.exists_eq_succ_of_ne_zero hne
    rw [hj]
    exact rules_getElem?_eq hsymbols hrules hrules' (hσ.2 i j hj)

end Grammar

end SimpleLR
