import SimpleLR.First
import SimpleLR.Proofs.Grammar.Splitting

namespace SimpleLR.First

variable {g : Grammar} {K : Family} {R : Reading}

theorem sequenceHas_append {α β : List Symbol} {x : Symbol} :
    SequenceHas R (α ++ β) x ↔
      x ≠ .epsilon ∧ SequenceHas R α x ∨ SequenceHas R α .epsilon ∧ SequenceHas R β x := by
  induction α with
  | nil =>
    rw [List.nil_append]
    simp only [SequenceHas, true_and, not_and_self_iff, ne_eq, false_or]
  | cons y α ih =>
    rw [List.cons_append]
    constructor
    · intro h
      rcases h with ⟨hne, hy⟩ | ⟨hy, hx⟩
      · exact .inl ⟨hne, .inl ⟨hne, hy⟩⟩
      · rcases ih.1 hx with ⟨hne, hα⟩ | ⟨hα, hβ⟩
        · exact .inl ⟨hne, .inr ⟨hy, hα⟩⟩
        · exact .inr ⟨.inr ⟨hy, hα⟩, hβ⟩
    · intro h
      rcases h with ⟨hne, ⟨_, hy⟩ | ⟨hy, hα⟩⟩ | ⟨⟨hε, _⟩ | ⟨hy, hα⟩, hβ⟩
      · exact .inl ⟨hne, hy⟩
      · exact .inr ⟨hy, ih.2 (.inl ⟨hne, hα⟩)⟩
      · exact absurd rfl hε
      · exact .inr ⟨hy, ih.2 (.inr ⟨hα, hβ⟩)⟩

theorem sequenceHas_epsilon {α : List Symbol} :
    SequenceHas R α .epsilon ↔ ∀ y ∈ α, SymbolHas R y .epsilon := by
  induction α with
  | nil => exact iff_of_true rfl fun _ hy => absurd hy List.not_mem_nil
  | cons y α ih =>
    rw [SequenceHas, List.forall_mem_cons, ih]
    exact or_iff_right fun h => h.1 rfl

theorem epsilon_mem_ofSequence {α : List Symbol} :
    .epsilon ∈ ofSequence K α ↔ ∀ y ∈ α, .epsilon ∈ ofSymbol K y := by
  simp only [mem_ofSequence, mem_ofSymbol, sequenceHas_epsilon]

/-- FIRST of a concatenation has what its first part has, and what its second part has if the first
part can become empty, which needs each of its symbols to do so. -/
theorem ofSequence_append (K : Family) (α β : List Symbol) :
    ofSequence K (α ++ β) =
        (if .epsilon ∈ ofSequence K α then (ofSequence K α).erase .epsilon ∪ ofSequence K β
        else ofSequence K α) ∧
      (.epsilon ∈ ofSequence K α ↔ ∀ y ∈ α, .epsilon ∈ ofSymbol K y) := by
  refine ⟨Std.ExtTreeSet.ext_mem fun x => ?_, epsilon_mem_ofSequence⟩
  have happend : x ∈ ofSequence K (α ++ β) ↔ x ≠ .epsilon ∧ x ∈ ofSequence K α ∨
      .epsilon ∈ ofSequence K α ∧ x ∈ ofSequence K β := by
    simp only [mem_ofSequence, sequenceHas_append]
  by_cases hα : .epsilon ∈ ofSequence K α
  · rw [happend, if_pos hα, Std.ExtTreeSet.mem_union_iff, SymbolSet.mem_erase, and_iff_right hα]
  · have hne : x ∈ ofSequence K α → x ≠ .epsilon := fun hx he => hα (he ▸ hx)
    rw [happend, if_neg hα, or_iff_left fun h => hα h.1, and_iff_right_of_imp hne]

theorem mem_heads_of_produces {a : String} {x : Symbol} (h : Produces g R a x) : a ∈ g.heads := by
  obtain ⟨α, hα, -⟩ := h
  exact Grammar.lhs_mem_heads (Grammar.mem_alternatives.1 hα)

/-- The sets have all that productions bring into them. -/
def Closed (g : Grammar) (R : Reading) : Prop :=
  ∀ a x, Produces g R a x → R a x

/-- The sets have nothing but what productions bring into them. -/
def Grounded (g : Grammar) (R : Reading) : Prop :=
  ∀ a x, R a x → Produces g R a x

theorem Closed.of_rewrites (h : Closed g R) {α β : List Symbol} (hs : g.Rewrites α β) {x : Symbol}
    (hx : SequenceHas R β x) : SequenceHas R α x := by
  cases hs with
  | @intro p hp γ δ =>
    have hrhs {y : Symbol} (hy : SequenceHas R p.rhs y) : R p.lhs y :=
      h p.lhs y ⟨p.rhs, Grammar.mem_alternatives.2 hp, hy⟩
    rw [List.append_assoc, sequenceHas_append] at hx
    rw [sequenceHas_append]
    rcases hx with hx | ⟨hγ, hx⟩
    · exact .inl hx
    · refine .inr ⟨hγ, ?_⟩
      rcases sequenceHas_append.1 hx with ⟨hne, hx⟩ | ⟨hε, hx⟩
      · exact .inl ⟨hne, hrhs hx⟩
      · exact .inr ⟨hrhs hε, hx⟩

theorem Closed.of_canBegin (h : Closed g R) {α : List Symbol} {x : Symbol}
    (hx : g.CanBegin α x) : SequenceHas R α x := by
  have hder {β : List Symbol} (hd : g.Derives α β) (hβ : SequenceHas R β x) :
      SequenceHas R α x := by
    induction hd with
    | refl => exact hβ
    | tail _ hs ih => exact ih (h.of_rewrites hs hβ)
  cases x with
  | terminal a =>
    obtain ⟨β, hβ⟩ := hx
    exact hder hβ (.inl ⟨by simp, rfl⟩)
  | epsilon => exact hder hx rfl
  | nonterminal => exact hx.elim
  | endMarker => exact hx.elim

/-- What derivations say of FIRST of the nonterminals. -/
def canBegin (g : Grammar) : Reading :=
  fun a => g.CanBegin [.nonterminal a]

theorem canBegin_of_sequenceHas {α : List Symbol} (hα : ∀ y ∈ α, y.isTerminal ∨ y.isNonterminal)
    {x : Symbol} (hx : SequenceHas (canBegin g) α x) : g.CanBegin α x := by
  induction α generalizing x with
  | nil => exact Grammar.canBegin_nil.2 hx
  | cons y α ih =>
    obtain ⟨hy, hα⟩ := List.forall_mem_cons.1 hα
    have hhead {z : Symbol} (hz : SymbolHas (canBegin g) y z) : g.CanBegin [y] z := by
      cases y with
      | terminal => exact Grammar.canBegin_terminal.2 hz
      | nonterminal => exact hz
      | epsilon => simp [Symbol.isTerminal, Symbol.isNonterminal] at hy
      | endMarker => simp [Symbol.isTerminal, Symbol.isNonterminal] at hy
    rw [← List.singleton_append, Grammar.canBegin_append]
    rcases hx with ⟨hne, hx⟩ | ⟨hε, hx⟩
    · exact .inl ⟨hne, hhead hx⟩
    · exact .inr ⟨hhead hε, ih hα hx⟩

theorem closed_canBegin (g : Grammar) : Closed g (canBegin g) := by
  rintro a x ⟨α, hα, hx⟩
  have hsymbols := fun y =>
    Grammar.isTerminal_or_isNonterminal_of_mem_rhs (Grammar.mem_alternatives.1 hα) (x := y)
  exact (canBegin_of_sequenceHas hsymbols hx).of_derives (Grammar.derives_alternative hα)

theorem bounds_closed (hR : Closed g R) (hK : ∀ a x, K.reading a x → R a x) :
    Bounds g K (fun F => ∀ a x, F.reading a x → R a x) (fun _ _ => False) (fun _ => R) where
  mono _ _ _ hx := hx
  produced _ _ hx := hx.elim
  known_lower _ _ hx := hx.elim
  known_upper _ := hK
  done_lower _ _ _ hx := hx.elim
  done_upper {F a s} hF hs x hx := hF a x (by rwa [Family.reading, Family.lookup_eq, hs])
  add {F a s} hF _ _ hs := by
    refine ⟨fun b x hx => ?_, fun x hx => hR a x (hs x hx)⟩
    rcases Family.mem_lookup_add.1 hx with hF' | ⟨rfl, hs'⟩
    · exact hF b x hF'
    · exact hR a x (hs x hs')

theorem Closed.of_mem_pass (hR : Closed g R) (hK : ∀ a x, K.reading a x → R a x) :
    ∀ a x, (pass g K).reading a x → R a x :=
  (bounds_closed hR hK).pass fun a x hx => by simp [Family.reading] at hx

theorem bounds_mem (g : Grammar) (K : Family) (a : String) :
    Bounds g K (a ∈ ·) (fun _ _ => False) (fun _ _ _ => True) where
  mono _ _ _ hx := hx
  produced _ _ hx := hx.elim
  known_lower _ _ hx := hx.elim
  known_upper _ _ _ _ := trivial
  done_lower _ _ _ hx := hx.elim
  done_upper _ _ _ _ := trivial
  add hF _ _ _ := ⟨Family.mem_add.2 (.inr hF), fun _ _ => trivial⟩

theorem mem_visit {waiting : List String} {a : String} (h : a ∈ waiting) (done : Family) :
    a ∈ (visit g K waiting a done).2 := by
  rw [visit]
  split
  · exact Family.mem_of_get? ‹_›
  · rw [dif_pos h]
    exact Family.mem_add.2 (.inl rfl)

theorem mem_pass {a : String} (h : a ∈ g.heads) : a ∈ pass g K := by
  obtain ⟨names, names', he⟩ := List.append_of_mem h
  have hpass : pass g K = (names ++ a :: names').foldl
      (fun done b => (visit g K g.heads b done).2) ∅ := by rw [pass, ← he]
  have hs : names' ⊆ g.heads := by
    rw [he]
    exact fun b hb => List.mem_append_right _ (List.mem_cons_of_mem a hb)
  rw [hpass, List.foldl_append, List.foldl_cons]
  apply foldl_visit_induction (P := (a ∈ ·)) _ hs (mem_visit h _)
  intro b _ done hdone
  exact (meets_visit (bounds_mem g K a) (List.Subset.refl _) b done hdone).inv

/-- From grounded sets on, what is done has all that productions bring in from the sets known
before, and nothing but what they bring in with the help of the sets done. -/
theorem bounds_grounded (hK : Grounded g K.reading) :
    Bounds g K
      (fun F => (∀ a s, F.get? a = some s → ∀ x, Produces g K.reading a x → x ∈ s) ∧
        ∀ a x, F.reading a x → Produces g (K.merge F).reading a x)
      K.reading (fun F => (K.merge F).reading) where
  mono h a x hx := Family.merge_le_merge h K a x hx
  produced := hK
  known_lower _ _ hx := hx
  known_upper F a x hx := K.le_merge F a x hx
  done_lower {F a s} hF hs x hx := hF.1 a s hs x (hK a x hx)
  done_upper {F a s} _ hs x hx :=
    Family.mem_lookup_merge.2 (.inr (by rwa [Family.lookup_eq, hs]))
  add {F a s} hF _ hlower hupper := by
    have hmono := Family.merge_le_merge (F.le_add a s) K
    refine ⟨⟨fun b t ht x hx => ?_, fun b x hx => ?_⟩, fun x hx => ?_⟩
    · rw [Family.get?_add] at ht
      split at ht
      · subst b
        obtain rfl := Option.some.inj ht
        exact Std.ExtTreeSet.mem_union_iff.2 (.inr (hlower x hx))
      · exact hF.1 b t ht x hx
    · rcases Family.mem_lookup_add.1 hx with hF' | ⟨rfl, hs'⟩
      · exact (hF.2 b x hF').mono hmono
      · exact (hupper x hs').mono hmono
    · exact Family.mem_lookup_merge.2 (.inr (Family.mem_lookup_add.2 (.inr ⟨rfl, hx⟩)))

theorem Grounded.pass_bounds (hK : Grounded g K.reading) :
    (∀ a x, Produces g K.reading a x → (pass g K).reading a x) ∧
      ∀ a x, (pass g K).reading a x → Produces g (step g K).reading a x := by
  have hempty : ∀ a s, (∅ : Family).get? a = some s → ∀ x, Produces g K.reading a x → x ∈ s :=
    fun a s hs => absurd (Family.mem_of_get? hs) Std.ExtTreeMap.not_mem_empty
  obtain ⟨hlower, hupper⟩ := (bounds_grounded hK).pass
    ⟨hempty, fun a x hx => by simp [Family.reading] at hx⟩
  refine ⟨fun a x hx => ?_, hupper⟩
  have ha := mem_heads_of_produces hx
  exact hlower a _ (Family.get?_of_mem (mem_pass ha)) x hx

theorem Grounded.produces_le_step (hK : Grounded g K.reading) {a : String} {x : Symbol}
    (hx : Produces g K.reading a x) : (step g K).reading a x :=
  Family.mem_lookup_merge.2 (.inr (hK.pass_bounds.1 a x hx))

theorem Grounded.step (hK : Grounded g K.reading) : Grounded g (step g K).reading := by
  intro a x hx
  rcases Family.mem_lookup_merge.1 hx with hx | hx
  · exact (hK a x hx).mono (K.le_merge _)
  · exact hK.pass_bounds.2 a x hx

end SimpleLR.First
