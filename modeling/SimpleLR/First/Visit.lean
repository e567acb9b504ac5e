import SimpleLR.First.Pass

namespace SimpleLR

namespace First

def SymbolHas (R : Reading) : Symbol → Symbol → Prop
  | .nonterminal a, x => R a x
  | y, x => x = y

def SequenceHas (R : Reading) : List Symbol → Symbol → Prop
  | [], x => x = .epsilon
  | y :: α, x => x ≠ .epsilon ∧ SymbolHas R y x ∨ SymbolHas R y .epsilon ∧ SequenceHas R α x

def Produces (g : Grammar) (R : Reading) (a : String) (x : Symbol) : Prop :=
  ∃ α ∈ g.alternatives a, SequenceHas R α x

theorem mem_ofSymbol {K : Family} {x y : Symbol} :
    x ∈ ofSymbol K y ↔ SymbolHas K.reading y x := by
  cases y with
  | nonterminal a => exact Iff.rfl
  | terminal => exact SymbolSet.mem_singleton
  | epsilon => exact SymbolSet.mem_singleton
  | endMarker => exact SymbolSet.mem_singleton

theorem mem_ofSequence {K : Family} {α : List Symbol} {x : Symbol} :
    x ∈ ofSequence K α ↔ SequenceHas K.reading α x := by
  induction α with
  | nil => exact SymbolSet.mem_singleton
  | cons y α ih =>
    rw [ofSequence, SequenceHas, ← ih, ← mem_ofSymbol, ← mem_ofSymbol]
    by_cases hε : .epsilon ∈ ofSymbol K y
    · rw [if_pos hε, Std.ExtTreeSet.mem_union_iff, SymbolSet.mem_erase]
      simp only [hε, true_and]
    · rw [if_neg hε]
      constructor
      · intro hx
        exact .inl ⟨fun he => hε (he ▸ hx), hx⟩
      · rintro (⟨_, hx⟩ | ⟨hx, _⟩)
        · exact hx
        · exact absurd hx hε

theorem SymbolHas.mono {R S : Reading} (h : ∀ a x, R a x → S a x) {x y : Symbol}
    (hx : SymbolHas R y x) : SymbolHas S y x := by
  cases y with
  | nonterminal a => exact h a x hx
  | terminal => exact hx
  | epsilon => exact hx
  | endMarker => exact hx

theorem SequenceHas.mono {R S : Reading} (h : ∀ a x, R a x → S a x) {α : List Symbol}
    {x : Symbol} (hx : SequenceHas R α x) : SequenceHas S α x := by
  induction α with
  | nil => exact hx
  | cons y α ih =>
    rcases hx with ⟨hne, hy⟩ | ⟨hy, hα⟩
    · exact .inl ⟨hne, hy.mono h⟩
    · exact .inr ⟨hy.mono h, ih hα⟩

theorem Produces.mono {g : Grammar} {R S : Reading} (h : ∀ a x, R a x → S a x) {a : String}
    {x : Symbol} (hx : Produces g R a x) : Produces g S a x := by
  obtain ⟨α, hα, hx⟩ := hx
  exact ⟨α, hα, hx.mono h⟩

/-- What a finding made from the sets `done` is known to be like: `inv` is kept, no set that was
done is lost, and the set found has all of `lower` and nothing that `upper` does not allow. -/
structure Finding.Meets (inv : Family → Prop) (lower : Symbol → Prop)
    (upper : Family → Symbol → Prop) (done : Family) (r : Finding) : Prop where
  inv : inv r.2
  le : done ≤ r.2
  lower : ∀ x, lower x → x ∈ r.1
  upper : ∀ x ∈ r.1, upper r.2 x

/-- Bounds `lower` and `upper` on what visits find, which the productions of the grammar respect
as long as the sets that are done satisfy `inv`. -/
structure Bounds (g : Grammar) (K : Family) (inv : Family → Prop) (lower : Reading)
    (upper : Family → Reading) : Prop where
  mono {F G : Family} : F ≤ G → ∀ a x, upper F a x → upper G a x
  produced : ∀ a x, lower a x → Produces g lower a x
  known_lower : ∀ a x, lower a x → x ∈ K.lookup a
  known_upper : ∀ F a, ∀ x ∈ K.lookup a, upper F a x
  done_lower {F : Family} {a : String} {s : SymbolSet} : inv F → F.get? a = some s →
    ∀ x, lower a x → x ∈ s
  done_upper {F : Family} {a : String} {s : SymbolSet} : inv F → F.get? a = some s →
    ∀ x ∈ s, upper F a x
  add {F : Family} {a : String} {s : SymbolSet} : inv F → a ∈ g.heads →
    (∀ x, Produces g lower a x → x ∈ s) → (∀ x ∈ s, Produces g (upper F) a x) →
    inv (F.add a s) ∧ ∀ x ∈ s, upper (F.add a s) a x

section

variable {g : Grammar} {K : Family} {inv : Family → Prop} {lower : Reading}
  {upper : Family → Reading} {visit : String → Family → Finding}

theorem meets_scanSymbol (hvisit : ∀ a done, inv done →
      (visit a done).Meets inv (lower a) (fun F => upper F a) done)
    {done : Family} (h : inv done) (y : Symbol) :
    (scanSymbol visit y done).Meets inv (SymbolHas lower y) (fun F => SymbolHas (upper F) y)
      done := by
  have hself : Finding.Meets inv (· = y) (fun _ x => x = y) done ({y}, done) :=
    ⟨h, done.le_refl, fun _ => SymbolSet.mem_singleton.2, fun _ => SymbolSet.mem_singleton.1⟩
  cases y with
  | nonterminal a => exact hvisit a done h
  | terminal a => exact hself
  | epsilon => exact hself
  | endMarker => exact hself

theorem meets_scan (hb : Bounds g K inv lower upper) (hvisit : ∀ a done, inv done →
      (visit a done).Meets inv (lower a) (fun F => upper F a) done)
    (α : List Symbol) {done : Family} (h : inv done) :
    (scan visit α done).Meets inv (SequenceHas lower α) (fun F => SequenceHas (upper F) α)
      done := by
  induction α generalizing done with
  | nil => exact ⟨h, done.le_refl, fun _ => SymbolSet.mem_singleton.2,
      fun _ => SymbolSet.mem_singleton.1⟩
  | cons y α ih =>
    have hy := meets_scanSymbol hvisit h y
    rw [scan]
    split
    · rename_i hε
      have hα := ih hy.inv
      have hmono {x : Symbol} (hx : x ∈ (scanSymbol visit y done).1) :=
        (hy.upper x hx).mono (hb.mono hα.le)
      refine ⟨hα.inv, Family.le_trans hy.le hα.le, fun x hx => ?_, fun x hx => ?_⟩
      · rw [Std.ExtTreeSet.mem_union_iff, SymbolSet.mem_erase]
        rcases hx with ⟨hne, hx⟩ | ⟨_, hx⟩
        · exact .inl ⟨hne, hy.lower x hx⟩
        · exact .inr (hα.lower x hx)
      · rw [Std.ExtTreeSet.mem_union_iff, SymbolSet.mem_erase] at hx
        rcases hx with ⟨hne, hx⟩ | hx
        · exact .inl ⟨hne, hmono hx⟩
        · exact .inr ⟨hmono hε, hα.upper x hx⟩
    · rename_i hε
      refine ⟨hy.inv, hy.le, fun x hx => ?_, fun x hx => ?_⟩
      · rcases hx with ⟨_, hx⟩ | ⟨hx, _⟩
        · exact hy.lower x hx
        · exact absurd (hy.lower _ hx) hε
      · exact .inl ⟨fun he => hε (he ▸ hx), hy.upper x hx⟩

theorem meets_scanAll (hb : Bounds g K inv lower upper) (hvisit : ∀ a done, inv done →
      (visit a done).Meets inv (lower a) (fun F => upper F a) done)
    (αs : List (List Symbol)) {done : Family} (h : inv done) :
    (scanAll visit αs done).Meets inv (fun x => ∃ α ∈ αs, SequenceHas lower α x)
      (fun F x => ∃ α ∈ αs, SequenceHas (upper F) α x) done := by
  induction αs generalizing done with
  | nil => exact ⟨h, done.le_refl, fun x hx => by simp at hx, fun x hx => by simp [scanAll] at hx⟩
  | cons α αs ih =>
    have hα := meets_scan hb hvisit α h
    have hαs := ih hα.inv
    refine ⟨hαs.inv, Family.le_trans hα.le hαs.le, fun x hx => ?_, fun x hx => ?_⟩
    · obtain ⟨β, hβ, hx⟩ := hx
      rw [scanAll, Std.ExtTreeSet.mem_union_iff]
      rcases List.mem_cons.1 hβ with rfl | hβ
      · exact .inl (hα.lower x hx)
      · exact .inr (hαs.lower x ⟨β, hβ, hx⟩)
    · rcases Std.ExtTreeSet.mem_union_iff.1 hx with hx | hx
      · exact ⟨α, List.mem_cons_self, (hα.upper x hx).mono (hb.mono hαs.le)⟩
      · obtain ⟨β, hβ, hx⟩ := hαs.upper x hx
        exact ⟨β, List.mem_cons_of_mem α hβ, hx⟩

theorem meets_visit (hb : Bounds g K inv lower upper) {waiting : List String}
    (hw : waiting ⊆ g.heads) (a : String) (done : Family) (h : inv done) :
    (First.visit g K waiting a done).Meets inv (lower a) (fun F => upper F a) done := by
  rw [First.visit]
  split
  · rename_i s hs
    exact ⟨h, done.le_refl, hb.done_lower h hs, hb.done_upper h hs⟩
  · split
    · rename_i ha
      have hw' : waiting.erase a ⊆ g.heads := fun c hc => hw (List.mem_of_mem_erase hc)
      have hall := meets_scanAll hb (fun b done => meets_visit hb hw' b done) (g.alternatives a) h
      obtain ⟨hinv, hupper⟩ := hb.add hall.inv (hw ha) hall.lower hall.upper
      exact ⟨hinv, Family.le_trans hall.le (Family.le_add _ _ _),
        fun x hx => hall.lower x (hb.produced a x hx), hupper⟩
    · exact ⟨h, done.le_refl, hb.known_lower a, hb.known_upper done a⟩
termination_by waiting.length
decreasing_by exact length_erase_lt ‹_›

theorem foldl_visit_induction {P : Family → Prop}
    (hvisit : ∀ a ∈ g.heads, ∀ done, P done → P (First.visit g K g.heads a done).2)
    {names : List String} (hn : names ⊆ g.heads) {done : Family} (h : P done) :
    P (names.foldl (fun done a => (First.visit g K g.heads a done).2) done) := by
  induction names generalizing done with
  | nil => exact h
  | cons a names ih =>
    obtain ⟨ha, hn⟩ := List.cons_subset.1 hn
    exact ih hn (hvisit a ha done h)

theorem Bounds.pass (hb : Bounds g K inv lower upper) (h : inv ∅) : inv (pass g K) := by
  have hs := List.Subset.refl g.heads
  exact foldl_visit_induction (fun a _ done h => (meets_visit hb hs a done h).inv) hs h

end

end First

end SimpleLR
