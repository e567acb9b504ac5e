import SimpleLR.Grammar.Derivation
import SimpleLR.Proofs.Words

namespace SimpleLR.Grammar

open Text

variable {g : Grammar} {α β γ : List Symbol} {x : Symbol}

theorem Rewrites.of_append (h : g.Rewrites (α ++ β) γ) :
    (∃ α', γ = α' ++ β ∧ g.Rewrites α α') ∨ ∃ β', γ = α ++ β' ∧ g.Rewrites β β' := by
  generalize he : α ++ β = δ at h
  cases h with
  | @intro p hp γ₁ γ₂ =>
    rcases append_eq_append_cons he with ⟨α', rfl, rfl⟩ | ⟨γ', rfl, rfl⟩
    · left
      exact ⟨γ₁ ++ p.rhs ++ α', by simp only [List.append_assoc], .intro hp γ₁ α'⟩
    · right
      exact ⟨γ' ++ p.rhs ++ γ₂, by simp only [List.append_assoc], .intro hp γ' γ₂⟩

/-- A symbol in a sequence made by rewriting was there before, with what comes after it as it is
now or before a rewriting, or it is in the right-hand side put in. -/
theorem Rewrites.of_mem (h : g.Rewrites γ (α ++ x :: β)) :
    (∃ α', γ = α' ++ x :: β) ∨ (∃ β', γ = α ++ x :: β' ∧ g.Rewrites β' β) ∨
      ∃ p ∈ g.productions, ∃ δ ε ζ η,
        γ = δ ++ .nonterminal p.lhs :: ε ∧ p.rhs = ζ ++ x :: η ∧ β = η ++ ε := by
  generalize he : α ++ x :: β = δ at h
  cases h with
  | @intro p hp γ₁ γ₂ =>
    rw [List.append_assoc] at he
    rcases append_eq_append_cons he.symm with ⟨β', rfl, rfl⟩ | ⟨α', rfl, he'⟩
    · refine .inr (.inl ⟨β' ++ .nonterminal p.lhs :: γ₂, ?_, ?_⟩)
      · rw [List.append_assoc, List.cons_append]
      · rw [← List.append_assoc]
        exact .intro hp β' γ₂
    · rcases append_eq_append_cons he' with ⟨η, hη, rfl⟩ | ⟨α'', -, rfl⟩
      · exact .inr (.inr ⟨p, hp, γ₁, γ₂, α', η, rfl, hη, rfl⟩)
      · exact .inl ⟨γ₁ ++ .nonterminal p.lhs :: α'', by rw [List.append_assoc, List.cons_append]⟩

/-- Derivations bring in no symbols but declared ones. -/
theorem Derives.mem_symbols (h : g.Derives α β) (hx : x ∈ β) : x ∈ α ∨ x ∈ g.symbols := by
  induction h with
  | refl => exact .inl hx
  | tail _ hs ih =>
    cases hs with
    | intro hp γ δ =>
      rcases List.mem_append.1 hx with hx | hx
      · rcases List.mem_append.1 hx with hx | hx
        · exact ih (List.mem_append_left _ hx)
        · exact .inr (mem_symbols_of_mem_rhs hp hx)
      · exact ih (List.mem_append_right _ (List.mem_cons_of_mem _ hx))

theorem Derives.of_append (h : g.Derives (α ++ β) γ) :
    ∃ α' β', γ = α' ++ β' ∧ g.Derives α α' ∧ g.Derives β β' := by
  induction h with
  | refl => exact ⟨α, β, rfl, .refl, .refl⟩
  | tail _ hs ih =>
    obtain ⟨α', β', rfl, hα, hβ⟩ := ih
    rcases hs.of_append with ⟨α'', rfl, hs'⟩ | ⟨β'', rfl, hs'⟩
    · exact ⟨α'', β', rfl, hα.tail hs', hβ⟩
    · exact ⟨α', β'', rfl, hα, hβ.tail hs'⟩

theorem not_rewrites_terminal {a : String} : ¬ g.Rewrites [.terminal a] γ := by
  intro h
  generalize he : [Symbol.terminal a] = δ at h
  cases h with
  | intro hp γ₁ γ₂ =>
    cases γ₁ with
    | nil => cases he
    | cons => simp at he

theorem Derives.of_terminal {a : String} (h : g.Derives [.terminal a] γ) : γ = [.terminal a] := by
  induction h with
  | refl => rfl
  | tail _ hs ih =>
    subst ih
    exact absurd hs not_rewrites_terminal

theorem derives_rhs {p : Production} (hp : p ∈ g.productions) :
    g.Derives [.nonterminal p.lhs] p.rhs := by
  have h := Rewrites.intro hp [] []
  rw [List.nil_append, List.nil_append, List.append_nil] at h
  exact .single h

theorem derives_alternative {a : String} (h : α ∈ g.alternatives a) :
    g.Derives [.nonterminal a] α :=
  derives_rhs (mem_alternatives.1 h)

theorem Derives.replace {a : String} (h : g.Derives γ (α ++ .nonterminal a :: β))
    {δ : List Symbol} (hδ : g.Derives [.nonterminal a] δ) : g.Derives γ (α ++ δ ++ β) := by
  have hs := (hδ.append_right β).append_left α
  rw [← List.append_assoc α δ β] at hs
  exact h.trans hs

theorem CanBegin.of_derives (h : g.Derives α β) (hx : g.CanBegin β x) : g.CanBegin α x := by
  cases x with
  | terminal a =>
    obtain ⟨γ, hγ⟩ := hx
    exact ⟨γ, h.trans hγ⟩
  | epsilon => exact h.trans hx
  | nonterminal => exact hx
  | endMarker => exact hx

theorem canBegin_nil : g.CanBegin [] x ↔ x = .epsilon := by
  constructor
  · intro hx
    have hnil {γ : List Symbol} (h : g.Derives [] γ) : γ = [] := by
      induction h with
      | refl => rfl
      | tail _ hs ih =>
        subst ih
        generalize he : [] = δ at hs
        cases hs
        simp at he
    cases x with
    | terminal a =>
      obtain ⟨γ, hγ⟩ := hx
      cases hnil hγ
    | epsilon => rfl
    | nonterminal => exact hx.elim
    | endMarker => exact hx.elim
  · intro hx
    subst hx
    exact .refl

theorem canBegin_terminal {a : String} : g.CanBegin [.terminal a] x ↔ x = .terminal a := by
  constructor
  · intro hx
    cases x with
    | terminal b =>
      obtain ⟨γ, hγ⟩ := hx
      exact (List.cons.inj hγ.of_terminal).1
    | epsilon => cases hx.of_terminal
    | nonterminal => exact hx.elim
    | endMarker => exact hx.elim
  · intro hx
    subst hx
    exact ⟨[], .refl⟩

theorem canBegin_append :
    g.CanBegin (α ++ β) x ↔
      x ≠ .epsilon ∧ g.CanBegin α x ∨ g.CanBegin α .epsilon ∧ g.CanBegin β x := by
  constructor
  · intro hx
    cases x with
    | terminal a =>
      obtain ⟨γ, hγ⟩ := hx
      obtain ⟨α', β', he, hα, hβ⟩ := hγ.of_append
      cases α' with
      | nil =>
        rw [List.nil_append] at he
        subst he
        exact .inr ⟨hα, γ, hβ⟩
      | cons y α' =>
        obtain ⟨rfl, -⟩ := List.cons.inj he
        exact .inl ⟨by simp, α', hα⟩
    | epsilon =>
      obtain ⟨α', β', he, hα, hβ⟩ := hx.of_append
      obtain ⟨rfl, rfl⟩ := List.append_eq_nil_iff.1 he.symm
      exact .inr ⟨hα, hβ⟩
    | nonterminal => exact hx.elim
    | endMarker => exact hx.elim
  · intro h
    rcases h with ⟨hne, hx⟩ | ⟨hα, hx⟩
    · cases x with
      | terminal a =>
        obtain ⟨γ, hγ⟩ := hx
        exact ⟨γ ++ β, hγ.append_right β⟩
      | epsilon => exact absurd rfl hne
      | nonterminal => exact hx
      | endMarker => exact hx
    · exact hx.of_derives (hα.append_right β)

theorem CanFollow.mem_symbols {a : String} (hx : g.CanFollow a x) :
    x ∈ g.symbols ∨ x = .endMarker := by
  cases x with
  | terminal b =>
    obtain ⟨c, -, α, β, hd⟩ := hx
    have hb : .terminal b ∈ α ++ .nonterminal a :: .terminal b :: β := by simp
    exact .inl ((hd.mem_symbols hb).resolve_left fun hc => nomatch List.mem_singleton.1 hc)
  | endMarker => exact .inr rfl
  | nonterminal | epsilon => exact hx.elim

theorem CanFollow.of_derives {a b : String} (hx : g.CanFollow a x)
    (h : g.Derives [.nonterminal a] (α ++ [.nonterminal b])) : g.CanFollow b x := by
  cases x with
  | terminal t =>
    obtain ⟨c, hc, β, γ, hd⟩ := hx
    have hd := hd.replace h
    simp only [List.append_assoc, List.cons_append, List.nil_append] at hd
    rw [← List.append_assoc] at hd
    exact ⟨c, hc, β ++ α, γ, hd⟩
  | endMarker =>
    obtain ⟨β, hd⟩ := hx
    have hd := hd.replace h
    rw [List.append_nil, ← List.append_assoc] at hd
    exact ⟨β ++ α, hd⟩
  | nonterminal => exact hx
  | epsilon => exact hx

end SimpleLR.Grammar
