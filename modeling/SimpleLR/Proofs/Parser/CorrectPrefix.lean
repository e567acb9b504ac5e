import SimpleLR.Grammar.Load
import SimpleLR.Proofs.Parser.Simulation

namespace SimpleLR

variable {g : Grammar} {t : ParseTable} {c : Configuration} {v : View} {w : List String}

/-- After a sequence there is a way on to what the start symbol derives, through the rest of the
production of any item that is valid there. -/
theorem Item.Valid.exists_derives {γ : List Symbol} {i : Item} (h : i.Valid g γ) :
    ∃ p β, g.productions[i.production]? = some p ∧
      g.Derives [.nonterminal g.start] (γ ++ p.rhs.drop i.dot ++ β) := by
  induction h with
  | @start d hd =>
    refine ⟨g.startProduction, [], rfl, ?_⟩
    rw [List.take_append_drop, List.append_nil]
    exact .refl
  | @expand γ i q d p _ hn hp hd ih =>
    obtain ⟨parent, β, hparent, hderives⟩ := ih
    obtain ⟨parent', hparent', hdot⟩ := Item.next?_eq_some_iff.1 hn
    obtain rfl := Option.some.inj (hparent.symm.trans hparent')
    have hrest : parent.rhs.drop i.dot =
        .nonterminal p.lhs :: parent.rhs.drop (i.dot + 1) := by
      obtain ⟨hlt, hx⟩ := List.getElem?_eq_some_iff.1 hdot
      rw [List.drop_eq_getElem_cons hlt, hx]
    rw [hrest, List.append_assoc, List.cons_append] at hderives
    have hstep := Grammar.Rewrites.intro (List.mem_of_getElem? hp) γ
      (parent.rhs.drop (i.dot + 1) ++ β)
    refine ⟨p, parent.rhs.drop (i.dot + 1) ++ β, hp, ?_⟩
    rw [List.append_assoc γ, List.take_append_drop]
    exact hderives.tail hstep

theorem Automaton.exists_derives_of_follow {γ : List Symbol} {n : Nat}
    (h : (ofGrammar g).follow γ = some n) :
    ∃ β, g.Derives [.nonterminal g.start] (γ ++ β) := by
  obtain ⟨I, hI⟩ := exists_itemSet_of_follow h
  obtain ⟨i, hi⟩ := exists_mem_of_itemSets hI
  obtain ⟨p, β, -, hderives⟩ := (valid_of_follow h hI i hi).exists_derives
  rw [List.append_assoc] at hderives
  exact ⟨_, hderives⟩

/-- The symbols on the stack begin what the start symbol derives, and so does what they derive. -/
theorem Configuration.Shows.exists_derives (h : c.Shows g v) (hu : v.Undoes g w) :
    ∃ u : List String, u.map .terminal ++ c.input = (Configuration.initial w).input ∧
      ∃ β, g.Derives [.nonterminal g.start] (u.map .terminal ++ β) := by
  obtain ⟨i, _, -, hi⟩ := h.stack.exists_top
  obtain ⟨β, hspelled⟩ := Automaton.exists_derives_of_follow hi
  obtain ⟨u, hparses, hinput⟩ := hu
  have hread : g.Derives v.spelled (u.map .terminal) := Grammar.derives_iff_parses.2 ⟨_, hparses⟩
  rw [← h.input] at hinput
  exact ⟨u, hinput, β, hspelled.trans (hread.append_right β)⟩

/-- Whatever the input, the terminals that have been shifted begin a sequence that the start symbol
derives. -/
theorem Configuration.exists_derives_of_reaches (ht : ParseTable.ofGrammar g = .ok t)
    (hr : (Configuration.initial w).Reaches g t c) :
    ∃ u : List String, u.map .terminal ++ c.input = (Configuration.initial w).input ∧
      ∃ β, g.Derives [.nonterminal g.start] (u.map .terminal ++ β) := by
  obtain ⟨v, hv, hc⟩ := (Configuration.Shows.initial g w).reaches ht hr
  exact hc.exists_derives ((View.undoes_initial g w).reaches hv)

/-- The symbol `b` can follow `N`, though not here: the parser reduces to `N` before it, but does
not shift it. -/
theorem Configuration.exists_derives_before_fault :
    ∃ g t c, Grammar.load ["S -> a N b", "S -> c N", "N -> n"] ["a", "b", "c", "n"] ["S", "N"]
        "S" = .ok g ∧ ParseTable.ofGrammar g = .ok t ∧
      (initial ["c", "n", "b"]).Reaches g t c ∧ c.reductions = [3] ∧ c.action? t = none ∧
      c.input = [.terminal "b", .endMarker] ∧
      ∃ β, g.Derives [.nonterminal g.start] (.terminal "c" :: .terminal "n" :: β) := by
  obtain ⟨g, hg, h⟩ := exists_ok_of_any
    (r := Grammar.load ["S -> a N b", "S -> c N", "N -> n"] ["a", "b", "c", "n"] ["S", "N"] "S")
    (p := fun g => (ParseTable.ofGrammar g).toOption.any fun t =>
      ((initial ["c", "n", "b"]).step? g t).any fun a => (a.step? g t).any fun b =>
        (b.step? g t).any fun c => c.reductions = [3] ∧ c.action? t = none ∧
          c.input = [.terminal "b", .endMarker])
    (by decide +kernel)
  obtain ⟨t, ht, h⟩ := exists_ok_of_any h
  obtain ⟨a, ha, h⟩ := (Option.any_eq_true _ _).1 h
  obtain ⟨b, hb, h⟩ := (Option.any_eq_true _ _).1 h
  obtain ⟨c, hc, h⟩ := (Option.any_eq_true _ _).1 h
  obtain ⟨hreductions, hact, hinput⟩ := of_decide_eq_true h
  have hr : (initial ["c", "n", "b"]).Reaches g t c := .tail (.tail (.single ha) hb) hc
  obtain ⟨u, hu, β, hderives⟩ := exists_derives_of_reaches ht hr
  have hread : u.map Symbol.terminal = [.terminal "c", .terminal "n"] := by
    have happend : u.map Symbol.terminal ++ c.input = [.terminal "c", .terminal "n"] ++ c.input := by
      rw [hu, hinput]
      rfl
    exact List.append_cancel_right happend
  rw [hread] at hderives
  exact ⟨g, t, c, hg, ht, hr, hreductions, hact, hinput, β, hderives⟩

end SimpleLR
