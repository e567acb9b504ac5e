import SimpleLR.Grammar.Load
import SimpleLR.Proofs.Parser.Simulation

namespace SimpleLR

variable {g : Grammar} {t : ParseTable} {c : Configuration} {v : View} {w : List String}

/-- The states on the stack are in the table. The parser can reduce whenever it is to: the
production is there and is not that of the augmented start, there are more states than it takes
from the stack, and there is somewhere to go from the state below them. When it accepts, one symbol
has been read in place of the whole input. -/
structure Configuration.Safe (g : Grammar) (t : ParseTable) (c : Configuration) : Prop where
  stack : ∀ i ∈ c.stack, i < t.size
  reduce : ∀ q, c.action? t = some (.reduce q) → q ≠ 0 ∧ ∃ p, g.productions[q]? = some p ∧
    p.rhs.length < c.stack.length ∧ ∃ i j, (c.stack.drop p.rhs.length).head? = some i ∧
      t.goto? i p.lhs = some j
  accept : c.action? t = some .accept → c.stack.length = 2 ∧ c.input = [.endMarker]

namespace Configuration.Shows

open Automaton

theorem reduce_safe (ht : ParseTable.ofGrammar g = .ok t) (h : c.Shows g v) {q : Nat}
    (hact : c.action? t = some (.reduce q)) : q ≠ 0 ∧ ∃ p, g.productions[q]? = some p ∧
      p.rhs.length < c.stack.length ∧ ∃ i j, (c.stack.drop p.rhs.length).head? = some i ∧
        t.goto? i p.lhs = some j := by
  obtain ⟨n, x, hn, -, hc⟩ := (h.action?_eq_some_iff ht).1 hact
  cases hc with
  | @reduce _ item p _ hstate hitem hnext h₀ hp hfollow =>
    have hv := (mem_items_iff_valid hn hstate).1 hitem
    obtain ⟨p', γ, hp', hdot, hγ⟩ := hv.exists_eq_append_rhs hnext
    obtain rfl := Option.some.inj (hp.symm.trans hp')
    have hstack := h.stack
    rw [hγ] at hstack hv
    have hlength : p.rhs.length < c.stack.length := by
      rw [hstack.length_eq, List.length_append]
      omega
    obtain ⟨i, st, hst, hi⟩ := hstack.drop.exists_top
    have htop : (c.stack.drop p.rhs.length).head? = some i := by rw [hst, List.head?_cons]
    obtain ⟨q, dot⟩ := item
    obtain rfl : dot = p.rhs.length := hdot
    obtain ⟨parent, hparent, hb⟩ := hv.exists_parent hp h₀
    obtain ⟨j, hj⟩ := exists_goto_of_valid hi hparent hb
    have hdeclared := Vocabulary.nonterminal_mem_symbols.1 (Item.mem_symbols_of_next? hb)
    have hgoto := (ParseTable.goto?_eq_some_iff ht).2 ⟨hdeclared, hj⟩
    exact ⟨h₀, p, hp, hlength, i, j, htop, hgoto⟩

theorem safe (ht : ParseTable.ofGrammar g = .ok t) (h : c.Shows g v) (hu : v.Undoes g w) :
    c.Safe g t where
  stack := by
    rw [ParseTable.size_eq ht]
    exact h.stack.lt_size
  reduce _ := h.reduce_safe ht
  accept hact := by
    obtain ⟨hspelled, hend⟩ := (h.accepting_iff ht).1 hact
    rw [h.stack.length_eq, hspelled, h.input]
    exact ⟨rfl, hu.input_eq hend⟩

end Configuration.Shows

/-- Nothing goes wrong in a run from the start, on an input of any terminals. -/
theorem Configuration.safe_of_reaches (ht : ParseTable.ofGrammar g = .ok t)
    (hr : (Configuration.initial w).Reaches g t c) : c.Safe g t := by
  obtain ⟨v, hv, hc⟩ := (Configuration.Shows.initial g w).reaches ht hr
  exact hc.safe ht ((View.undoes_initial g w).reaches hv)

/-- The symbol `b` can follow `N`, though not here, and so the parser reduces once more before it
finds the fault. -/
theorem Configuration.safe_before_fault :
    ∃ g t c d, Grammar.load ["S -> a N b", "S -> c N", "N -> n"] ["a", "b", "c", "n"] ["S", "N"]
        "S" = .ok g ∧ ParseTable.ofGrammar g = .ok t ∧
      (initial ["c", "n", "b"]).Reaches g t c ∧ c.action? t = some (.reduce 3) ∧
      c.step? g t = some d ∧ d.action? t = none ∧ c.Safe g t ∧ d.Safe g t := by
  obtain ⟨g, hg, h⟩ := exists_ok_of_any
    (r := Grammar.load ["S -> a N b", "S -> c N", "N -> n"] ["a", "b", "c", "n"] ["S", "N"] "S")
    (p := fun g => (ParseTable.ofGrammar g).toOption.any fun t =>
      ((initial ["c", "n", "b"]).step? g t).any fun b => (b.step? g t).any fun c =>
        c.action? t = some (.reduce 3) ∧ (c.step? g t).any fun d => d.action? t = none)
    (by decide +kernel)
  obtain ⟨t, ht, h⟩ := exists_ok_of_any h
  obtain ⟨b, hb, h⟩ := (Option.any_eq_true _ _).1 h
  obtain ⟨c, hc, h⟩ := (Option.any_eq_true _ _).1 h
  obtain ⟨hact, h⟩ := of_decide_eq_true h
  obtain ⟨d, hd, h⟩ := (Option.any_eq_true _ _).1 h
  have hr : (initial ["c", "n", "b"]).Reaches g t c := .tail (.single hb) hc
  exact ⟨g, t, c, d, hg, ht, hr, hact, hd, of_decide_eq_true h, safe_of_reaches ht hr,
    safe_of_reaches ht (hr.tail hd)⟩

end SimpleLR
