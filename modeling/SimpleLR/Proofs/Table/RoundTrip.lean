import SimpleLR.Grammar.Load
import SimpleLR.Proofs.Automaton.Transitions
import SimpleLR.Proofs.Follow.Exactness
import SimpleLR.Proofs.Table.Entries
import SimpleLR.Proofs.Table.Lines

namespace SimpleLR

open Text

variable {g : Grammar} {i : Nat} {x : Symbol} {act : Action}

theorem Grammar.CanFollow.mem_columns {a : String} (h : g.CanFollow a x) : x ∈ g.columns :=
  Grammar.mem_columns.2 h.mem_symbols

theorem Grammar.CanFollow.isNonterminal_eq {a : String} (h : g.CanFollow a x) :
    x.isNonterminal = false := by
  cases x with
  | terminal | endMarker => rfl
  | nonterminal | epsilon => exact h.elim

theorem Candidate.fits {h : Grammar}
    (hc : Candidate g (.ofGrammar h) (Follow.sets g (First.sets g)) i x act)
    (hstates : (Automaton.ofGrammar h).size ≤ numeralBound)
    (hproductions : g.productions.length ≤ numeralBound) :
    x ∈ g.columns ∧ x.isNonterminal = false ∧ act.number < numeralBound := by
  cases hc with
  | shift _ _ hx hj =>
    have hcolumn := Grammar.mem_columns.2 (.inl (Item.mem_symbols_of_next? hx))
    exact ⟨hcolumn, rfl, Nat.lt_of_lt_of_le (Automaton.lt_size_of_goto hj) hstates⟩
  | accept => exact ⟨Grammar.mem_columns.2 (.inr rfl), rfl, by decide⟩
  | reduce _ _ _ _ hp hx =>
    have hfollow := Follow.mem_lookup_sets.1 hx
    have hproduction := (List.getElem?_eq_some_iff.1 hp).1
    exact ⟨hfollow.mem_columns, hfollow.isNonterminal_eq,
      Nat.lt_of_lt_of_le hproduction hproductions⟩

namespace ParseTable

variable {t : ParseTable}

theorem fits_of_ofAutomaton {h : Grammar}
    (ht : ofAutomaton g (.ofGrammar h) (Follow.sets g (First.sets g)) = .ok t)
    (hstates : (Automaton.ofGrammar h).size ≤ numeralBound)
    (hproductions : g.productions.length ≤ numeralBound) : t.Fits g := by
  apply Fits.mk
  · rwa [size_eq ht]
  · intro r hr
    obtain ⟨i, hi⟩ := List.mem_iff_getElem?.1 hr
    apply Row.Fits.mk
    · intro x act hact
      have hentry : t.action? i x = some act := by rw [action?, hi, Option.bind_some, hact]
      exact ((action?_eq_some_iff ht).1 hentry).fits hstates hproductions
    · intro a j hj
      have hentry : t.goto? i a = some j := by rw [goto?, hi, Option.bind_some, hj]
      obtain ⟨ha, hgoto⟩ := (goto?_eq_some_iff ht).1 hentry
      have hcolumn := Grammar.mem_columns.2 (.inl (Vocabulary.nonterminal_mem_symbols.2 ha))
      exact ⟨hcolumn, Nat.lt_of_lt_of_le (Automaton.lt_size_of_goto hgoto) hstates⟩

/-- A table of a grammar is read back from its text if and only if the names of the grammar can
stand in columns, and then by the grammars that declare the same terminals and the same
nonterminals in the same order; otherwise the text is refused. The automaton may be that of another
grammar. Machine words number its states and the productions, as they number all that a memory
holds. -/
theorem read_text_iff {h : Grammar}
    (ht : ofAutomaton g (.ofGrammar h) (Follow.sets g (First.sets g)) = .ok t)
    (hstates : (Automaton.ofGrammar h).size ≤ numeralBound)
    (hproductions : g.productions.length ≤ numeralBound) :
    (read (t.text g) g = .ok t ↔ g.Plain) ∧
      (¬ g.Plain → ∃ fault, read (t.text g) g = .error (.malformedTable fault)) ∧
      (g.Plain → ∀ g' : Grammar,
        (g'.terminals = g.terminals ∧ g'.nonterminals = g.nonterminals →
          read (t.text g) g' = .ok t) ∧
        (¬ (g'.terminals = g.terminals ∧ g'.nonterminals = g.nonterminals) →
          ∃ fault, read (t.text g) g' = .error (.malformedTable fault))) := by
  have hfits := fits_of_ofAutomaton ht hstates hproductions
  refine ⟨⟨?_, ?_⟩, read_text_of_not_plain, ?_⟩
  · intro hread
    apply Decidable.by_contra
    intro hg
    obtain ⟨fault, herror⟩ := read_text_of_not_plain (t := t) hg
    cases hread.symm.trans herror
  · intro hg
    exact read_text hg hfits rfl
  · intro hg g'
    apply And.intro
    · intro hnames
      apply read_text hg hfits
      rw [Grammar.columns, hnames.1, hnames.2, Grammar.columns]
    · intro hnames
      apply read_text_of_headers_ne hg
      intro hheaders
      obtain ⟨hterminals, hnonterminals⟩ := Grammar.headers_inj.1 hheaders
      exact hnames ⟨hterminals.symm, hnonterminals.symm⟩

/-- Bars, backslashes, inner spaces and the empty name are no hindrance, and the automaton is that
of a grammar with fewer terminals. -/
theorem read_text_escaped :
    ∃ g h t, Grammar.load ["E -> E | \\", "E -> \\"] ["\\", "a b", "", "|"] ["E"] "E" = .ok g ∧
      Grammar.load ["E -> E | \\", "E -> \\"] ["\\", "|"] ["E"] "E" = .ok h ∧
      ofAutomaton g (.ofGrammar h) (Follow.sets g (First.sets g)) = .ok t ∧
      (Automaton.ofGrammar h).size ≤ numeralBound ∧ g.productions.length ≤ numeralBound ∧
      read (t.text g) g = .ok t ∧
      ∃ fault, read (t.text g) h = .error (.malformedTable fault) := by
  obtain ⟨g, hg, hcheck⟩ := exists_ok_of_any
    (r := Grammar.load ["E -> E | \\", "E -> \\"] ["\\", "a b", "", "|"] ["E"] "E")
    (p := fun g => g.Plain ∧ g.productions.length ≤ numeralBound ∧
      (Grammar.load ["E -> E | \\", "E -> \\"] ["\\", "|"] ["E"] "E").toOption.any fun h =>
        (Automaton.ofGrammar h).size ≤ numeralBound ∧ h.terminals ≠ g.terminals ∧
          (ofAutomaton g (.ofGrammar h) (Follow.sets g (First.sets g))).toOption.any fun _ => true)
    (by decide +kernel)
  obtain ⟨hplain, hproductions, hcheck⟩ := of_decide_eq_true hcheck
  obtain ⟨h, hh, hcheck⟩ := exists_ok_of_any hcheck
  obtain ⟨hstates, hne, hcheck⟩ := of_decide_eq_true hcheck
  obtain ⟨t, ht, -⟩ := exists_ok_of_any hcheck
  obtain ⟨hread, -, hnames⟩ := read_text_iff ht hstates hproductions
  obtain ⟨-, herror⟩ := hnames hplain h
  exact ⟨g, h, t, hg, hh, ht, hstates, hproductions, hread.2 hplain,
    herror fun heq => hne heq.1⟩

end ParseTable

end SimpleLR
