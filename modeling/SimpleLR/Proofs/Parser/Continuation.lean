import SimpleLR.Proofs.Parser.CorrectPrefix

namespace SimpleLR

variable {g : Grammar} {t : ParseTable} {c d : Configuration} {v v' f : View}
  {α γ : List Symbol} {u w : List String} {a : String} {x : Symbol}

namespace View

def before (v : View) (u : List String) : View :=
  { v with input := u.map .terminal ++ [.endMarker] }

theorem Undoes.before (h : Undoes g w v) (u : List String) : ∃ w', Undoes g w' (v.before u) := by
  obtain ⟨w₁, hparses, -⟩ := h
  refine ⟨w₁ ++ u, w₁, hparses, ?_⟩
  rw [List.map_append, List.append_assoc]
  rfl

/-- Undoing the moves of a parser is deriving what was on its stack and in its input. -/
theorem Reaches.exists_derives (h : v.Reaches g f) (hspelled : f.spelled = [.nonterminal g.start])
    (hinput : f.input = [.endMarker]) : ∃ u : List String,
      v.input = u.map .terminal ++ [.endMarker] ∧
        g.Derives [.nonterminal g.start] (v.spelled ++ u.map .terminal) := by
  induction h using Relation.ReflTransGen.head_induction_on with
  | refl =>
    rw [hspelled, hinput]
    exact ⟨[], rfl, .refl⟩
  | head hm _ ih =>
    obtain ⟨u, hu, hd⟩ := ih
    cases hm with
    | @shift γ input is b i hv hn =>
      have hu : input = u.map .terminal ++ [.endMarker] := hu
      rw [List.append_assoc] at hd
      exact ⟨b :: u, congrArg _ hu, hd⟩
    | @reduce γ input is q p x hp _ _ _ =>
      rw [List.append_assoc] at hd
      exact ⟨u, hu, hd.tail (.intro (List.mem_of_getElem? hp) γ (u.map .terminal))⟩

end View

/-- The next symbol of an input that is derived after a nonterminal can follow it. -/
theorem Grammar.canFollow_of_derives
    (h : g.Derives [.nonterminal g.start] (γ ++ .nonterminal a :: u.map .terminal))
    (hx : (u.map Symbol.terminal ++ [Symbol.endMarker]).head? = some x) : g.CanFollow a x := by
  cases u with
  | nil =>
    obtain rfl : .endMarker = x := Option.some.inj hx
    have hstart : g.Derives [.nonterminal g.augmentedStart] [.nonterminal g.start] :=
      derives_rhs (p := g.startProduction) List.mem_cons_self
    exact ⟨γ, hstart.trans h⟩
  | cons b u =>
    obtain rfl : .terminal b = x := Option.some.inj hx
    exact ⟨g.start, List.mem_cons_of_mem _ g.start_mem, γ, u.map .terminal, h⟩

namespace Configuration

theorem Shows.before (h : c.Shows g v) (u : List String) : (c.before u).Shows g (v.before u) :=
  ⟨h.stack, rfl, h.reductions⟩

theorem Shows.exists_derives_of_accepting (ht : ParseTable.ofGrammar g = .ok t)
    (h : c.Shows g v) (hv : v.Undoes g w) (hr : (c.before u).Reaches g t d)
    (ha : d.Accepting t) : g.Derives [.nonterminal g.start] (v.spelled ++ u.map .terminal) := by
  obtain ⟨f, hf, hd⟩ := (h.before u).reaches ht hr
  obtain ⟨hspelled, hend⟩ := (hd.accepting_iff ht).1 ha
  obtain ⟨w', hv'⟩ := hv.before u
  obtain ⟨u', hu', hd'⟩ := hf.exists_derives hspelled ((hv'.reaches hf).input_eq hend)
  obtain rfl : u = u' := by
    have hinput : u.map Symbol.terminal ++ [.endMarker] = u'.map .terminal ++ [.endMarker] := hu'
    exact View.eq_of_terminals_append hinput
  exact hd'

end Configuration

theorem Grammar.exists_parses_of_productive
    (h : ∀ x ∈ α, x.isTerminal ∨ ∃ a, x = .nonterminal a ∧ g.Productive a) :
    ∃ is u, g.Parses α is u := by
  induction α with
  | nil => exact ⟨[], [], .nil⟩
  | cons x α ih =>
    obtain ⟨hx, hα⟩ := List.forall_mem_cons.1 h
    obtain ⟨js, v, hparses⟩ := ih hα
    have hhead : ∃ is u, g.Parses [x] is u := by
      rcases hx with hx | ⟨a, rfl, u, hu⟩
      · cases x with
        | terminal b => exact ⟨[], [b], .terminals [b]⟩
        | nonterminal | epsilon | endMarker => cases hx
      · obtain ⟨is, hparses⟩ := exists_parses_of_derives hu
        exact ⟨is, u, hparses⟩
    obtain ⟨is, u, hparses'⟩ := hhead
    exact ⟨is ++ js, u ++ v, hparses'.append hparses⟩

namespace Item.Valid

/-- The rest of the production of a valid item derives a string of terminals. -/
theorem exists_parses (hg : ∀ a, g.Reachable a → g.Productive a) {i : Item} (h : i.Valid g γ)
    {p : Production} (hp : g.productions[i.production]? = some p) :
    ∃ is u, g.Parses (p.rhs.drop i.dot) is u := by
  obtain ⟨p', β, hp', hd⟩ := h.exists_derives
  obtain rfl := Option.some.inj (hp.symm.trans hp')
  apply Grammar.exists_parses_of_productive
  intro x hx
  rcases Grammar.isTerminal_or_isNonterminal_of_mem_rhs (List.mem_of_getElem? hp)
    (List.mem_of_mem_drop hx) with hx' | hx'
  · exact .inl hx'
  · cases x with
    | nonterminal a =>
      obtain ⟨δ, ε, hsplit⟩ := List.append_of_mem hx
      rw [hsplit, List.append_assoc, List.append_assoc, List.cons_append, ← List.append_assoc] at hd
      exact .inr ⟨a, rfl, hg a ⟨_, _, hd⟩⟩
    | terminal | epsilon | endMarker => cases hx'

/-- Once the rest of the production of a valid item has been read, there is an input that is
accepted. -/
theorem exists_reaches_final (hg : ∀ a, g.Reachable a → g.Productive a) {i : Item}
    (h : i.Valid g γ) : ∃ p, g.productions[i.production]? = some p ∧
      ∃ (u : List String) (x : Symbol) (input : List Symbol),
        u.map .terminal ++ [.endMarker] = x :: input ∧ g.CanFollow p.lhs x ∧
        ∀ is, ∃ f, View.Reaches g ⟨γ ++ p.rhs.drop i.dot, x :: input, is⟩ f ∧ f.Final g := by
  induction h with
  | @start d hd =>
    have hfollow : g.CanFollow g.startProduction.lhs .endMarker := ⟨[], .refl⟩
    refine ⟨g.startProduction, rfl, [], .endMarker, [], rfl, hfollow, ?_⟩
    intro is
    rw [List.take_append_drop]
    exact ⟨_, .refl, rfl, rfl⟩
  | @expand γ i q d p h hn hp hd ih =>
    obtain ⟨parent, hparent, u, z, input, hu, hz, hfinal⟩ := ih
    obtain ⟨parent', hparent', hdot⟩ := next?_eq_some_iff.1 hn
    obtain rfl := Option.some.inj (hparent.symm.trans hparent')
    obtain ⟨hlt, hget⟩ := List.getElem?_eq_some_iff.1 hdot
    have hdrop : parent.rhs.drop i.dot = .nonterminal p.lhs :: parent.rhs.drop (i.dot + 1) := by
      rw [List.drop_eq_getElem_cons hlt, hget]
    have he : parent.rhs = parent.rhs.take i.dot ++ .nonterminal p.lhs ::
        parent.rhs.drop (i.dot + 1) := by
      rw [← hdrop, List.take_append_drop]
    -- what comes after the nonterminal in the production above is read after the reduction
    have hadvance := h.advance hn
    obtain ⟨js, u', hparses⟩ := hadvance.exists_parses hg hparent
    obtain ⟨x, input', hinput, hx⟩ :=
      View.exists_lookahead (List.mem_of_getElem? hparent) he hparses hz input
    have hq : q ≠ 0 := by
      rintro rfl
      obtain rfl := Option.some.inj hp
      exact next?_ne_augmentedStart hn
    have hcomplete : Item.Valid g (γ ++ p.rhs) ⟨q, p.rhs.length⟩ := by
      have hcomplete := Item.Valid.expand h hn hp (Nat.le_refl _)
      rwa [List.take_length] at hcomplete
    refine ⟨p, hp, u' ++ u, x, input', ?_, hx, ?_⟩
    · rw [List.map_append, List.append_assoc, hu, hinput]
    · intro is
      rw [List.append_assoc, List.take_append_drop]
      have hreduce : View.Moves g ⟨γ ++ p.rhs, x :: input', is⟩ _ := .reduce hp hq hcomplete hx
      have hrest := View.reaches_of_parses hparses hadvance hparent rfl hz input (q :: is)
      obtain ⟨f, hf, hend⟩ := hfinal (js.reverse ++ q :: is)
      rw [hinput, List.append_assoc, List.singleton_append] at hrest
      rw [hdrop] at hf
      exact ⟨f, .head hreduce (hrest.trans hf), hend⟩

end Item.Valid

/-- Where the nonterminals derive strings of terminals, a parser can always go on to accept. -/
theorem Configuration.Shows.not_dead (ht : ParseTable.ofGrammar g = .ok t)
    (hg : ∀ a, g.Reachable a → g.Productive a) (h : c.Shows g v) : ¬ c.Dead g t := by
  obtain ⟨_, _, -, hn⟩ := h.stack.exists_top
  obtain ⟨I, hI⟩ := Automaton.exists_itemSet_of_follow hn
  obtain ⟨i, hi⟩ := Automaton.exists_mem_of_itemSets hI
  have hv := Automaton.valid_of_follow hn hI i hi
  obtain ⟨p, hp, u, x, input, hu, hx, hfinal⟩ := hv.exists_reaches_final hg
  obtain ⟨is, u', hparses⟩ := hv.exists_parses hg hp
  have hread := View.reaches_of_parses hparses hv hp rfl hx input v.reductions
  obtain ⟨f, hf, hend⟩ := hfinal (is.reverse ++ v.reductions)
  have hinput : u'.map Symbol.terminal ++ x :: input = (u' ++ u).map .terminal ++ [.endMarker] := by
    rw [List.map_append, List.append_assoc, hu]
  rw [hinput] at hread
  obtain ⟨d, hr, hd⟩ := (h.before (u' ++ u)).reaches_of_reaches ht (hread.trans hf)
  intro hdead
  exact hdead (u' ++ u) d hr ((hd.accepting_iff ht).2 hend)

end SimpleLR
