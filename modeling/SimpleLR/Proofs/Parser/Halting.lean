import Mathlib.Data.Fintype.Pigeonhole
import Mathlib.Data.Set.Finite.Basic
import Mathlib.Order.Interval.Finset.Nat
import SimpleLR.Proofs.Parser.Continuation

namespace SimpleLR

variable {g : Grammar} {t : ParseTable} {c d : Configuration} {v v' : View}
  {γ : List Symbol} {u w : List String} {x : Symbol}

namespace Automaton.Spells

variable {a : Automaton} {st st' : List Nat}

theorem stack_eq (h : a.Spells st γ) (h' : a.Spells st' γ) : st = st' := by
  induction h generalizing st' with
  | nil =>
    generalize he : [] = δ at h'
    cases h' with
    | nil => rfl
    | push => simp at he
  | @push i j st γ y _ hj ih =>
    generalize he : γ ++ [y] = δ at h'
    cases h' with
    | nil => simp at he
    | @push i' j' st' γ' y' h' hj' =>
      obtain ⟨rfl, hy⟩ := List.append_inj' he rfl
      obtain rfl := List.singleton_inj.1 hy
      obtain ⟨rfl, rfl⟩ := List.cons.inj (ih h')
      rw [Option.some.inj (hj.symm.trans hj')]

end Automaton.Spells

theorem Configuration.Shows.eq (h : c.Shows g v) (h' : d.Shows g v) : c = d := by
  obtain ⟨st, input, is⟩ := c
  obtain ⟨st', input', is'⟩ := d
  obtain rfl : st = st' := h.stack.stack_eq h'.stack
  obtain rfl : input = input' := h.input.trans h'.input.symm
  obtain rfl : is = is' := h.reductions.trans h'.reductions.symm
  rfl

/-- A move that does not read on is a reduction. It is made before every input whose next symbol can
follow the nonterminal. -/
theorem View.Moves.exists_reduction (hm : v.Moves g v') (hinput : v'.input = v.input) :
    ∃ γ a, v'.spelled = γ ++ [.nonterminal a] ∧ g.Derives v'.spelled v.spelled ∧
      ∀ u x, (u.map Symbol.terminal ++ [Symbol.endMarker]).head? = some x → g.CanFollow a x →
        (v.before u).Moves g (v'.before u) := by
  cases hm with
  | @shift γ input is b i hv hn => exact absurd hinput.symm (List.cons_ne_self _ _)
  | @reduce γ input is q p x hp hq hv hx =>
    refine ⟨γ, p.lhs, rfl, (Grammar.derives_rhs (List.mem_of_getElem? hp)).append_left γ, ?_⟩
    intro u y hy hfollow
    obtain ⟨rest, hrest⟩ := List.head?_eq_some_iff.1 hy
    simp only [View.before, hrest]
    exact .reduce hp hq hv hfollow

namespace Configuration

theorem input_of_step (hs : c.step? g t = some d) :
    d.input = c.input ∨ d.input.length < c.input.length := by
  unfold step? at hs
  split at hs
  · rename_i j hact
    obtain rfl := Option.some.inj hs
    obtain ⟨i, -, hact⟩ := Option.bind_eq_some_iff.1 hact
    obtain ⟨x, hx, -⟩ := Option.bind_eq_some_iff.1 hact
    obtain ⟨input, hinput⟩ := List.head?_eq_some_iff.1 hx
    right
    rw [shift, hinput]
    exact Nat.lt_succ_self _
  · obtain ⟨p, -, hs⟩ := Option.bind_eq_some_iff.1 hs
    obtain ⟨i, -, hs⟩ := Option.bind_eq_some_iff.1 hs
    obtain ⟨j, -, hs⟩ := Option.bind_eq_some_iff.1 hs
    obtain rfl := Option.some.inj hs
    exact .inl rfl
  · cases hs
  · cases hs

/-- A run that goes on for ever has no other configurations. -/
theorem exists_eq_of_reaches {cs : Nat → Configuration}
    (hs : ∀ n, (cs n).step? g t = some (cs (n + 1))) (hr : (cs 0).Reaches g t d) :
    ∃ n, d = cs n := by
  induction hr with
  | refl => exact ⟨0, rfl⟩
  | tail _ hd ih =>
    obtain ⟨n, rfl⟩ := ih
    exact ⟨n + 1, Option.some.inj (hd.symm.trans (hs n))⟩

/-- A run that goes on for ever without reading on, with the moves that it makes. -/
structure Stalls (g : Grammar) (t : ParseTable) (cs : Nat → Configuration) (vs : Nat → View) :
    Prop where
  step : ∀ n, (cs n).step? g t = some (cs (n + 1))
  input : ∀ n, (vs (n + 1)).input = (vs n).input
  shows : ∀ n, (cs n).Shows g (vs n)
  moves : ∀ n, (vs n).Moves g (vs (n + 1))

theorem exists_stalls (ht : ParseTable.ofGrammar g = .ok t) {cs : Nat → Configuration}
    (hs : ∀ n, (cs n).step? g t = some (cs (n + 1)))
    (hinput : ∀ n, (cs n).input = (cs 0).input) (h : (cs 0).Shows g v) :
    ∃ vs, vs 0 = v ∧ Stalls g t cs vs := by
  have : Nonempty View := ⟨v⟩
  choose! next hmoves hshows using
    fun n v (hv : (cs n).Shows g v) => hv.moves_of_step ht (hs n)
  let vs : Nat → View := Nat.rec v next
  have hvs (n : Nat) : (cs n).Shows g (vs n) := by
    induction n with
    | zero => exact h
    | succ n ih => exact hshows n (vs n) ih
  refine ⟨vs, rfl, hs, ?_, hvs, fun n => hmoves n (vs n) (hvs n)⟩
  intro n
  rw [← (hvs n).input, ← (hvs (n + 1)).input, hinput n, hinput (n + 1)]

namespace Stalls

variable {cs : Nat → Configuration} {vs : Nat → View}

theorem derives (h : Stalls g t cs vs) {m n : Nat} (hmn : m ≤ n) :
    g.Derives (vs n).spelled (vs m).spelled := by
  induction n, hmn using Nat.le_induction with
  | base => exact .refl
  | succ n _ ih =>
    obtain ⟨_, _, -, hd, -⟩ := (h.moves n).exists_reduction (h.input n)
    exact hd.trans ih

theorem undoes (h : Stalls g t cs vs) (h₀ : (vs 0).Undoes g w) (n : Nat) :
    (vs n).Undoes g w := by
  induction n with
  | zero => exact h₀
  | succ n ih => exact ih.moves (h.moves n)

/-- The parser stalls in the same way before a symbol that begins inputs which are derived after
ever more of its reductions. -/
theorem step_before (h : Stalls g t cs vs) (ht : ParseTable.ofGrammar g = .ok t)
    (hx : (u.map Symbol.terminal ++ [Symbol.endMarker]).head? = some x)
    (hfrequent : ∀ n, ∃ k > n, ∃ u' : List String,
      (u'.map Symbol.terminal ++ [Symbol.endMarker]).head? = some x ∧
        g.Derives [.nonterminal g.start] ((vs k).spelled ++ u'.map .terminal)) (n : Nat) :
    ((cs n).before u).step? g t = some ((cs (n + 1)).before u) := by
  obtain ⟨γ, a, hspelled, -, hmoves⟩ := (h.moves n).exists_reduction (h.input n)
  obtain ⟨k, hk, u', hu', hd⟩ := hfrequent n
  have hd := hd.trans ((h.derives hk).append_right _)
  rw [hspelled, List.append_assoc] at hd
  have hfollow : g.CanFollow a x := Grammar.canFollow_of_derives hd hu'
  obtain ⟨d, hs, hd⟩ := ((h.shows n).before u).step_of_moves ht (hmoves u x hx hfollow)
  rw [hs, hd.eq ((h.shows (n + 1)).before u)]

theorem exists_dead (h : Stalls g t cs vs) (ht : ParseTable.ofGrammar g = .ok t)
    (h₀ : (vs 0).Undoes g w) : ∃ n, (cs n).Dead g t := by
  apply Classical.by_contradiction
  intro hlive
  have hlive (n : Nat) : ∃ u d, ((cs n).before u).Reaches g t d ∧ d.Accepting t := by
    apply Classical.by_contradiction
    intro hdead
    exact hlive ⟨n, fun u d hr ha => hdead ⟨u, d, hr, ha⟩⟩
  choose u d hr ha using hlive
  have hderives (n : Nat) :
      g.Derives [.nonterminal g.start] ((vs n).spelled ++ (u n).map .terminal) :=
    (h.shows n).exists_derives_of_accepting ht (h.undoes h₀ n) (hr n) (ha n)
  have hnext (n : Nat) : ∃ x, ((u n).map Symbol.terminal ++ [Symbol.endMarker]).head? = some x := by
    cases u n with
    | nil => exact ⟨_, rfl⟩
    | cons => exact ⟨_, rfl⟩
  choose x hx using hnext
  -- after the first reduction the next symbol follows a nonterminal, and is one of finitely many
  have hmem (n : Nat) : x (n + 1) ∈ Symbol.endMarker :: g.symbols := by
    obtain ⟨γ, a, hspelled, -⟩ := (h.moves n).exists_reduction (h.input n)
    have hd := hderives (n + 1)
    rw [hspelled, List.append_assoc] at hd
    exact List.mem_cons.2 (Grammar.canFollow_of_derives hd (hx (n + 1))).mem_symbols.symm
  have hfinite : Finite {y // y ∈ Symbol.endMarker :: g.symbols} := List.finite_toSet _
  obtain ⟨⟨y, hy⟩, hfiber⟩ := Finite.exists_infinite_fiber fun n =>
    (⟨x (n + 1), hmem n⟩ : {y // y ∈ Symbol.endMarker :: g.symbols})
  have hfrequent (n : Nat) : ∃ k > n, x k = y := by
    obtain ⟨k, hk, hlt⟩ := (Set.infinite_coe_iff.1 hfiber).exists_gt n
    exact ⟨k + 1, Nat.lt_succ_of_lt hlt, congrArg Subtype.val hk⟩
  obtain ⟨m, -, hm⟩ := hfrequent 0
  have hstep := h.step_before ht (u := u m) (x := y) (by rw [hx, hm]) fun n => by
    obtain ⟨k, hk, hxk⟩ := hfrequent n
    exact ⟨k, hk, u k, by rw [hx, hxk], hderives k⟩
  -- the input that is accepted after the stack of `cs m` begins with this symbol
  have hs (n : Nat) : ((cs (m + n)).before (u m)).step? g t =
      some ((cs (m + (n + 1))).before (u m)) := hstep (m + n)
  obtain ⟨n, hn⟩ := exists_eq_of_reaches hs (hr m)
  have hhalt : (d m).step? g t = none := by rw [step?, ha m]
  rw [hn, hs] at hhalt
  cases hhalt

end Stalls

theorem reaches_of_step {cs : Nat → Configuration}
    (hs : ∀ n, (cs n).step? g t = some (cs (n + 1))) (n : Nat) : (cs 0).Reaches g t (cs n) := by
  induction n with
  | zero => exact .refl
  | succ n ih => exact ih.tail (hs n)

theorem not_halts_of_step {cs : Nat → Configuration}
    (hs : ∀ n, (cs n).step? g t = some (cs (n + 1))) : ¬ (cs 0).Halts g t := by
  intro h
  obtain ⟨d, hr, hd⟩ := h
  obtain ⟨n, rfl⟩ := exists_eq_of_reaches hs hr
  cases hd.symm.trans (hs n)

theorem exists_endless_of_not_halts (h : ¬ c.Halts g t) :
    ∃ cs : Nat → Configuration, cs 0 = c ∧ ∀ n, (cs n).step? g t = some (cs (n + 1)) := by
  let cs : Nat → Configuration := Nat.rec c fun _ d => (d.step? g t).getD d
  have hs (n : Nat) (hr : c.Reaches g t (cs n)) : (cs n).step? g t = some (cs (n + 1)) := by
    obtain ⟨d, hd⟩ := Option.ne_none_iff_exists'.1 fun hnone => h ⟨cs n, hr, hnone⟩
    have hnext : cs (n + 1) = ((cs n).step? g t).getD (cs n) := rfl
    rw [hnext, hd, Option.getD_some]
  have hr (n : Nat) : c.Reaches g t (cs n) := by
    induction n with
    | zero => exact .refl
    | succ n ih => exact ih.tail (hs n ih)
  exact ⟨cs, rfl, fun n => hs n (hr n)⟩

/-- The induction is on the input that is left. A run that does not stop reads on at some step, or
else it stalls. -/
theorem halts_of_not_dead (ht : ParseTable.ofGrammar g = .ok t)
    (hlive : ∀ c, (initial w).Reaches g t c → ¬ c.Dead g t)
    (hr : (initial w).Reaches g t c) : c.Halts g t := by
  induction hlength : c.input.length using Nat.strong_induction_on generalizing c with
  | _ n ih =>
    subst hlength
    apply Classical.by_contradiction
    intro hhalts
    obtain ⟨cs, rfl, hs⟩ := exists_endless_of_not_halts hhalts
    have hreaches (k : Nat) := hr.trans (reaches_of_step hs k)
    have hinput (k : Nat) : (cs k).input = (cs 0).input := by
      induction k with
      | zero => rfl
      | succ k ihk =>
        rcases input_of_step (hs k) with he | hlt
        · exact he.trans ihk
        · rw [ihk] at hlt
          obtain ⟨d, hd, hnone⟩ := ih _ hlt (hreaches (k + 1)) rfl
          exact absurd ⟨d, (reaches_of_step hs (k + 1)).trans hd, hnone⟩ hhalts
    obtain ⟨v, hv, hshows⟩ := (Shows.initial g w).reaches ht hr
    obtain ⟨vs, rfl, hstalls⟩ := exists_stalls ht hs hinput hshows
    obtain ⟨k, hdead⟩ := hstalls.exists_dead ht ((View.undoes_initial g w).reaches hv)
    exact hlive (cs k) (hreaches k) hdead

end Configuration

/-- On every input a parser stops or comes to a stack after which no input at all is accepted. It
always stops if the nonterminals that the start symbol leads to derive strings of terminals. -/
theorem ParseTable.halts_unless_dead (ht : ParseTable.ofGrammar g = .ok t) (w : List String) :
    ((Configuration.initial w).Halts g t ∨
      ∃ c, (Configuration.initial w).Reaches g t c ∧ c.Dead g t) ∧
    ((∀ a, g.Reachable a → g.Productive a) → (Configuration.initial w).Halts g t) := by
  have hhalts (hlive : ∀ c, (Configuration.initial w).Reaches g t c → ¬ c.Dead g t) :
      (Configuration.initial w).Halts g t := Configuration.halts_of_not_dead ht hlive .refl
  constructor
  · apply or_iff_not_imp_right.2
    intro hdead
    exact hhalts fun c hr hc => hdead ⟨c, hr, hc⟩
  · intro hg
    apply hhalts
    intro c hr
    obtain ⟨v, -, hc⟩ := (Configuration.Shows.initial g w).reaches ht hr
    exact hc.not_dead ht hg

/-- Left recursion and an empty right-hand side do not keep the parser from stopping. -/
theorem ParseTable.halts_leftRecursive :
    ∃ g t, Grammar.load ["S -> S a N", "S -> b", "N -> ε"] ["a", "b"] ["S", "N"] "S" = .ok g ∧
      ParseTable.ofGrammar g = .ok t ∧ (∀ a, g.Reachable a → g.Productive a) ∧
      ∀ w, (Configuration.initial w).Halts g t := by
  obtain ⟨g, hg, h⟩ := exists_ok_of_any
    (r := Grammar.load ["S -> S a N", "S -> b", "N -> ε"] ["a", "b"] ["S", "N"] "S")
    (p := fun g => g.nonterminals.names = ["S", "N"] ∧
      ⟨"S", [.terminal "b"]⟩ ∈ g.productions ∧ ⟨"N", []⟩ ∈ g.productions ∧
      (ParseTable.ofGrammar g).toOption.any fun _ => true)
    (by decide +kernel)
  obtain ⟨hnames, hS, hN, htable⟩ := of_decide_eq_true h
  obtain ⟨t, ht, -⟩ := exists_ok_of_any htable
  have hproductive : ∀ a, g.Reachable a → g.Productive a := by
    intro a ha
    obtain ⟨α, β, hd⟩ := ha
    have ha : a ∈ g.nonterminals.names := by
      rcases hd.mem_symbols (x := .nonterminal a) (by simp) with ha | ha
      · obtain rfl := Symbol.nonterminal.inj (List.mem_singleton.1 ha)
        exact g.start_mem
      · exact Vocabulary.nonterminal_mem_symbols.1 ha
    simp only [hnames, List.mem_cons, List.not_mem_nil, or_false] at ha
    rcases ha with rfl | rfl
    · exact ⟨["b"], Grammar.derives_rhs hS⟩
    · exact ⟨[], Grammar.derives_rhs hN⟩
  exact ⟨g, t, hg, ht, hproductive, fun w => (halts_unless_dead ht w).2 hproductive⟩

/-- The nonterminal `S` derives no string of terminals, but `x` can follow `N` elsewhere: after `b`
the parser reduces to one `N` after another before `x`. -/
theorem ParseTable.not_halts_before_unproductive :
    ∃ g t, Grammar.load ["T -> N x", "T -> b S", "S -> N S", "N -> ε"] ["b", "x"] ["T", "S", "N"]
        "T" = .ok g ∧ ParseTable.ofGrammar g = .ok t ∧
      ¬ (Configuration.initial ["b", "x"]).Halts g t := by
  obtain ⟨g, hg, h⟩ := exists_ok_of_any
    (r := Grammar.load ["T -> N x", "T -> b S", "S -> N S", "N -> ε"] ["b", "x"] ["T", "S", "N"]
      "T")
    (p := fun g => g.productions[4]? = some ⟨"N", []⟩ ∧
      (ParseTable.ofGrammar g).toOption.any fun t =>
        t.action? 0 (.terminal "b") = some (.shift 1) ∧
          ∀ i ∈ [1, 5], t.action? i (.terminal "x") = some (.reduce 4) ∧ t.goto? i "N" = some 5)
    (by decide +kernel)
  obtain ⟨hproduction, htable⟩ := of_decide_eq_true h
  obtain ⟨t, ht, htable⟩ := exists_ok_of_any htable
  obtain ⟨hshift, hreduce⟩ := of_decide_eq_true htable
  let loop (n : Nat) : Configuration :=
    ⟨List.replicate n 5 ++ [1, 0], [.terminal "x", .endMarker], List.replicate n 4⟩
  let cs (n : Nat) : Configuration := n.casesOn (.initial ["b", "x"]) loop
  have hloop (n : Nat) : (loop n).step? g t = some (loop (n + 1)) := by
    obtain ⟨i, st, hi, hst⟩ : ∃ i st, i ∈ [1, 5] ∧ (loop n).stack = i :: st := by
      cases n with
      | zero => exact ⟨1, [0], by decide, rfl⟩
      | succ n => exact ⟨5, List.replicate n 5 ++ [1, 0], by decide, rfl⟩
    obtain ⟨hact, hgoto⟩ := hreduce i hi
    have hact : (loop n).action? t = some (.reduce 4) := by
      rw [Configuration.action?, hst]
      exact hact
    rw [Configuration.step?, hact]
    simp only [Configuration.reduce?, hproduction, hst, Option.bind_eq_bind, Option.bind_some,
      List.length_nil, List.drop_zero, List.head?_cons, hgoto]
    rw [← hst]
    rfl
  have hs (n : Nat) : (cs n).step? g t = some (cs (n + 1)) := by
    cases n with
    | zero =>
      have hact : (cs 0).action? t = some (.shift 1) := hshift
      rw [Configuration.step?, hact]
      rfl
    | succ n => exact hloop n
  exact ⟨g, t, hg, ht, Configuration.not_halts_of_step hs⟩

end SimpleLR
