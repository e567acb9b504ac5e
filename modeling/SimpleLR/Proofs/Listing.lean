import SimpleLR.Listing
import SimpleLR.Proofs.Grammar.Printing

namespace SimpleLR

open Text

section

variable {α : Type} {a : α}

theorem cons_eq_concat_iff {as : List α} : a :: as = as ++ [a] ↔ ∀ b ∈ as, b = a := by
  induction as with
  | nil => simp only [List.nil_append, List.not_mem_nil, false_implies, implies_true]
  | cons b as ih =>
    rw [List.cons_append, List.cons.injEq, List.forall_mem_cons, eq_comm (a := a)]
    apply and_congr_right
    rintro rfl
    exact ih

/-- An entry can be told from others only by passing over one that differs from it. -/
theorem append_cons_eq_append_cons_iff {left mid right : List α} :
    left ++ a :: (mid ++ right) = left ++ mid ++ a :: right ↔ ∀ b ∈ mid, b = a := by
  rw [List.append_assoc, List.append_right_inj, ← List.cons_append, List.append_cons mid a right,
    List.append_left_inj, cons_eq_concat_iff]

end

namespace Text

def spaced (ws : List String) : String :=
  String.join (ws.map (· ++ " "))

variable {ws us : List String}

theorem spaced_append (ws us : List String) : spaced (ws ++ us) = spaced ws ++ spaced us := by
  rw [spaced, List.map_append, String.join_append, spaced, spaced]

theorem toList_spaced_cons (a : String) (ws : List String) :
    (spaced (a :: ws)).toList = a.toList ++ ' ' :: (spaced ws).toList := by
  rw [spaced, List.map_cons, String.join_cons, String.toList_append, String.toList_append,
    List.append_assoc]
  rfl

theorem getLast?_spaced (h : ws ≠ []) : (spaced ws).toList.getLast? = some ' ' := by
  obtain ⟨ws, a, rfl⟩ := (List.eq_nil_or_concat' ws).resolve_left h
  rw [spaced_append, String.toList_append, toList_spaced_cons, ← List.append_assoc]
  exact List.getLast?_concat

theorem words_spaced (ws : List String) : words (spaced ws) = ws.flatMap words := by
  induction ws with
  | nil => rfl
  | cons a ws ih =>
    rw [words, toList_spaced_cons, runs_append_cons (by decide), List.map_append,
      List.flatMap_cons, ← ih, words, words]

theorem spaced_inj (hws : ∀ a ∈ ws, IsWord a) (hus : ∀ a ∈ us, IsWord a) :
    spaced ws = spaced us ↔ ws = us := by
  constructor
  · intro h
    have hwords := congrArg words h
    rwa [words_spaced, words_spaced, flatMap_words_eq_self_iff.2 hws,
      flatMap_words_eq_self_iff.2 hus] at hwords
  · rintro rfl
    rfl

end Text

theorem Production.name_mem_words {p : Production} {x : Symbol} (hx : x ∈ p.rhs) :
    x.name ∈ p.words := by
  rw [words_eq, rightWords, if_neg (List.ne_nil_of_mem hx)]
  exact List.mem_cons_of_mem _ (List.mem_cons_of_mem _ (List.mem_map_of_mem hx))

namespace Item

variable {g : Grammar} {p : Production} {rhs : List Symbol} {n d d' : Nat}

def dotted (rhs : List Symbol) (d : Nat) : List String :=
  (rhs.take d).map Symbol.name ++ "." :: (rhs.drop d).map Symbol.name

theorem dotted_eq_iff (h : d ≤ d') :
    dotted rhs d = dotted rhs d' ↔ ∀ x ∈ (rhs.take d').drop d, x.name = "." := by
  have htake := List.take_append_drop d (rhs.take d')
  rw [List.take_take, Nat.min_eq_left h] at htake
  have hdrop := List.take_append_drop (d' - d) (rhs.drop d)
  rw [← List.drop_take, List.drop_drop, Nat.add_sub_cancel' h] at hdrop
  generalize (rhs.take d').drop d = mid at htake hdrop ⊢
  rw [dotted, dotted, ← htake, ← hdrop, List.map_append, List.map_append,
    append_cons_eq_append_cons_iff, List.forall_mem_map]

theorem join_names (xs : List Symbol) :
    String.join (xs.map (·.name ++ " ")) = spaced (xs.map Symbol.name) := by
  rw [spaced, List.map_map]
  rfl

theorem text_of_lt (hp : g.productions[n]? = some p) (hd : d < p.rhs.length) :
    text g ⟨n, d⟩ = s!"{p.lhs} {arrow} " ++ spaced (dotted p.rhs d) := by
  have hdot (ws : List String) : spaced ("." :: ws) = ". " ++ spaced ws := String.join_cons
  rw [text, hp]
  dsimp only
  rw [if_pos hd, join_names, join_names, dotted, spaced_append, hdot, String.append_assoc,
    String.append_assoc]

theorem text_of_complete (hp : g.productions[n]? = some p) : text g ⟨n, p.rhs.length⟩ =
    s!"{p.lhs} {arrow} " ++ (spaced (p.rhs.map Symbol.name) ++ ".") := by
  rw [text, hp]
  dsimp only
  rw [if_neg (Nat.lt_irrefl _), if_pos rfl, join_names, join_names, List.take_length,
    List.drop_length, String.append_assoc, String.append_assoc]
  rfl

theorem isWord_of_mem_dotted (h : ∀ x ∈ rhs, IsWord x.name) : ∀ a ∈ dotted rhs d, IsWord a := by
  intro a ha
  rcases List.mem_append.1 ha with ha | ha
  · obtain ⟨x, hx, rfl⟩ := List.mem_map.1 ha
    exact h x (List.mem_of_mem_take hx)
  · rcases List.mem_cons.1 ha with rfl | ha
    · decide +kernel
    · obtain ⟨x, hx, rfl⟩ := List.mem_map.1 ha
      exact h x (List.mem_of_mem_drop hx)

/-- A complete item is the only one of its production whose text does not end in a space. -/
theorem text_ne_text_of_complete (hp : g.productions[n]? = some p) (hd : d < p.rhs.length) :
    text g ⟨n, d⟩ ≠ text g ⟨n, p.rhs.length⟩ := by
  rw [text_of_lt hp hd, text_of_complete hp, Ne, String.append_right_inj]
  intro h
  have hspace : (spaced (dotted p.rhs d)).toList.getLast? = some ' ' :=
    getLast?_spaced (List.append_ne_nil_of_right_ne_nil _ (List.cons_ne_nil _ _))
  rw [h, String.toList_append] at hspace
  exact absurd (List.getLast?_concat.symm.trans hspace) (by decide)

variable {rules terminals nonterminals : List String} {start : String}

theorem text_eq_text_iff_of_lt (h : Grammar.load rules terminals nonterminals start = .ok g)
    (hp : g.productions[n]? = some p) (hlt : d < d') (hd' : d' < p.rhs.length) :
    text g ⟨n, d⟩ = text g ⟨n, d'⟩ ↔ ∀ x ∈ (p.rhs.take d').drop d, x.name = "." := by
  have hrules : p ∈ g.rules := by
    cases n with
    | zero =>
      obtain rfl : g.startProduction = p := Option.some.inj hp
      have hlength : g.startProduction.rhs.length = 1 := rfl
      omega
    | succ n => exact List.mem_of_getElem? hp
  have hwords : ∀ x ∈ p.rhs, IsWord x.name :=
    fun x hx => Grammar.isWord_of_load h hrules _ (Production.name_mem_words hx)
  rw [text_of_lt hp (Nat.lt_trans hlt hd'), text_of_lt hp hd', String.append_right_inj,
    spaced_inj (isWord_of_mem_dotted hwords) (isWord_of_mem_dotted hwords),
    dotted_eq_iff (Nat.le_of_lt hlt)]

/-- Two items of a production are written alike exactly if neither of them is complete and all
symbols between their dots are written as a dot is. -/
theorem text_eq_text_iff (h : Grammar.load rules terminals nonterminals start = .ok g)
    (hp : g.productions[n]? = some p) (hlt : d < d') (hle : d' ≤ p.rhs.length) :
    text g ⟨n, d⟩ = text g ⟨n, d'⟩ ↔
      d' < p.rhs.length ∧ ∀ x ∈ (p.rhs.take d').drop d, x.name = "." := by
  rcases Nat.lt_or_eq_of_le hle with hd' | rfl
  · rw [text_eq_text_iff_of_lt h hp hlt hd', and_iff_right hd']
  · exact iff_of_false (text_ne_text_of_complete hp hlt) fun h' => Nat.lt_irrefl _ h'.1

/-- The dot can be before or behind the two symbols at the beginning, but not behind `a`. The one at
the end is told from the dot by the space after it. -/
theorem text_among_periods : ∃ g,
    Grammar.load ["S -> . . a ."] [".", "a"] ["S"] "S" = .ok g ∧
      text g ⟨1, 0⟩ = text g ⟨1, 2⟩ ∧ text g ⟨1, 2⟩ ≠ text g ⟨1, 3⟩ ∧
      text g ⟨1, 3⟩ ≠ text g ⟨1, 4⟩ := by
  obtain ⟨g, hg, hcheck⟩ := exists_ok_of_any
    (r := Grammar.load ["S -> . . a ."] [".", "a"] ["S"] "S")
    (p := fun g => g.productions[1]? =
      some ⟨"S", [.terminal ".", .terminal ".", .terminal "a", .terminal "."]⟩) (by decide +kernel)
  have hp := of_decide_eq_true hcheck
  have hsame := (text_eq_text_iff hg hp (by decide : 0 < 2) (by decide)).2
  have hbehind := (text_eq_text_iff hg hp (by decide : 2 < 3) (by decide)).not.2
  have hend := (text_eq_text_iff hg hp (by decide : 3 < 4) (by decide)).not.2
  exact ⟨g, hg, hsame (by decide), hbehind (by decide), hend (by decide)⟩

/-- Between two periods a dot cannot be seen. -/
theorem not_text_ne_text : ¬ ∀ rules terminals nonterminals start g n p d d',
    Grammar.load rules terminals nonterminals start = .ok g → g.productions[n]? = some p →
      d ≠ d' → d ≤ p.rhs.length → d' ≤ p.rhs.length → text g ⟨n, d⟩ ≠ text g ⟨n, d'⟩ := by
  intro h
  obtain ⟨g, hg, hcheck⟩ := exists_ok_of_any (r := Grammar.load ["S -> . ."] ["."] ["S"] "S")
    (p := fun g => g.productions[1]? = some ⟨"S", [.terminal ".", .terminal "."]⟩ ∧
      text g ⟨1, 0⟩ = text g ⟨1, 1⟩) (by decide +kernel)
  obtain ⟨hp, htext⟩ := of_decide_eq_true hcheck
  exact h _ _ _ _ g 1 _ 0 1 hg hp (by decide) (by decide) (by decide) htext

end Item

namespace Listing

def unlines (ls : List String) : String :=
  String.join (ls.map (· ++ "\n"))

theorem unlines_cons (l : String) (ls : List String) : unlines (l :: ls) = l ++ "\n" ++ unlines ls :=
  String.join_cons

theorem unlines_append (ls ls' : List String) : unlines (ls ++ ls') = unlines ls ++ unlines ls' := by
  rw [unlines, List.map_append, String.join_append, unlines, unlines]

theorem unlines_cons_blank (l : String) (ls : List String) :
    unlines (l :: "" :: ls) = l ++ "\n\n" ++ unlines ls := by
  have hblank : l ++ "\n\n" = l ++ "\n" ++ "\n" := by
    rw [String.append_assoc]
    rfl
  rw [unlines_cons, unlines_cons, String.empty_append, hblank, ← String.append_assoc]

theorem unlines_flatMap {α : Type} (f : α → List String) (l : List α) :
    unlines (l.flatMap f) = String.join (l.map fun a => unlines (f a)) := by
  induction l with
  | nil => rfl
  | cons a l ih => rw [List.flatMap_cons, unlines_append, ih, List.map_cons, String.join_cons]

theorem unlines_map {α : Type} (f : α → String) (l : List α) :
    unlines (l.map f) = String.join (l.map fun a => f a ++ "\n") := by
  rw [unlines, List.map_map]
  rfl

def productionLines (g : Grammar) : List String :=
  s!"PS,{g.productions.length}" :: "" :: g.productions.zipIdx.map fun (p, i) => s!"P,{i},{p.text}"

def stateLines (g : Grammar) (s : State) (i : Nat) : List String :=
  s.items.toList.map (fun item => s!"C,{i},{item.text g}") ++ [""]

def statesLines (g : Grammar) (a : Automaton) : List String :=
  s!"CS,{a.size}" :: "" :: a.states.zipIdx.flatMap (fun (s, i) => stateLines g s i) ++
    a.transitions.map fun t => s!"T,{t.source},{t.symbol.name},{t.target}"

def setLine (label a : String) (s : SymbolSet) : String :=
  s!"{label},{a}," ++ "\x7b" ++ String.join (s.toList.map (·.name ++ ", ")) ++ "\x7d"

def setsLines (first follow : Family) : List String :=
  first.toList.map (fun (a, s) => setLine "FIRST" a s) ++ "" ::
    follow.toList.map fun (a, s) => setLine "FOLLOW" a s

def lines (g : Grammar) (a : Automaton) (first follow : Family) : List String :=
  productionLines g ++ "" :: statesLines g a ++ "" :: setsLines first follow

variable {g : Grammar} {a : Automaton} {first follow : Family}

theorem productions_eq (g : Grammar) : productions g = unlines (productionLines g) := by
  rw [productionLines, unlines_cons_blank, unlines_map]
  rfl

theorem state_eq (g : Grammar) (s : State) (i : Nat) : state g s i = unlines (stateLines g s i) := by
  rw [stateLines, unlines_append, unlines_map]
  rfl

theorem states_eq (g : Grammar) (a : Automaton) : states g a = unlines (statesLines g a) := by
  rw [statesLines, List.cons_append, List.cons_append, unlines_cons_blank, unlines_append,
    unlines_flatMap, unlines_map, ← String.append_assoc]
  simp only [← state_eq]
  rfl

theorem symbolSet_eq (label a : String) (s : SymbolSet) :
    symbolSet label a s = setLine label a s ++ "\n" := by
  rw [setLine, String.append_assoc]
  rfl

theorem sets_eq (first follow : Family) : sets first follow = unlines (setsLines first follow) := by
  rw [setsLines, unlines_append, unlines_cons, unlines_map, unlines_map, ← String.append_assoc]
  simp only [← symbolSet_eq]
  rfl

theorem all_eq_unlines (g : Grammar) (a : Automaton) (first follow : Family) :
    all g a first follow = unlines (lines g a first follow) := by
  rw [lines, List.append_assoc, unlines_append, List.cons_append, unlines_cons, unlines_append,
    unlines_cons, ← productions_eq, ← states_eq, ← sets_eq, String.empty_append, all,
    String.append_assoc, String.append_assoc, String.append_assoc]

/-- A line of the listing of a grammar, its automaton and its FIRST and FOLLOW sets. -/
inductive IsLine (g : Grammar) (a : Automaton) (first follow : Family) : String → Prop where
  | blank : IsLine g a first follow ""
  | productionCount : IsLine g a first follow s!"PS,{g.productions.length}"
  | production {i : Nat} {p : Production} (h : g.productions[i]? = some p) :
    IsLine g a first follow s!"P,{i},{p.text}"
  | stateCount : IsLine g a first follow s!"CS,{a.size}"
  | item {i : Nat} {s : State} {item : Item} (hs : a.states[i]? = some s) (h : item ∈ s.items) :
    IsLine g a first follow s!"C,{i},{item.text g}"
  | transition {i j : Nat} {x : Symbol} (h : a.goto i x = some j) :
    IsLine g a first follow s!"T,{i},{x.name},{j}"
  | first {b : String} {s : SymbolSet} (h : first.get? b = some s) :
    IsLine g a first follow (setLine "FIRST" b s)
  | follow {b : String} {s : SymbolSet} (h : follow.get? b = some s) :
    IsLine g a first follow (setLine "FOLLOW" b s)

variable {l : String}

theorem mem_productionLines : l ∈ productionLines g ↔ l = s!"PS,{g.productions.length}" ∨ l = "" ∨
    ∃ (p : Production) (i : Nat), g.productions[i]? = some p ∧ s!"P,{i},{p.text}" = l := by
  simp only [productionLines, List.mem_cons, List.mem_map, Prod.exists,
    List.mem_zipIdx_iff_getElem?]

theorem mem_stateLines {s : State} {i : Nat} : l ∈ stateLines g s i ↔
    (∃ item ∈ s.items, s!"C,{i},{item.text g}" = l) ∨ l = "" := by
  simp only [stateLines, List.mem_append, List.mem_map, Std.ExtTreeSet.mem_toList,
    List.mem_singleton]

theorem mem_statesLines : l ∈ statesLines g a ↔ l = s!"CS,{a.size}" ∨ l = "" ∨
    (∃ s i, a.states[i]? = some s ∧ l ∈ stateLines g s i) ∨
      ∃ t ∈ a.transitions, s!"T,{t.source},{t.symbol.name},{t.target}" = l := by
  simp only [statesLines, List.cons_append, List.mem_cons, List.mem_append, List.mem_map,
    List.mem_flatMap, Prod.exists, List.mem_zipIdx_iff_getElem?]

theorem mem_setsLines : l ∈ setsLines first follow ↔
    (∃ b s, first.get? b = some s ∧ setLine "FIRST" b s = l) ∨ l = "" ∨
      ∃ b s, follow.get? b = some s ∧ setLine "FOLLOW" b s = l := by
  simp only [setsLines, List.mem_append, List.mem_cons, List.mem_map, Prod.exists, Family.toList,
    Std.ExtTreeMap.mem_toList_iff_getElem?_eq_some, Family.get?]

theorem mem_lines : l ∈ lines g a first follow ↔
    l ∈ productionLines g ∨ l = "" ∨ l ∈ statesLines g a ∨ l ∈ setsLines first follow := by
  simp only [lines, List.mem_append, List.mem_cons]
  grind

theorem isLine_of_mem_lines (h : l ∈ lines g a first follow) : IsLine g a first follow l := by
  rcases mem_lines.1 h with h | rfl | h | h
  · rcases mem_productionLines.1 h with rfl | rfl | ⟨p, i, hp, rfl⟩
    · exact .productionCount
    · exact .blank
    · exact .production hp
  · exact .blank
  · rcases mem_statesLines.1 h with rfl | rfl | ⟨s, i, hs, h⟩ | ⟨t, ht, rfl⟩
    · exact .stateCount
    · exact .blank
    · rcases mem_stateLines.1 h with ⟨item, hitem, rfl⟩ | rfl
      · exact .item hs hitem
      · exact .blank
    · exact .transition (Automaton.mem_transitions.1 ht)
  · rcases mem_setsLines.1 h with ⟨b, s, hs, rfl⟩ | rfl | ⟨b, s, hs, rfl⟩
    · exact .first hs
    · exact .blank
    · exact .follow hs

theorem IsLine.mem_lines (h : IsLine g a first follow l) : l ∈ lines g a first follow := by
  rw [Listing.mem_lines]
  cases h with
  | blank => exact .inr (.inl rfl)
  | productionCount => exact .inl (mem_productionLines.2 (.inl rfl))
  | @production i p hp => exact .inl (mem_productionLines.2 (.inr (.inr ⟨p, i, hp, rfl⟩)))
  | stateCount => exact .inr (.inr (.inl (mem_statesLines.2 (.inl rfl))))
  | @item i s item hs hi =>
    have hline : s!"C,{i},{item.text g}" ∈ stateLines g s i := mem_stateLines.2 (.inl ⟨item, hi, rfl⟩)
    exact .inr (.inr (.inl (mem_statesLines.2 (.inr (.inr (.inl ⟨s, i, hs, hline⟩))))))
  | @transition i j x hx =>
    have ht : ⟨i, x, j⟩ ∈ a.transitions := Automaton.mem_transitions.2 hx
    exact .inr (.inr (.inl (mem_statesLines.2 (.inr (.inr (.inr ⟨_, ht, rfl⟩))))))
  | @first b s hs => exact .inr (.inr (.inr (mem_setsLines.2 (.inl ⟨b, s, hs, rfl⟩))))
  | @follow b s hs => exact .inr (.inr (.inr (mem_setsLines.2 (.inr (.inr ⟨b, s, hs, rfl⟩)))))

/-- What a listing is: lines, with a line end after each of them, that are just those for the
productions, items, transitions and sets. -/
theorem exists_lines (g : Grammar) (a : Automaton) (first follow : Family) :
    ∃ ls, all g a first follow = unlines ls ∧ ∀ l, l ∈ ls ↔ IsLine g a first follow l :=
  ⟨_, all_eq_unlines g a first follow, fun _ => ⟨isLine_of_mem_lines, IsLine.mem_lines⟩⟩

end Listing

end SimpleLR
