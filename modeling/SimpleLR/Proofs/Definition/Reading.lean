import SimpleLR.Proofs.Definition.Parsing

namespace SimpleLR

def RuleDefinition.ofWords? (n : Nat) : List String → Option RuleDefinition
  | lhs :: middle :: rhs => if middle = arrow then some ⟨lhs, rhs, n⟩ else none
  | _ => none

namespace Definition

def Gives (ls : List (List String)) (i : Nat) (directive : Directive) : Prop :=
  ∃ words, ls[i]? = some (directive.word :: words)

/-- Every line has one of the forms, and no directive is on two lines. -/
structure InOrder (ls : List (List String)) : Prop where
  form : ∀ words ∈ ls, Line.Form words
  once : ∀ directive i j, Gives ls i directive → Gives ls j directive → i = j

/-- What is wrong with line `i`: it has none of the forms, or it repeats the directive of a line
before it. -/
inductive HasFault (ls : List (List String)) (i : Nat) : LineFault → Prop
  | unexpected {words : List String} :
      ls[i]? = some words → ¬ Line.Form words → HasFault ls i .unexpected
  | duplicate {directive : Directive} {j : Nat} : (∀ words ∈ ls[i]?, Line.Form words) →
      Gives ls i directive → j < i → Gives ls j directive → HasFault ls i (.duplicate directive)

/-- A definition has what its lines declare, and the rules with their line numbers. -/
structure Describes (ls : List (List String)) (d : Definition) : Prop where
  terminals : ∀ names, d.terminals = some names ↔ Directive.terminals.word :: names ∈ ls
  nonterminals : ∀ names, d.nonterminals = some names ↔ Directive.nonterminals.word :: names ∈ ls
  start : ∀ name, d.start = some name ↔ [Directive.start.word, name] ∈ ls
  rules : d.rules = (ls.zipIdx 1).filterMap fun (words, n) => RuleDefinition.ofWords? n words

variable {ls ls' : List (List String)} {d : Definition} {i j n : Nat} {fault : LineFault}
  {directive : Directive} {ws rest : List String} {l : Line}

theorem gives_append (h : i < ls.length) : Gives (ls ++ ls') i directive ↔ Gives ls i directive := by
  unfold Gives
  rw [List.getElem?_append_left h]

theorem Gives.lt (h : Gives ls i directive) : i < ls.length := by
  obtain ⟨words, h⟩ := h
  exact (List.getElem?_eq_some_iff.1 h).1

theorem Gives.append (h : Gives ls i directive) : Gives (ls ++ ls') i directive :=
  (gives_append h.lt).2 h

theorem exists_gives_iff : (∃ i, Gives ls i directive) ↔ ∃ words, directive.word :: words ∈ ls := by
  simp only [Gives, List.mem_iff_getElem?]
  exact exists_comm

theorem hasFault_append (h : i < ls.length) :
    HasFault (ls ++ ls') i fault ↔ HasFault ls i fault := by
  constructor
  · rintro (⟨hi, hform⟩ | ⟨hform, hi, hlt, hj⟩)
    · rw [List.getElem?_append_left h] at hi
      exact .unexpected hi hform
    · rw [List.getElem?_append_left h] at hform
      exact .duplicate hform ((gives_append h).1 hi) hlt ((gives_append (hlt.trans h)).1 hj)
  · rintro (⟨hi, hform⟩ | ⟨hform, hi, hlt, hj⟩)
    · exact .unexpected (by rwa [List.getElem?_append_left h]) hform
    · rw [show ls[i]? = (ls ++ ls')[i]? from (List.getElem?_append_left h).symm] at hform
      exact .duplicate hform hi.append hlt hj.append

theorem InOrder.not_hasFault (h : InOrder ls) : ¬ HasFault ls i fault := by
  rintro (⟨hi, hform⟩ | ⟨-, hi, hlt, hj⟩)
  · exact hform (h.form _ (List.mem_of_getElem? hi))
  · exact Nat.ne_of_gt hlt (h.once _ _ _ hi hj)

end Definition

namespace Line

variable {directive : Directive} {ws rest : List String} {l : Line}

def directive? : Line → Option Directive
  | .terminals _ => some .terminals
  | .nonterminals _ => some .nonterminals
  | .start _ => some .start
  | _ => none

theorem cons_eq_iff (h : ofWords? ws = some l) :
    directive.word :: rest = ws ↔ l.directive? = some directive ∧ l.plainWords = rest := by
  obtain ⟨rfl, hplain⟩ := ofWords?_eq_some_iff.1 h
  rw [List.all_eq_true] at hplain
  have hword : isPlain directive.word = false := by cases directive <;> decide
  cases l with
  | empty => simp [toWords, directive?]
  | rule lhs rhs =>
    refine iff_of_false (fun heq => ?_) fun h => by cases h.1
    have hlhs : isPlain lhs = true := hplain lhs List.mem_cons_self
    rw [← (List.cons.inj heq).1, hword] at hlhs
    cases hlhs
  | terminals | nonterminals | start =>
    simp only [toWords, directive?, plainWords, List.cons.injEq, Option.some.injEq]
    constructor
    · rintro ⟨hdirective, rfl⟩
      exact ⟨(Directive.word_inj hdirective).symm, rfl⟩
    · rintro ⟨rfl, rfl⟩
      exact ⟨rfl, rfl⟩

theorem exists_of_form (h : Form (directive.word :: rest)) :
    ∃ l : Line, l.directive? = some directive ∧ l.plainWords = rest := by
  obtain ⟨l, hl⟩ := form_iff.1 h
  exact ⟨l, (cons_eq_iff hl).1 rfl⟩

end Line

namespace Definition

variable {ls : List (List String)} {d : Definition} {i n : Nat} {directive : Directive}
  {ws : List String} {l : Line}

def has (d : Definition) : Directive → Bool
  | .terminals => d.terminals.isSome
  | .nonterminals => d.nonterminals.isSome
  | .start => d.start.isSome

def add (d : Definition) (n : Nat) : Line → Definition
  | .empty => d
  | .terminals names => { d with terminals := some names }
  | .nonterminals names => { d with nonterminals := some names }
  | .start name => { d with start := some name }
  | .rule lhs rhs => { d with rules := d.rules ++ [⟨lhs, rhs, n⟩] }

theorem addLine_eq_error (h : l.directive? = some directive) (hd : d.has directive = true) :
    d.addLine n l = .error (.malformedLine n (.duplicate directive)) := by
  cases l with
  | terminals | nonterminals | start =>
    obtain rfl := Option.some.inj h
    exact if_pos hd
  | empty | rule => cases h

theorem addLine_eq_ok (h : ∀ directive, l.directive? = some directive → d.has directive = false) :
    d.addLine n l = .ok (d.add n l) := by
  cases l with
  | terminals | nonterminals | start => exact if_neg (Bool.eq_false_iff.1 (h _ rfl))
  | empty | rule => rfl

theorem Describes.has_iff (h : Describes ls d) (hls : InOrder ls) :
    d.has directive = true ↔ ∃ i, Gives ls i directive := by
  rw [exists_gives_iff]
  cases directive with
  | terminals => exact Option.isSome_iff_exists.trans (exists_congr h.terminals)
  | nonterminals => exact Option.isSome_iff_exists.trans (exists_congr h.nonterminals)
  | start =>
    refine Option.isSome_iff_exists.trans ⟨?_, ?_⟩
    · rintro ⟨name, hname⟩
      exact ⟨[name], (h.start name).1 hname⟩
    · rintro ⟨words, hwords⟩
      obtain ⟨l, hl, rfl⟩ := Line.exists_of_form (hls.form _ hwords)
      cases l with
      | start name => exact ⟨name, (h.start name).2 hwords⟩
      | _ => cases hl

theorem gives_concat_iff (hl : Line.ofWords? ws = some l) :
    Gives (ls ++ [ws]) i directive ↔
      Gives ls i directive ∨ i = ls.length ∧ l.directive? = some directive := by
  rcases Nat.lt_trichotomy i ls.length with hlt | rfl | hgt
  · rw [gives_append hlt]
    exact ⟨.inl, fun h => h.resolve_right fun h => Nat.ne_of_lt hlt h.1⟩
  · constructor
    · rintro ⟨rest, hrest⟩
      rw [List.getElem?_concat_length] at hrest
      exact .inr ⟨rfl, ((Line.cons_eq_iff hl).1 (Option.some.inj hrest).symm).1⟩
    · rintro (h | ⟨-, h⟩)
      · exact h.append
      · refine ⟨l.plainWords, ?_⟩
        rw [List.getElem?_concat_length, (Line.cons_eq_iff hl).2 ⟨h, rfl⟩]
  · constructor
    · intro h
      have := h.lt
      rw [List.length_append, List.length_singleton] at this
      omega
    · rintro (h | ⟨rfl, -⟩)
      · exact h.append
      · exact absurd hgt (Nat.lt_irrefl _)

theorem InOrder.concat (h : InOrder ls) (hl : Line.ofWords? ws = some l)
    (hnew : ∀ directive, l.directive? = some directive → ¬ ∃ i, Gives ls i directive) :
    InOrder (ls ++ [ws]) := by
  constructor
  · intro words hwords
    rcases List.mem_append.1 hwords with hwords | hwords
    · exact h.form words hwords
    · rw [List.mem_singleton.1 hwords]
      exact Line.form_iff.2 ⟨l, hl⟩
  · intro directive i j hi hj
    rcases (gives_concat_iff hl).1 hi with hi | ⟨hi, hdirective⟩ <;>
      rcases (gives_concat_iff hl).1 hj with hj | ⟨hj, hdirective'⟩
    · exact h.once directive i j hi hj
    · exact absurd ⟨i, hi⟩ (hnew directive hdirective')
    · exact absurd ⟨j, hj⟩ (hnew directive hdirective)
    · rw [hi, hj]

theorem rules_add (hl : Line.ofWords? ws = some l) :
    (d.add n l).rules = d.rules ++ (RuleDefinition.ofWords? n ws).toList := by
  obtain ⟨rfl, hplain⟩ := Line.ofWords?_eq_some_iff.1 hl
  rw [List.all_eq_true] at hplain
  have hnone (directive : Directive) (names : List String) (h : ∀ a ∈ names, Line.isPlain a) :
      RuleDefinition.ofWords? n (directive.word :: names) = none := by
    cases names with
    | nil => rfl
    | cons a names =>
      refine if_neg ?_
      rintro rfl
      exact absurd (h arrow List.mem_cons_self) (by decide)
  cases l with
  | empty => simp [Line.toWords, RuleDefinition.ofWords?, add]
  | rule lhs rhs => simp [Line.toWords, RuleDefinition.ofWords?, add]
  | terminals names => simp [Line.toWords, hnone .terminals names hplain, add]
  | nonterminals names => simp [Line.toWords, hnone .nonterminals names hplain, add]
  | start name => simp [Line.toWords, hnone .start [name] hplain, add]

theorem Describes.concat (h : Describes ls d) (hl : Line.ofWords? ws = some l)
    (hnew : ∀ directive, l.directive? = some directive → d.has directive = false) :
    Describes (ls ++ [ws]) (d.add (ls.length + 1) l) := by
  have hmem (directive : Directive) (rest : List String) :
      directive.word :: rest ∈ ls ++ [ws] ↔
        directive.word :: rest ∈ ls ∨ l.directive? = some directive ∧ l.plainWords = rest := by
    rw [List.mem_append, List.mem_singleton, Line.cons_eq_iff hl]
  refine ⟨fun names => ?_, fun names => ?_, fun name => ?_, ?_⟩
  · rw [hmem, ← h.terminals]
    cases l with
    | terminals names' =>
      have hnone : d.terminals = none := by simpa [has] using hnew _ rfl
      simp [add, hnone, Line.directive?, Line.plainWords]
    | _ => simp [add, Line.directive?]
  · rw [hmem, ← h.nonterminals]
    cases l with
    | nonterminals names' =>
      have hnone : d.nonterminals = none := by simpa [has] using hnew _ rfl
      simp [add, hnone, Line.directive?, Line.plainWords]
    | _ => simp [add, Line.directive?]
  · rw [hmem, ← h.start]
    cases l with
    | start name' =>
      have hnone : d.start = none := by simpa [has] using hnew _ rfl
      simp [add, hnone, Line.directive?, Line.plainWords]
    | _ => simp [add, Line.directive?]
  · rw [List.zipIdx_append, List.filterMap_append, ← h.rules, rules_add hl, Nat.add_comm]
    cases hrule : RuleDefinition.ofWords? (1 + ls.length) ws <;> simp [hrule]

/-- A line is read as it should be, or fails with what is wrong with it. -/
theorem readWords_cases (h : InOrder ls) (hd : Describes ls d) (ws : List String) :
    (∃ d', d.readWords (ls.length + 1) ws = .ok d' ∧ InOrder (ls ++ [ws]) ∧
        Describes (ls ++ [ws]) d') ∨
      ∃ fault, d.readWords (ls.length + 1) ws = .error (.malformedLine (ls.length + 1) fault) ∧
        HasFault (ls ++ [ws]) ls.length fault := by
  unfold readWords
  cases hl : Line.ofWords? ws with
  | none =>
    refine .inr ⟨.unexpected, rfl, .unexpected List.getElem?_concat_length ?_⟩
    rw [Line.form_iff, hl]
    exact nofun
  | some l =>
    by_cases hold : ∃ directive, l.directive? = some directive ∧ d.has directive = true
    · obtain ⟨directive, hdirective, hhas⟩ := hold
      obtain ⟨j, hj⟩ := (hd.has_iff h).1 hhas
      have hgives : Gives (ls ++ [ws]) ls.length directive :=
        (gives_concat_iff hl).2 (.inr ⟨rfl, hdirective⟩)
      have hform : ∀ words ∈ (ls ++ [ws])[ls.length]?, Line.Form words := by
        rw [List.getElem?_concat_length]
        rintro words ⟨⟩
        exact Line.form_iff.2 ⟨l, hl⟩
      exact .inr ⟨.duplicate directive, addLine_eq_error hdirective hhas,
        .duplicate hform hgives hj.lt hj.append⟩
    · have hnew : ∀ directive, l.directive? = some directive → d.has directive = false :=
        fun directive hdirective => Bool.eq_false_iff.2 fun hhas => hold ⟨directive, hdirective, hhas⟩
      refine .inl ⟨_, addLine_eq_ok hnew, h.concat hl ?_, hd.concat hl hnew⟩
      intro directive hdirective hgives
      exact hold ⟨directive, hdirective, (hd.has_iff h).2 hgives⟩

/-- The lines are read up to the first one that is at fault. -/
theorem foldlM_readWords_cases (h : InOrder ls) (hd : Describes ls d) (ls' : List (List String)) :
    (∃ d', (ls'.zipIdx (ls.length + 1)).foldlM (fun d (line, n) => d.readWords n line) d = .ok d' ∧
        InOrder (ls ++ ls') ∧ Describes (ls ++ ls') d') ∨
      ∃ i fault, (ls'.zipIdx (ls.length + 1)).foldlM (fun d (line, n) => d.readWords n line) d =
          .error (.malformedLine (i + 1) fault) ∧
        HasFault (ls ++ ls') i fault ∧ ∀ j < i, ∀ fault', ¬ HasFault (ls ++ ls') j fault' := by
  induction ls' generalizing ls d with
  | nil => exact .inl ⟨d, rfl, by rwa [List.append_nil], by rwa [List.append_nil]⟩
  | cons ws ls' ih =>
    rw [List.zipIdx_cons, List.foldlM_cons]
    dsimp only
    have hconcat : ls ++ ws :: ls' = ls ++ [ws] ++ ls' := List.append_cons ls ws ls'
    rcases readWords_cases h hd ws with ⟨d', hread, h', hd'⟩ | ⟨fault, hread, hfault⟩
    · rw [hread, hconcat]
      have hrest := ih h' hd'
      rwa [List.length_append, List.length_singleton] at hrest
    · rw [hread, hconcat]
      refine .inr ⟨ls.length, fault, rfl, (hasFault_append ?_).2 hfault, ?_⟩
      · rw [List.length_append, List.length_singleton]
        exact Nat.lt_succ_self _
      · intro j hj fault' hfault'
        rw [List.append_assoc, hasFault_append hj] at hfault'
        exact h.not_hasFault hfault'

theorem inOrder_nil : InOrder [] :=
  ⟨nofun, fun _ _ _ h => absurd h.lt (Nat.not_lt_zero _)⟩

theorem describes_empty : Describes [] empty :=
  ⟨by simp [empty], by simp [empty], by simp [empty], rfl⟩

/-- A definition file is read if all its lines are in order, as what they declare. Otherwise the
first line is reported that has none of the forms or repeats a directive. -/
theorem read_exact (source : String) :
    ((∃ d, read source = .ok d) ↔ (∀ words ∈ lines source, Line.Form words) ∧
      ∀ directive i j, Gives (lines source) i directive → Gives (lines source) j directive →
        i = j) ∧
      (∀ d, read source = .ok d → Describes (lines source) d) ∧
      ∀ e, read source = .error e → ∃ i fault, e = .malformedLine (i + 1) fault ∧
        HasFault (lines source) i fault ∧ ∀ j < i, ∀ fault', ¬ HasFault (lines source) j fault' := by
  have hcases := foldlM_readWords_cases inOrder_nil describes_empty (lines source)
  rw [List.nil_append] at hcases
  rw [read_eq]
  rcases hcases with ⟨d, hd, h, hdescribes⟩ | ⟨i, fault, he, hfault, hfirst⟩
  · refine ⟨iff_of_true ⟨d, hd⟩ ⟨h.form, h.once⟩, fun d' hd' => ?_, fun e he => ?_⟩
    · obtain rfl := Except.ok.inj (hd.symm.trans hd')
      exact hdescribes
    · cases hd.symm.trans he
  · refine ⟨iff_of_false ?_ ?_, fun d hd => ?_, fun e he' => ?_⟩
    · rintro ⟨d, hd⟩
      cases he.symm.trans hd
    · rintro ⟨hform, honce⟩
      exact InOrder.not_hasFault ⟨hform, honce⟩ hfault
    · cases he.symm.trans hd
    · obtain rfl := Except.error.inj (he.symm.trans he')
      exact ⟨i, fault, rfl, hfault, hfirst⟩

/-- Hyphens, arrows and directives within words are not apart from them, and a comment goes on to
the end of its line. The second file repeats a directive only after a line of no form. -/
theorem read_words_and_comments :
    (∃ d, read "a--b -> x->y %startx --c -> d\n\n%terminals\x0c\r\n" = .ok d ∧
      Describes [["a--b", "->", "x->y", "%startx"], [], ["%terminals"], []] d) ∧
    ∃ i fault, read "%start S\nS -> -> a\n%start S" = .error (.malformedLine (i + 1) fault) ∧
      i = 1 ∧ HasFault [["%start", "S"], ["S", "->", "->", "a"], ["%start", "S"]] i fault := by
  have hlines : lines "a--b -> x->y %startx --c -> d\n\n%terminals\x0c\r\n" =
    [["a--b", "->", "x->y", "%startx"], [], ["%terminals"], []] := by decide +kernel
  have hlines' : lines "%start S\nS -> -> a\n%start S" =
    [["%start", "S"], ["S", "->", "->", "a"], ["%start", "S"]] := by decide +kernel
  constructor
  · obtain ⟨d, hd, -⟩ := exists_ok_of_any
      (r := read "a--b -> x->y %startx --c -> d\n\n%terminals\x0c\r\n") (p := fun _ => true)
      (by decide +kernel)
    exact ⟨d, hd, hlines ▸ (read_exact _).2.1 d hd⟩
  · obtain ⟨e, he, hline⟩ := exists_error_of_any (r := read "%start S\nS -> -> a\n%start S")
      (p := fun e => e = .malformedLine 2 .unexpected) (by decide +kernel)
    obtain ⟨i, fault, rfl, hfault, -⟩ := (read_exact _).2.2 e he
    obtain ⟨hi, -⟩ := GrammarError.malformedLine.inj (of_decide_eq_true hline)
    exact ⟨i, fault, he, Nat.succ.inj hi, hlines' ▸ hfault⟩

end Definition

end SimpleLR
