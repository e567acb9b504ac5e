import SimpleLR.Proofs.Definition.Lexing

namespace SimpleLR

namespace TokenParser

variable {tokens rest : List Token} {is : List Nat}

theorem manyFrom_map_word : manyFrom Token.word? (is.map Token.word) = (is, []) := by
  induction is with
  | nil => rfl
  | cons i is ih =>
    rw [List.map_cons, manyFrom]
    simp [Token.word?, ih]

theorem eq_map_word_of_manyFrom (h : manyFrom Token.word? tokens = (is, [])) :
    tokens = is.map Token.word := by
  induction tokens generalizing is with
  | nil =>
    obtain ⟨rfl, -⟩ := Prod.mk.inj h
    rfl
  | cons token tokens ih =>
    cases token with
    | word i =>
      obtain ⟨rfl, hrest⟩ := Prod.mk.inj h
      rw [List.map_cons, ← ih (Prod.ext rfl hrest)]
    | lineFeed | arrow | directive => cases h

end TokenParser

namespace Clause

open TokenParser

def tokens : Clause → List Token
  | terminals is => .directive .terminals :: is.map .word
  | nonterminals is => .directive .nonterminals :: is.map .word
  | start i => [.directive .start, .word i]
  | rule i is => .word i :: .arrow :: is.map .word

variable {tokens : List Token} {c : Clause}

theorem ofTokens?_eq : ofTokens? tokens =
    (parser tokens).bind fun (c, rest) => if rest = [] then some c else none := by
  change ((parser tokens).bind fun (c, rest) =>
    (ending rest).bind fun (_, rest) => some (c, rest)).map Prod.fst = _
  cases parser tokens with
  | none => rfl
  | some cr =>
    obtain ⟨c, rest⟩ := cr
    cases rest <;> rfl

theorem parser_tokens : parser c.tokens = some (c, []) := by
  cases c with
  | terminals is =>
    change some (terminals (manyFrom Token.word? _).1, (manyFrom Token.word? _).2) = _
    rw [manyFrom_map_word]
  | nonterminals is =>
    change some (nonterminals (manyFrom Token.word? _).1, (manyFrom Token.word? _).2) = _
    rw [manyFrom_map_word]
  | start i => rfl
  | rule i is =>
    change some (rule i (manyFrom Token.word? _).1, (manyFrom Token.word? _).2) = _
    rw [manyFrom_map_word]

theorem eq_tokens_of_parser_eq (h : parser tokens = some (c, [])) : tokens = c.tokens := by
  cases tokens with
  | nil => cases h
  | cons token rest =>
    cases token with
    | lineFeed => cases h
    | arrow => cases h
    | directive d =>
      cases d with
      | terminals =>
        obtain ⟨rfl, hrest⟩ := Prod.mk.inj (Option.some.inj h)
        exact congrArg _ (eq_map_word_of_manyFrom (Prod.ext rfl hrest))
      | nonterminals =>
        obtain ⟨rfl, hrest⟩ := Prod.mk.inj (Option.some.inj h)
        exact congrArg _ (eq_map_word_of_manyFrom (Prod.ext rfl hrest))
      | start =>
        cases rest with
        | nil => cases h
        | cons token rest =>
          cases token with
          | word i =>
            obtain ⟨rfl, rfl⟩ := Prod.mk.inj (Option.some.inj h)
            rfl
          | lineFeed | arrow | directive => cases h
    | word i =>
      cases rest with
      | nil => cases h
      | cons token rest =>
        cases token with
        | arrow =>
          obtain ⟨rfl, hrest⟩ := Prod.mk.inj (Option.some.inj h)
          exact congrArg (.word i :: .arrow :: ·) (eq_map_word_of_manyFrom (Prod.ext rfl hrest))
        | lineFeed | directive | word => cases h

theorem ofTokens?_eq_some_iff : ofTokens? tokens = some c ↔ tokens = c.tokens := by
  rw [ofTokens?_eq, Option.bind_eq_some_iff]
  constructor
  · rintro ⟨⟨c', rest⟩, hparser, h⟩
    cases rest with
    | nil =>
      obtain rfl := Option.some.inj h
      exact eq_tokens_of_parser_eq hparser
    | cons token rest => cases h
  · rintro rfl
    exact ⟨(c, []), parser_tokens, rfl⟩

end Clause

section

variable {t : NameTable} {token : Token} {tokens : List Token} {words : List String} {a : String}

theorem Directive.word_inj {d d' : Directive} (h : d.word = d'.word) : d = d' := by
  cases d <;> cases d' <;> first | rfl | exact absurd h (by decide)

namespace Token.Spells

theorem eq_arrow (h : token.Spells t SimpleLR.arrow) : token = .arrow := by
  generalize ha : SimpleLR.arrow = a at h
  cases h with
  | arrow => rfl
  | directive d => cases d <;> exact absurd ha (by decide)
  | word _ hplain => 
    subst ha
    exact absurd hplain (by decide)

theorem eq_directive {d : Directive} (h : token.Spells t d.word) : token = .directive d := by
  generalize ha : d.word = a at h
  cases h with
  | arrow => cases d <;> exact absurd ha (by decide)
  | directive d' => rw [Directive.word_inj ha]
  | word _ hplain => 
    subst ha
    cases d <;> exact absurd hplain (by decide)

theorem exists_word (h : token.Spells t a) (ha : Line.isPlain a) :
    ∃ i, token = .word i := by
  cases h with
  | arrow => cases ha
  | directive d => cases d <;> cases ha
  | word => exact ⟨_, rfl⟩

theorem name_eq {i : Nat} (h : Spells t (.word i) a) :
    (t.name? i).getD "" = a ∧ Line.isPlain a := by
  cases h with
  | word hi hplain => exact ⟨by rw [hi]; rfl, hplain⟩

end Token.Spells

theorem exists_map_word (h : List.Forall₂ (Token.Spells t) tokens words)
    (hplain : ∀ a ∈ words, Line.isPlain a) :
    ∃ is : List Nat, tokens = is.map .word := by
  induction h with
  | nil => exact ⟨[], rfl⟩
  | cons hspells _ ih =>
    obtain ⟨i, rfl⟩ := hspells.exists_word (hplain _ List.mem_cons_self)
    obtain ⟨is, rfl⟩ := ih fun a ha => hplain a (List.mem_cons_of_mem _ ha)
    exact ⟨i :: is, rfl⟩

theorem words_of_map_word {is : List Nat}
    (h : List.Forall₂ (Token.Spells t) (is.map .word) words) :
    words = is.map (fun i => (t.name? i).getD "") ∧ ∀ a ∈ words, Line.isPlain a := by
  induction is generalizing words with
  | nil =>
    cases h
    exact ⟨rfl, nofun⟩
  | cons i is ih =>
    cases h with
    | cons hspells h =>
      obtain ⟨rfl, hplain⟩ := hspells.name_eq
      obtain ⟨rfl, hall⟩ := ih h
      exact ⟨rfl, List.forall_mem_cons.2 ⟨hplain, hall⟩⟩

namespace Clause

theorem ofWords?_of_tokens {c : Clause} (h : List.Forall₂ (Token.Spells t) c.tokens words) :
    Line.ofWords? words = some (c.toLine fun i => (t.name? i).getD "") := by
  rw [Line.ofWords?_eq_some_iff, List.all_eq_true]
  cases c with
  | terminals is =>
    cases h with
    | cons hd h =>
      obtain ⟨rfl, hplain⟩ := words_of_map_word h
      cases hd
      exact ⟨rfl, hplain⟩
  | nonterminals is =>
    cases h with
    | cons hd h =>
      obtain ⟨rfl, hplain⟩ := words_of_map_word h
      cases hd
      exact ⟨rfl, hplain⟩
  | start i =>
    cases h with
    | cons hd h =>
      have h : List.Forall₂ (Token.Spells t) ([i].map .word) _ := h
      obtain ⟨rfl, hplain⟩ := words_of_map_word h
      cases hd
      exact ⟨rfl, hplain⟩
  | rule i is =>
    cases h with
    | cons hi h =>
      cases h with
      | cons harrow h =>
        obtain ⟨rfl, hplain⟩ := words_of_map_word h
        obtain ⟨rfl, hlhs⟩ := hi.name_eq
        cases harrow
        exact ⟨rfl, List.forall_mem_cons.2 ⟨hlhs, hplain⟩⟩

theorem exists_of_ofWords? {l : Line} (h : List.Forall₂ (Token.Spells t) tokens words)
    (hl : Line.ofWords? words = some l) (hne : tokens ≠ []) : ∃ c : Clause, tokens = c.tokens := by
  obtain ⟨rfl, hplain⟩ := Line.ofWords?_eq_some_iff.1 hl
  rw [List.all_eq_true] at hplain
  cases l with
  | empty =>
    cases h
    exact absurd rfl hne
  | terminals names =>
    cases h with
    | cons hd h =>
      obtain ⟨is, rfl⟩ := exists_map_word h hplain
      exact ⟨terminals is, by rw [hd.eq_directive]; rfl⟩
  | nonterminals names =>
    cases h with
    | cons hd h =>
      obtain ⟨is, rfl⟩ := exists_map_word h hplain
      exact ⟨nonterminals is, by rw [hd.eq_directive]; rfl⟩
  | start name =>
    obtain ⟨hname, -⟩ := List.forall_mem_cons.1 hplain
    cases h with
    | cons hd h =>
      cases h with
      | cons hi h =>
        obtain ⟨i, rfl⟩ := hi.exists_word hname
        cases h
        exact ⟨start i, by rw [hd.eq_directive]; rfl⟩
  | rule lhs rhs =>
    obtain ⟨hlhs, hrhs⟩ := List.forall_mem_cons.1 hplain
    cases h with
    | cons hi h =>
      cases h with
      | cons harrow h =>
        obtain ⟨i, rfl⟩ := hi.exists_word hlhs
        obtain ⟨is, rfl⟩ := exists_map_word h hrhs
        exact ⟨rule i is, by rw [harrow.eq_arrow]; rfl⟩

/-- The clause of some tokens is the line of the words for which they stand. -/
theorem map_ofTokens? (h : List.Forall₂ (Token.Spells t) tokens words) (hne : tokens ≠ []) :
    (ofTokens? tokens).map (toLine fun i => (t.name? i).getD "") = Line.ofWords? words := by
  cases hc : ofTokens? tokens with
  | some c =>
    obtain rfl := ofTokens?_eq_some_iff.1 hc
    exact (ofWords?_of_tokens h).symm
  | none =>
    cases hl : Line.ofWords? words with
    | none => rfl
    | some l =>
      obtain ⟨c, hc'⟩ := exists_of_ofWords? h hl hne
      cases hc.symm.trans (ofTokens?_eq_some_iff.2 hc')

end Clause

end

namespace Definition

variable {t : NameTable} {d : Definition}

def readWords (d : Definition) (n : Nat) (words : List String) : Except GrammarError Definition :=
  match Line.ofWords? words with
  | some l => d.addLine n l
  | none => .error (.malformedLine n .unexpected)

theorem readTokens_eq {tokens : List Token} {words : List String} (n : Nat)
    (h : List.Forall₂ (Token.Spells t) tokens words) :
    d.readTokens t n tokens = d.readWords n words := by
  unfold readTokens readWords
  by_cases hnil : tokens = []
  · subst hnil
    cases h
    rfl
  · rw [if_neg hnil, ← Clause.map_ofTokens? h hnil]
    cases Clause.ofTokens? tokens <;> rfl

theorem foldlM_readTokens {tokens : List (List Token)} {words : List (List String)}
    (h : List.Forall₂ (List.Forall₂ (Token.Spells t)) tokens words) (d : Definition) (n : Nat) :
    (tokens.zipIdx n).foldlM (fun d (line, n) => d.readTokens t n line) d =
      (words.zipIdx n).foldlM (fun d (line, n) => d.readWords n line) d := by
  induction h generalizing d n with
  | nil => rfl
  | cons hline _ ih =>
    rw [List.zipIdx_cons, List.zipIdx_cons, List.foldlM_cons, List.foldlM_cons]
    dsimp only
    rw [readTokens_eq n hline]
    exact congrArg _ (funext fun d => ih d (n + 1))

def lines (source : String) : List (List String) :=
  (source.toList.splitOn '\n').map Line.words

/-- Reading a definition file by its tokens is reading it by the words of its lines. -/
theorem read_eq (source : String) : read source =
    ((lines source).zipIdx 1).foldlM (fun d (line, n) => d.readWords n line) empty := by
  obtain ⟨tokens, t, htokens, hspells⟩ := exists_tokenize source
  rw [read, htokens]
  exact foldlM_readTokens hspells empty 1

end Definition

end SimpleLR
