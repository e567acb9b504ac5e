import Mathlib.Data.List.Forall2
import Mathlib.Data.List.TakeWhile
import SimpleLR.Proofs.Definition.Lines

namespace SimpleLR

open Text

namespace Pattern

variable {s : List Char}

theorem size_ofLiteral (a : String) :
    (ofLiteral a).size s = if a.toList <+: s then a.toList.length else 0 := by
  have hnone : (s.drop a.toList.length).takeWhile (fun _ => false) = [] := by
    cases s.drop a.toList.length <;> rfl
  simp [size, ofLiteral, hnone]

theorem size_class (p : Char → Bool) : (⟨[], p⟩ : Pattern).size s = (s.takeWhile p).length := by
  simp [size]

theorem size_eq_zero {p : Pattern} {a c : Char} (ha : p.literal.head? = some a) (hc : a ≠ c) :
    p.size (c :: s) = 0 := by
  rw [size, if_neg]
  intro hpre
  obtain ⟨l, hl⟩ := List.head?_eq_some_iff.1 ha
  rw [hl, List.cons_prefix_cons] at hpre
  exact hc hpre.1

end Pattern

namespace Lexeme

variable {s : List Char} {k k' : Lexeme} {c : Char} {a : String}

theorem mem_all (k : Lexeme) : k ∈ all := by
  cases k with
  | directive d => cases d <;> decide
  | _ => decide

instance (p : Lexeme → Prop) [DecidablePred p] : Decidable (∀ k, p k) :=
  decidable_of_iff (∀ k ∈ all, p k) ⟨fun h k => h k (mem_all k), fun h k _ => h k⟩

theorem not_beats_of_beats (h : Beats s k k') : ¬ Beats s k' k := by
  unfold Beats at *
  omega

theorem not_beats_self : ¬ Beats s k k :=
  fun h => not_beats_of_beats h h

theorem eq_or_mem_of_mem_better {best : Option Lexeme} (h : k ∈ better s best k') :
    k = k' ∨ k ∈ best := by
  unfold better at h
  grind

theorem foldl_better_self {ks : List Lexeme} (h : ∀ k' ∈ ks, k' ≠ k → Beats s k k') :
    ks.foldl (better s) (some k) = some k := by
  induction ks with
  | nil => rfl
  | cons k' ks ih =>
    have hbeats : ¬ Beats s k' k := by
      by_cases heq : k' = k
      · exact heq ▸ not_beats_self
      · exact not_beats_of_beats (h k' List.mem_cons_self heq)
    rw [List.foldl_cons, better, if_neg hbeats]
    exact ih fun k' hk' => h k' (List.mem_cons_of_mem _ hk')

/-- A lexeme that beats all others wins, in whatever order they come. -/
theorem foldl_better {ks : List Lexeme} {best : Option Lexeme} (hmem : k ∈ ks)
    (h : ∀ k' ∈ ks, k' ≠ k → Beats s k k') (hbest : ∀ k' ∈ best, k' ≠ k → Beats s k k') :
    ks.foldl (better s) best = some k := by
  induction ks generalizing best with
  | nil => exact absurd hmem List.not_mem_nil
  | cons k₁ ks ih =>
    have hks : ∀ k' ∈ ks, k' ≠ k → Beats s k k' := fun k' hk' => h k' (List.mem_cons_of_mem _ hk')
    rw [List.foldl_cons]
    by_cases heq : k = k₁
    · subst heq
      have hbetter : better s best k = some k := by
        cases best with
        | none => rfl
        | some k' =>
          by_cases hk' : k' = k
          · rw [hk', better, if_neg not_beats_self]
          · exact if_pos (hbest k' rfl hk')
      rw [hbetter, foldl_better_self hks]
    · refine ih (List.mem_of_ne_of_mem heq hmem) hks fun k' hk' => ?_
      rcases eq_or_mem_of_mem_better hk' with rfl | hk'
      · exact h k' List.mem_cons_self
      · exact hbest k' hk'

theorem longest?_eq_some (hsize : 0 < k.size s) (h : ∀ k', k' ≠ k → 0 < k'.size s → Beats s k k') :
    longest? s = some k := by
  refine foldl_better (List.mem_filter.2 ⟨mem_all k, decide_eq_true hsize⟩) ?_ nofun
  intro k' hk' hne
  exact h k' hne (of_decide_eq_true (List.mem_filter.1 hk').2)

/-- The lexemes that are words in a form of their own. -/
def keyword? : Lexeme → Option String
  | arrow => some SimpleLR.arrow
  | directive d => some d.word
  | _ => none

theorem keyword?_inj (h : k.keyword? = some a) (h' : k'.keyword? = some a) : k = k' := by
  have hall : ∀ k k' : Lexeme, k.keyword?.isSome → k.keyword? = k'.keyword? → k = k' := by
    decide +kernel
  exact hall k k' (by rw [h]; rfl) (h.trans h'.symm)

theorem keyword?_of_not_isPlain (h : Line.isPlain a = false) :
    ∃ k : Lexeme, k.keyword? = some a := by
  have hmem : a ∈ [SimpleLR.arrow, Directive.terminals.word, Directive.nonterminals.word,
      Directive.start.word] := by
    rw [Line.isPlain, decide_eq_false_iff_not] at h
    exact Decidable.not_not.1 h
  simp only [List.mem_cons, List.not_mem_nil, or_false] at hmem
  rcases hmem with rfl | rfl | rfl | rfl
  · exact ⟨arrow, rfl⟩
  · exact ⟨directive .terminals, rfl⟩
  · exact ⟨directive .nonterminals, rfl⟩
  · exact ⟨directive .start, rfl⟩

theorem not_isPlain_of_keyword? (h : k.keyword? = some a) : Line.isPlain a = false := by
  have hall : ∀ k : Lexeme, ∀ a ∈ k.keyword?, Line.isPlain a = false := by decide +kernel
  exact hall k a h

theorem isWord_of_keyword? (h : k.keyword? = some a) : a.toList ≠ [] ∧ ∀ c ∈ a.toList, inWord c := by
  have hall : ∀ k : Lexeme, ∀ a ∈ k.keyword?, a.toList ≠ [] ∧ a.toList.all inWord := by
    decide +kernel
  have ha := hall k a h
  rwa [List.all_eq_true] at ha

theorem not_comment_of_keyword? (h : k.keyword? = some a) :
    ¬ a.toList <+: ['-', '-'] ∧ ¬ ['-', '-'] <+: a.toList := by
  have hall : ∀ k : Lexeme, ∀ a ∈ k.keyword?,
      ¬ a.toList <+: ['-', '-'] ∧ ¬ ['-', '-'] <+: a.toList := by
    decide +kernel
  exact hall k a h

theorem priority_of_keyword? (h : k.keyword? = some a) : 1 < k.pattern.priority := by
  have hall : ∀ k : Lexeme, k.keyword?.isSome → 1 < k.pattern.priority := by decide +kernel
  exact hall k (by rw [h]; rfl)

theorem size_of_keyword? (h : k.keyword? = some a) :
    k.size s = if a.toList <+: s.takeWhile inWord then a.toList.length else 0 := by
  have hsize : k.size s = if a.toList <+: s then a.toList.length else 0 := by
    cases k with
    | arrow | directive =>
      obtain rfl := Option.some.inj h
      exact Pattern.size_ofLiteral _
    | _ => cases h
  have hiff : a.toList <+: s.takeWhile inWord ↔ a.toList <+: s := by
    constructor
    · exact fun hpre => hpre.trans (List.takeWhile_prefix inWord)
    · rintro ⟨u, rfl⟩
      rw [List.takeWhile_append_of_pos (isWord_of_keyword? h).2]
      exact List.prefix_append _ _
  simp only [hsize, hiff]

theorem size_gap : gap.size s = (s.takeWhile Line.isSeparator).length :=
  Pattern.size_class Line.isSeparator

theorem size_word : word.size s = (s.takeWhile inWord).length :=
  Pattern.size_class inWord

theorem size_lineFeed_cons : lineFeed.size (c :: s) = if c = '\n' then 1 else 0 := by
  by_cases hc : c = '\n'
  · subst hc
    exact (Pattern.size_ofLiteral "\n").trans (by simp)
  · rw [if_neg hc]
    exact Pattern.size_eq_zero (a := '\n') rfl (Ne.symm hc)

theorem size_comment : comment.size s =
    if ['-', '-'] <+: s then (s.takeWhile (· ≠ '\n')).length else 0 := by
  by_cases h : ['-', '-'] <+: s
  · obtain ⟨u, rfl⟩ := h
    simp [size, pattern, Pattern.size]
    omega
  · rw [if_neg h]
    exact if_neg h

theorem size_of_not_inWord (hc : inWord c = false) (hgap : k ≠ gap) (hfeed : k ≠ lineFeed) :
    k.size (c :: s) = 0 := by
  have hword : (c :: s).takeWhile inWord = [] := List.takeWhile_cons_of_neg (by simp [hc])
  cases hk : k.keyword? with
  | some a =>
    rw [size_of_keyword? hk, hword, if_neg]
    exact fun hpre => (isWord_of_keyword? hk).1 (List.prefix_nil.1 hpre)
  | none =>
    cases k with
    | gap => exact absurd rfl hgap
    | lineFeed => exact absurd rfl hfeed
    | word => rw [size_word, hword, List.length_nil]
    | comment =>
      rw [size_comment, if_neg]
      intro hpre
      obtain rfl := (List.cons_prefix_cons.1 hpre).1
      exact absurd hc (by decide)
    | arrow | directive => cases hk

theorem size_gap_of_inWord (hc : inWord c = true) : gap.size (c :: s) = 0 := by
  have hseparator : Line.isSeparator c = false := by simp_all [inWord]
  rw [size_gap, List.takeWhile_cons_of_neg (by simp [hseparator]), List.length_nil]

theorem size_lineFeed_of_inWord (hc : inWord c = true) : lineFeed.size (c :: s) = 0 := by
  have hne : c ≠ '\n' := by simp_all [inWord]
  rw [size_lineFeed_cons, if_neg hne]

theorem longest?_lineFeed : longest? ('\n' :: s) = some lineFeed := by
  refine longest?_eq_some (by simp [size_lineFeed_cons]) fun k hne hpos => ?_
  by_cases hk : k = gap
  · have hgap : gap.size ('\n' :: s) = 0 := size_gap
    rw [hk, hgap] at hpos
    exact absurd hpos (Nat.lt_irrefl 0)
  · rw [size_of_not_inWord (by decide) hk hne] at hpos
    exact absurd hpos (Nat.lt_irrefl 0)

theorem longest?_gap (hc : Line.isSeparator c = true) : longest? (c :: s) = some gap := by
  have hpos : 0 < gap.size (c :: s) := by
    rw [size_gap, List.takeWhile_cons_of_pos hc]
    exact Nat.succ_pos _
  refine longest?_eq_some hpos fun k hne hpos => ?_
  by_cases hk : k = lineFeed
  · have hc' : c ≠ '\n' := by
      rintro rfl
      exact absurd hc (by decide)
    rw [hk, size_lineFeed_cons, if_neg hc'] at hpos
    exact absurd hpos (Nat.lt_irrefl 0)
  · rw [size_of_not_inWord (by simp [inWord, hc]) hne hk] at hpos
    exact absurd hpos (Nat.lt_irrefl 0)

theorem size_keyword?_of_comment (h : ['-', '-'] <+: s) (hk : k.keyword? = some a) :
    k.size s = 0 := by
  obtain ⟨hnot, hnot'⟩ := not_comment_of_keyword? hk
  rw [size_of_keyword? hk, if_neg]
  intro hpre
  rcases List.prefix_or_prefix_of_prefix h (hpre.trans (List.takeWhile_prefix inWord)) with h | h
  · exact hnot' h
  · exact hnot h

theorem size_word_le_of_comment (h : ['-', '-'] <+: s) : word.size s ≤ comment.size s := by
  have htake : (s.takeWhile (· ≠ '\n')).takeWhile inWord = s.takeWhile inWord := by
    rw [List.takeWhile_takeWhile]
    congr 1
    funext c
    simp [inWord]
  rw [size_word, size_comment, if_pos h, ← htake]
  exact (List.takeWhile_prefix inWord).length_le

theorem longest?_comment (h : ['-', '-'] <+: s) : longest? s = some comment := by
  obtain ⟨u, rfl⟩ := h
  have hpre : ['-', '-'] <+: ['-', '-'] ++ u := List.prefix_append _ u
  have hle := size_word_le_of_comment hpre
  refine longest?_eq_some ?_ fun k hne hpos => ?_
  · rw [size_comment, if_pos hpre]
    exact Nat.succ_pos _
  cases hk : k.keyword? with
  | some a => exact absurd (size_keyword?_of_comment hpre hk) (Nat.ne_of_gt hpos)
  | none =>
    cases k with
    | gap => exact absurd (size_gap_of_inWord (by decide)) (Nat.ne_of_gt hpos)
    | lineFeed => exact absurd (size_lineFeed_of_inWord (by decide)) (Nat.ne_of_gt hpos)
    | comment => exact absurd rfl hne
    | word =>
      rcases Nat.lt_or_eq_of_le hle with hlt | heq
      · exact .inl hlt
      · exact .inr ⟨heq, by decide⟩
    | arrow | directive => cases hk

/-- A lexeme that takes a whole word wins over a part of the word, and over the word as such if it
is a keyword. -/
theorem longest?_of_inWord (hc : inWord c = true) (hcomment : ¬ ['-', '-'] <+: c :: s)
    (hsize : k.size (c :: s) = word.size (c :: s)) (hword : k ≠ word → 1 < k.pattern.priority)
    (hkeyword : ∀ k' a, k' ≠ k → k'.keyword? = some a → (c :: s).takeWhile inWord ≠ a.toList) :
    longest? (c :: s) = some k := by
  have hpos : 0 < word.size (c :: s) := by
    rw [size_word, List.takeWhile_cons_of_pos hc]
    exact Nat.succ_pos _
  refine longest?_eq_some (hsize ▸ hpos) fun k' hne hpos' => ?_
  cases hk' : k'.keyword? with
  | some a =>
    by_cases hpre : a.toList <+: (c :: s).takeWhile inWord
    · have hlt : a.toList.length < ((c :: s).takeWhile inWord).length := by
        rcases Nat.lt_or_eq_of_le hpre.length_le with hlt | heq
        · exact hlt
        · exact absurd (hpre.eq_of_length heq).symm (hkeyword k' a hne hk')
      refine .inl ?_
      rwa [hsize, size_word, size_of_keyword? hk', if_pos hpre]
    · rw [size_of_keyword? hk', if_neg hpre] at hpos'
      exact absurd hpos' (Nat.lt_irrefl 0)
  | none =>
    cases k' with
    | gap => exact absurd (size_gap_of_inWord hc) (Nat.ne_of_gt hpos')
    | lineFeed => exact absurd (size_lineFeed_of_inWord hc) (Nat.ne_of_gt hpos')
    | comment => exact absurd (size_comment.trans (if_neg hcomment)) (Nat.ne_of_gt hpos')
    | word => exact .inr ⟨hsize.symm, hword (Ne.symm hne)⟩
    | arrow | directive => cases hk'

theorem longest?_of_keyword? (hc : inWord c = true) (hcomment : ¬ ['-', '-'] <+: c :: s)
    (hk : k.keyword? = some a) (hword : (c :: s).takeWhile inWord = a.toList) :
    longest? (c :: s) = some k ∧ k.size (c :: s) = a.toList.length := by
  have hsize : k.size (c :: s) = a.toList.length := by
    rw [size_of_keyword? hk, hword, if_pos (List.prefix_refl _)]
  refine ⟨longest?_of_inWord hc hcomment ?_ (fun _ => priority_of_keyword? hk) ?_, hsize⟩
  · rw [hsize, size_word, hword]
  · intro k' a' hne hk' hword'
    have ha : a = a' := String.toList_inj.1 (hword.symm.trans hword')
    exact hne (keyword?_inj hk' (ha ▸ hk))

theorem longest?_word (hc : inWord c = true) (hcomment : ¬ ['-', '-'] <+: c :: s)
    (hplain : Line.isPlain (String.ofList ((c :: s).takeWhile inWord)) = true) :
    longest? (c :: s) = some word := by
  refine longest?_of_inWord hc hcomment rfl (absurd rfl) fun k a _ hk hword => ?_
  rw [hword, String.ofList_toList, not_isPlain_of_keyword? hk] at hplain
  cases hplain

/-- The lexeme at the beginning of a text takes `s`, and leaves `u`. -/
inductive Takes : Lexeme → List Char → List Char → Prop
  | lineFeed {u : List Char} : Takes .lineFeed ['\n'] u
  | gap {s u : List Char} : s ≠ [] → (∀ c ∈ s, Line.isSeparator c) → Takes .gap s u
  | comment {s u : List Char} :
      ['-', '-'] <+: s → (∀ c ∈ s, c ≠ '\n') → (∀ c ∈ u.head?, c = '\n') → Takes .comment s u
  | keyword {k : Lexeme} {s u : List Char} : k.keyword? = some (String.ofList s) →
      (∀ c ∈ u.head?, inWord c = false) → Takes k s u
  | word {s u : List Char} : s ≠ [] → (∀ c ∈ s, inWord c) → ¬ ['-', '-'] <+: s →
      Line.isPlain (String.ofList s) → (∀ c ∈ u.head?, inWord c = false) → Takes .word s u

theorem Takes.ne_nil {u : List Char} (h : Takes k s u) : s ≠ [] := by
  cases h with
  | lineFeed => exact List.cons_ne_nil _ _
  | gap hs | word hs => exact hs
  | comment hs => exact fun he => List.cons_ne_nil _ _ (List.prefix_nil.1 (he ▸ hs))
  | keyword hk =>
    have := (isWord_of_keyword? hk).1
    rwa [String.toList_ofList] at this

theorem exists_takes (hs : s ≠ []) :
    ∃ k s₁ u, s = s₁ ++ u ∧ Takes k s₁ u ∧ longest? s = some k ∧ k.size s = s₁.length := by
  obtain ⟨c, s, rfl⟩ := List.exists_cons_of_ne_nil hs
  have hsplit (p : Char → Bool) := (List.takeWhile_append_dropWhile (p := p) (l := c :: s)).symm
  have hhead (p : Char → Bool) : ∀ d ∈ ((c :: s).dropWhile p).head?, p d = false := by
    intro d hd
    have := List.head?_dropWhile_not p (c :: s)
    rwa [Option.mem_def.1 hd] at this
  have hne {p : Char → Bool} (hc : p c = true) : (c :: s).takeWhile p ≠ [] := by
    rw [List.takeWhile_cons_of_pos hc]
    exact List.cons_ne_nil c _
  cases hc : inWord c with
  | false =>
    by_cases hfeed : c = '\n'
    · subst hfeed
      exact ⟨.lineFeed, ['\n'], s, rfl, .lineFeed, longest?_lineFeed, size_lineFeed_cons⟩
    · have hc : Line.isSeparator c = true := by simpa [inWord, hfeed] using hc
      exact ⟨.gap, _, _, hsplit Line.isSeparator, .gap (hne hc) fun d => List.mem_takeWhile_imp,
        longest?_gap hc, size_gap⟩
  | true =>
    by_cases hcomment : ['-', '-'] <+: c :: s
    · refine ⟨.comment, _, _, hsplit (· ≠ '\n'), .comment ?_ ?_ ?_, longest?_comment hcomment,
        size_comment.trans (if_pos hcomment)⟩
      · obtain ⟨v, hv⟩ := hcomment
        rw [← hv]
        exact ⟨v.takeWhile (· ≠ '\n'), rfl⟩
      · intro d hd
        simpa using List.mem_takeWhile_imp hd
      · intro d hd
        simpa using hhead (· ≠ '\n') d hd
    · cases hplain : Line.isPlain (String.ofList ((c :: s).takeWhile inWord)) with
      | true =>
        refine ⟨.word, _, _, hsplit inWord, .word (hne hc) (fun d => List.mem_takeWhile_imp) ?_ hplain
          (hhead inWord), longest?_word hc hcomment hplain, size_word⟩
        exact fun h => hcomment (h.trans (List.takeWhile_prefix inWord))
      | false =>
        obtain ⟨k, hk⟩ := keyword?_of_not_isPlain hplain
        obtain ⟨hlongest, hsize⟩ := longest?_of_keyword? hc hcomment hk String.toList_ofList.symm
        rw [String.toList_ofList] at hsize
        exact ⟨k, _, _, hsplit inWord, .keyword hk (hhead inWord), hlongest, hsize⟩

end Lexeme

/-- What a token stands for, with the words of a table. -/
inductive Token.Spells (t : NameTable) : Token → String → Prop
  | arrow : Spells t .arrow SimpleLR.arrow
  | directive (d : Directive) : Spells t (.directive d) d.word
  | word {i : Nat} {a : String} : t.name? i = some a → Line.isPlain a → Spells t (.word i) a

theorem Token.Spells.mono {t t' : NameTable} {token : Token} {a : String}
    (h : token.Spells t a) (ht : t.names <+: t'.names) : token.Spells t' a := by
  cases h with
  | arrow => exact .arrow
  | directive d => exact .directive d
  | word hi hplain => exact .word (NameTable.name?_mono ht hi) hplain

theorem Lexeme.spells_of_keyword? {k : Lexeme} {a : String} (h : k.keyword? = some a)
    (t : NameTable) : ∃ token : Token, k.token? t a = (some token, t) ∧ token.Spells t a := by
  cases k with
  | arrow =>
    obtain rfl := Option.some.inj h
    exact ⟨.arrow, rfl, .arrow⟩
  | directive d =>
    obtain rfl := Option.some.inj h
    exact ⟨.directive d, rfl, .directive d⟩
  | _ => cases h

theorem Lexeme.spells_of_word {a : String} (h : Line.isPlain a = true) (t : NameTable) :
    ∃ token : Token, word.token? t a = (some token, (t.intern a).2) ∧
      token.Spells (t.intern a).2 a :=
  ⟨.word (t.intern a).1, rfl, .word (t.name?_intern a) h⟩

theorem lineFeed_not_mem {t : NameTable} {tokens : List Token} {words : List String}
    (h : List.Forall₂ (Token.Spells t) tokens words) : Token.lineFeed ∉ tokens := by
  induction h with
  | nil => exact List.not_mem_nil
  | cons hspells _ ih =>
    refine fun hmem => (List.mem_cons.1 hmem).elim ?_ ih
    rintro rfl
    cases hspells

/-- A lexeme within a line takes a word of it or none, and its token stands for that word. -/
theorem Lexeme.Takes.exists_token {k : Lexeme} {s u l : List Char} (h : Takes k s u)
    (hk : k ≠ .lineFeed) (hl : '\n' ∉ l) (hhead : ∀ c ∈ l.head?, c ∈ u.head?) (t : NameTable) :
    '\n' ∉ s ∧ ∃ token? t' words, k.token? t (String.ofList s) = (token?, t') ∧
      t.names <+: t'.names ∧ List.Forall₂ (Token.Spells t') token?.toList words ∧
        Line.words (s ++ l) = words ++ Line.words l := by
  have hfeed {s : List Char} (hs : ∀ c ∈ s, inWord c = true) : '\n' ∉ s :=
    fun hmem => absurd (hs '\n' hmem) (by decide)
  have hseparator {s : List Char} (hs : ∀ c ∈ s, inWord c = true) :
      ∀ c ∈ s, Line.isSeparator c = false := by
    intro c hc
    have := hs c hc
    simp_all [inWord]
  have hend (hu : ∀ c ∈ u.head?, inWord c = false) : ∀ c ∈ l.head?, Line.isSeparator c = true := by
    intro c hc
    have hne : c ≠ '\n' := fun heq => hl (heq ▸ List.mem_of_mem_head? hc)
    have := hu c (hhead c hc)
    simp_all [inWord]
  cases h with
  | lineFeed => exact absurd rfl hk
  | gap _ hs =>
    refine ⟨fun hmem => absurd (hs '\n' hmem) (by decide), none, t, [], rfl, List.prefix_refl _, .nil,
      Line.words_append_of_separators hs⟩
  | comment hs hs' hu =>
    have hnil : l = [] := by
      cases l with
      | nil => rfl
      | cons c l => exact absurd List.mem_cons_self (hu c (hhead c rfl) ▸ hl)
    subst hnil
    refine ⟨fun hmem => hs' '\n' hmem rfl, none, t, [], rfl, List.prefix_refl _, .nil, ?_⟩
    rw [List.append_nil, Line.words_of_comment hs]
    rfl
  | keyword hk hu =>
    have hword := (isWord_of_keyword? hk).2
    rw [String.toList_ofList] at hword
    obtain ⟨token, htoken, hspells⟩ := spells_of_keyword? hk t
    refine ⟨hfeed hword, some token, t, _, htoken, List.prefix_refl _, .cons hspells .nil, ?_⟩
    have hcomment := (not_comment_of_keyword? hk).2
    rw [String.toList_ofList] at hcomment
    rw [Line.words_append (Takes.keyword hk hu).ne_nil (hseparator hword) (hend hu),
      if_neg (mt Line.opensComment_iff.1 hcomment)]
    rfl
  | word hne hs hs' hplain hu =>
    obtain ⟨token, htoken, hspells⟩ := spells_of_word hplain t
    refine ⟨hfeed hs, some token, _, _, htoken, t.prefix_intern _, .cons hspells .nil, ?_⟩
    rw [Line.words_append hne (hseparator hs) (hend hu), if_neg (mt Line.opensComment_iff.1 hs')]
    rfl

section

variable {line : Nat} {t : NameTable} {s u : List Char} {k : Lexeme}

theorem tokensFrom_skip (n : Nat) : tokensFrom line t n s = tokensFrom line t 0 (s.drop n) := by
  induction n generalizing s with
  | zero => rfl
  | succ n ih =>
    cases s with
    | nil => rfl
    | cons c s => exact ih

theorem tokensFrom_append (hs : s ≠ []) (hk : Lexeme.longest? (s ++ u) = some k)
    (hsize : k.size (s ++ u) = s.length) :
    tokensFrom line t 0 (s ++ u) =
      (tokensFrom (if k = .lineFeed then line + 1 else line) (k.token? t (String.ofList s)).2 0 u).map
        fun (tokens, t') => ((k.token? t (String.ofList s)).1.toList ++ tokens, t') := by
  obtain ⟨c, s, rfl⟩ := List.exists_cons_of_ne_nil hs
  rw [List.cons_append] at hk hsize ⊢
  rw [tokensFrom, hk]
  dsimp only
  rw [hsize, tokensFrom_skip, List.length_cons, Nat.add_sub_cancel, List.drop_left,
    ← List.cons_append, ← List.length_cons, List.take_left]

/-- The tokens of each line stand for its words. -/
theorem exists_tokensFrom (s : List Char) (line : Nat) (t : NameTable) :
    ∃ tokens t', tokensFrom line t 0 s = .ok (tokens, t') ∧ t.names <+: t'.names ∧
      List.Forall₂ (List.Forall₂ (Token.Spells t')) (tokens.splitOn .lineFeed)
        ((s.splitOn '\n').map Line.words) := by
  -- Each lexeme takes something, so what it leaves is shorter.
  induction hn : s.length using Nat.strong_induction_on generalizing s line t with
  | _ n ih =>
    by_cases hs : s = []
    · subst hs
      exact ⟨[], t, rfl, List.prefix_refl _, .cons (Line.words_nil ▸ .nil) .nil⟩
    obtain ⟨k, s, u, rfl, htakes, hk, hsize⟩ := Lexeme.exists_takes hs
    have hne := htakes.ne_nil
    have hlt : u.length < n := by
      have := List.length_pos_iff.2 hne
      rw [← hn, List.length_append]
      omega
    obtain ⟨tokens, t', htokens, ht', hspells⟩ := ih u.length hlt u
      (if k = .lineFeed then line + 1 else line) (k.token? t (String.ofList s)).2 rfl
    rw [tokensFrom_append hne hk hsize, htokens]
    obtain ⟨l, ls, hu, hnot, hhead⟩ := exists_splitOn_cons '\n' u
    rw [hu, List.map_cons] at hspells
    obtain ⟨p, ps, hp, hps, hsplit⟩ := List.forall₂_cons_right_iff.1 hspells
    by_cases hfeed : k = .lineFeed
    · subst hfeed
      cases htakes with
      | lineFeed =>
        refine ⟨.lineFeed :: tokens, t', rfl, ht', ?_⟩
        rw [splitOn_cons_self, hsplit, List.singleton_append, splitOn_cons_self, hu]
        exact .cons (Line.words_nil ▸ .nil) (.cons hp hps)
      | keyword hk => cases hk
    · obtain ⟨hs, token?, t₁, words, htoken, ht₁, htaken, hwords⟩ :=
        htakes.exists_token hfeed hnot hhead t
      rw [htoken] at ht' ⊢
      have htaken : List.Forall₂ (Token.Spells t') token?.toList words :=
        htaken.imp fun _ _ h => h.mono ht'
      refine ⟨token?.toList ++ tokens, t', rfl, ht₁.trans ht', ?_⟩
      rw [splitOn_append (lineFeed_not_mem htaken) hsplit, splitOn_append hs hu, List.map_cons, hwords]
      exact .cons (List.rel_append htaken hp) hps

end

theorem exists_tokenize (source : String) :
    ∃ tokens t, tokenize source = .ok (tokens, t) ∧
      List.Forall₂ (List.Forall₂ (Token.Spells t)) (tokens.splitOn .lineFeed)
        ((source.toList.splitOn '\n').map Line.words) := by
  obtain ⟨tokens, t, htokens, -, hspells⟩ := exists_tokensFrom source.toList 1 ∅
  exact ⟨tokens, t, htokens, hspells⟩

example : (tokenize "x->y -> z --\n%starts %start").toOption.map Prod.fst =
    some [.word 0, .arrow, .word 1, .lineFeed, .word 2, .directive .start] := by
  decide +kernel

end SimpleLR
