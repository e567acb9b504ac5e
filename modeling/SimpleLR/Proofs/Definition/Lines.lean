import Mathlib.Data.List.TakeWhile
import SimpleLR.Definition.Basic
import SimpleLR.Proofs.Words

namespace SimpleLR

open Text

namespace Line

variable {c : Char} {s u w : List Char} {ws : List String}

/-- A word that begins a comment, which goes on to the end of the line. -/
def opensComment (word : List Char) : Bool :=
  word.take 2 = ['-', '-']

def words (line : List Char) : List String :=
  ((runs isSeparator line).takeWhile (!opensComment ·)).map String.ofList

/-- The words that stand for themselves, unlike arrows and directives. -/
def isPlain (word : String) : Bool :=
  word ∉ [arrow, Directive.terminals.word, Directive.nonterminals.word, Directive.start.word]

/-- The line with these words, if they are of the form of one. -/
def ofWords? : List String → Option Line
  | [] => some .empty
  | word :: rest =>
    if word = Directive.terminals.word then
      if rest.all isPlain then some (.terminals rest) else none
    else if word = Directive.nonterminals.word then
      if rest.all isPlain then some (.nonterminals rest) else none
    else if word = Directive.start.word then
      match rest with
      | [a] => if isPlain a then some (.start a) else none
      | _ => none
    else match rest with
      | middle :: rhs =>
        if isPlain word ∧ middle = arrow ∧ rhs.all isPlain then some (.rule word rhs) else none
      | [] => none

def toWords : Line → List String
  | .empty => []
  | .terminals names => Directive.terminals.word :: names
  | .nonterminals names => Directive.nonterminals.word :: names
  | .start name => [Directive.start.word, name]
  | .rule lhs rhs => lhs :: arrow :: rhs

def plainWords : Line → List String
  | .empty => []
  | .terminals names => names
  | .nonterminals names => names
  | .start name => [name]
  | .rule lhs rhs => lhs :: rhs

theorem ofWords?_eq_some_iff {l : Line} :
    ofWords? ws = some l ↔ ws = l.toWords ∧ l.plainWords.all isPlain := by
  constructor
  · intro h
    unfold ofWords? at h
    split at h
    · cases h
      simp [toWords, plainWords]
    · grind [toWords, plainWords]
  · rintro ⟨rfl, h⟩
    cases l with
    | empty => rfl
    | rule lhs rhs =>
      have hl : isPlain lhs := by simp_all [plainWords]
      have hr : rhs.all isPlain := by simp_all [plainWords]
      have : lhs ∉ [arrow, Directive.terminals.word, Directive.nonterminals.word,
        Directive.start.word] := by simpa [isPlain] using hl
      simp only [List.mem_cons, List.not_mem_nil, or_false, not_or] at this
      simp [ofWords?, toWords, this, hl, hr]
    | terminals | nonterminals | start =>
      simp_all [ofWords?, toWords, plainWords, Directive.word]

/-- The forms that the words of a line can have. -/
inductive Form : List String → Prop
  | empty : Form []
  | terminals {names : List String} :
      (∀ a ∈ names, isPlain a) → Form (Directive.terminals.word :: names)
  | nonterminals {names : List String} :
      (∀ a ∈ names, isPlain a) → Form (Directive.nonterminals.word :: names)
  | start {name : String} : isPlain name → Form [Directive.start.word, name]
  | rule {lhs : String} {rhs : List String} :
      isPlain lhs → (∀ a ∈ rhs, isPlain a) → Form (lhs :: arrow :: rhs)

theorem form_iff : Form ws ↔ ∃ l, ofWords? ws = some l := by
  simp only [ofWords?_eq_some_iff, List.all_eq_true]
  constructor
  · rintro (_ | h | h | h | ⟨hl, hr⟩)
    · exact ⟨.empty, rfl, by simp [plainWords]⟩
    · exact ⟨.terminals _, rfl, h⟩
    · exact ⟨.nonterminals _, rfl, h⟩
    · exact ⟨.start _, rfl, by simpa [plainWords] using h⟩
    · exact ⟨.rule _ _, rfl, by simpa [plainWords] using ⟨hl, hr⟩⟩
  · rintro ⟨l, rfl, h⟩
    cases l with
    | empty => exact .empty
    | terminals names => exact .terminals h
    | nonterminals names => exact .nonterminals h
    | start name => exact .start (h name List.mem_cons_self)
    | rule lhs rhs =>
      exact .rule (h lhs List.mem_cons_self) fun a ha => h a (List.mem_cons_of_mem lhs ha)

theorem words_nil : words [] = [] := by
  simp [words, runs]

theorem words_cons (hc : isSeparator c = true) : words (c :: s) = words s := by
  have hruns : runs isSeparator (c :: s) = runs isSeparator s := by
    rw [← List.nil_append (c :: s), runs_append_cons hc]
    simp [runs]
  rw [words, hruns, words]

theorem words_append (hne : w ≠ []) (hw : ∀ c ∈ w, isSeparator c = false)
    (hu : ∀ c ∈ u.head?, isSeparator c = true) :
    words (w ++ u) = if opensComment w then [] else String.ofList w :: words u := by
  have hruns : runs isSeparator (w ++ u) = w :: runs isSeparator u := by
    cases u with
    | nil =>
      rw [List.append_nil, runs_of_not_separates hne hw]
      simp [runs]
    | cons c u =>
      have hc : isSeparator c = true := hu c rfl
      have hcons := runs_append_cons hc [] u
      rw [runs_append_cons hc, runs_of_not_separates hne hw]
      simpa [runs] using hcons.symm
  rw [words, hruns, List.takeWhile_cons]
  cases opensComment w <;> simp [words]

theorem words_append_of_separators (h : ∀ c ∈ s, isSeparator c = true) :
    words (s ++ u) = words u := by
  induction s with
  | nil => rfl
  | cons c s ih =>
    rw [List.cons_append, words_cons (h c List.mem_cons_self)]
    exact ih fun d hd => h d (List.mem_cons_of_mem c hd)

theorem opensComment_iff : opensComment w = true ↔ ['-', '-'] <+: w := by
  rw [opensComment, decide_eq_true_iff, List.prefix_iff_eq_take, eq_comm]
  rfl

theorem words_of_comment (h : ['-', '-'] <+: s) : words s = [] := by
  obtain ⟨u, rfl⟩ := h
  have hsplit := List.takeWhile_append_dropWhile (p := fun c => !isSeparator c) (l := u)
  have hhead := List.head?_dropWhile_not (fun c => !isSeparator c) u
  rw [← hsplit, ← List.append_assoc, words_append, if_pos]
  · exact opensComment_iff.2 (List.prefix_append _ _)
  · exact List.cons_ne_nil '-' _
  · intro c hc
    rcases List.mem_append.1 hc with hc | hc
    · obtain rfl : c = '-' := by simpa using hc
      rfl
    · simpa using List.mem_takeWhile_imp hc
  · intro c hc
    rw [Option.mem_def.1 hc] at hhead
    simpa using hhead

end Line

end SimpleLR
