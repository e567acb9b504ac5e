import SimpleLR.Generation
import SimpleLR.Proofs.FileSystem

namespace SimpleLR

/-- The listing of a grammar, with its states and its sets. -/
def Grammar.listing (g : Grammar) : String :=
  Listing.all g (.ofGrammar g) (First.sets g) (Follow.sets g (First.sets g))

namespace FileSystem

variable {fs fs' : FileSystem} {source output : String} {withListing : Bool}

def Loads (fs : FileSystem) (source : String) (g : Grammar) : Prop :=
  ∃ text, fs.readText source = .ok text ∧ Grammar.ofSource text = .ok g

theorem Loads.eq {g g' : Grammar} (h : fs.Loads source g) (h' : fs.Loads source g') : g = g' := by
  obtain ⟨text, htext, hg⟩ := h
  obtain ⟨text', htext', hg'⟩ := h'
  obtain rfl := Except.ok.inj (htext.symm.trans htext')
  exact Except.ok.inj (hg.symm.trans hg')

/-- The file system after the listing, if one is asked for. -/
def writeListing (fs : FileSystem) (output : String) (withListing : Bool) (g : Grammar) :
    Except FileError FileSystem :=
  if withListing then fs.writeText (Listing.path output) g.listing else .ok fs

theorem run_attempt {ε α : Type} (fail : ε → Failure) (act : StateM FileSystem (Except ε α)) :
    (attempt fail act).run.run fs =
      ((act.run fs).1.mapError fail, (act.run fs).2) :=
  rfl

theorem run_attempt_bind {ε α β : Type} (fail : ε → Failure)
    (act : StateM FileSystem (Except ε α)) (k : α → ExceptT Failure (StateM FileSystem) β) :
    (attempt fail act >>= k).run.run fs =
      match act.run fs with
      | (.error e, fs') => (.error (fail e), fs')
      | (.ok a, fs') => (k a).run.run fs' := by
  rw [ExceptT.run_bind, StateT.run_bind, run_attempt]
  rcases act.run fs with ⟨e | a, fs'⟩ <;> rfl

theorem run_readText (path : String) :
    (FileAccess.readText path : StateM FileSystem _).run fs = (fs.readText path, fs) :=
  rfl

theorem run_writeText (path text : String) :
    (FileAccess.writeText path text : StateM FileSystem _).run fs =
      match fs.writeText path text with
      | .ok fs' => (.ok (), fs')
      | .error e => (.error e, fs) := by
  cases h : fs.writeText path text with
  | ok fs' =>
    simp [FileAccess.writeText, h]
    rfl
  | error e =>
    simp [FileAccess.writeText, h]
    rfl

def tabulate (fs : FileSystem) (source output : String) (g : Grammar) :
    Except Failure Unit × FileSystem :=
  match ParseTable.ofGrammar g with
  | .error e => (.error (.building source e), fs)
  | .ok t =>
    match fs.writeText output (t.text g) with
    | .error e => (.error (.creating output e), fs)
    | .ok fs' => (.ok (), fs')

theorem run_tabulate (g : Grammar) :
    (do
      let t ← attempt (.building source)
        (pure (ParseTable.ofAutomaton g (.ofGrammar g) (Follow.sets g (First.sets g))))
      attempt (.creating output) (FileAccess.writeText output (t.text g)) :
        ExceptT Failure (StateM FileSystem) Unit).run.run fs = fs.tabulate source output g := by
  rw [run_attempt_bind, tabulate, ParseTable.ofGrammar]
  cases ParseTable.ofAutomaton g (.ofGrammar g) (Follow.sets g (First.sets g)) with
  | error e => rfl
  | ok t =>
    refine (run_attempt (.creating output) (FileAccess.writeText output (t.text g))).trans ?_
    dsimp only
    rw [run_writeText]
    cases fs.writeText output (t.text g) <;> rfl

theorem generate_eq : fs.generate source output withListing =
    match fs.readText source with
    | .error e => (.error (.reading source e), fs)
    | .ok text =>
      match Grammar.ofSource text with
      | .error e => (.error (.loading source e), fs)
      | .ok g =>
        match fs.writeListing output withListing g with
        | .error e => (.error (.creating (Listing.path output) e), fs)
        | .ok fs' => fs'.tabulate source output g := by
  rw [generate, SimpleLR.generate, run_attempt_bind, run_readText]
  cases fs.readText source with
  | error e => rfl
  | ok text =>
    dsimp only
    rw [run_attempt_bind]
    cases Grammar.ofSource text with
    | error e => rfl
    | ok g =>
      cases withListing with
      | false => exact run_tabulate g
      | true =>
        refine (run_attempt_bind (.creating (Listing.path output)) _ _).trans ?_
        dsimp only
        rw [run_writeText, writeListing, if_pos rfl, Grammar.listing]
        cases fs.writeText (Listing.path output)
          (Listing.all g (.ofGrammar g) (First.sets g) (Follow.sets g (First.sets g))) with
        | error e => rfl
        | ok fs' => exact run_tabulate g

variable {result : Except Failure Unit}

theorem tabulate_cases {g : Grammar} (h : fs.tabulate source output g = (result, fs')) :
    (∃ e, result = .error e ∧ fs' = fs) ∨
      result = .ok () ∧ ∃ t, ParseTable.ofGrammar g = .ok t ∧
        fs.writeText output (t.text g) = .ok fs' := by
  unfold tabulate at h
  split at h
  · obtain ⟨rfl, rfl⟩ := Prod.mk.inj h
    exact .inl ⟨_, rfl, rfl⟩
  · rename_i t ht
    split at h
    · obtain ⟨rfl, rfl⟩ := Prod.mk.inj h
      exact .inl ⟨_, rfl, rfl⟩
    · rename_i fs'' hfs
      obtain ⟨rfl, rfl⟩ := Prod.mk.inj h
      exact .inr ⟨rfl, t, ht, hfs⟩

theorem writeListing_cases {g : Grammar} (h : fs.writeListing output withListing g = .ok fs') :
    (withListing = false ∧ fs' = fs) ∨
      withListing = true ∧ ∃ l, fs.locateNew (Listing.path output) = .ok l ∧
        fs.Writes l g.listing fs' := by
  cases withListing with
  | false => exact .inl ⟨rfl, (Except.ok.inj h).symm⟩
  | true => exact .inr ⟨rfl, writes_of_writeText h⟩

/-- The run fails with nothing changed and no listing possible, or gets past the listing. -/
theorem generate_cases (h : fs.generate source output withListing = (result, fs')) :
    (∃ e, result = .error e ∧ (∀ path cause, e ≠ .building path cause) ∧ fs' = fs ∧
        (withListing = true → ∀ g l, fs.Loads source g →
          fs.locateNew (Listing.path output) ≠ .ok l)) ∨
      ∃ g fs₁, fs.Loads source g ∧ fs.writeListing output withListing g = .ok fs₁ ∧
        fs₁.tabulate source output g = (result, fs') := by
  rw [generate_eq] at h
  split at h
  · rename_i e hread
    obtain ⟨rfl, rfl⟩ := Prod.mk.inj h
    refine .inl ⟨_, rfl, nofun, rfl, fun _ g l hg _ => ?_⟩
    obtain ⟨text, htext, -⟩ := hg
    cases hread.symm.trans htext
  · rename_i text hread
    split at h
    · rename_i e hload
      obtain ⟨rfl, rfl⟩ := Prod.mk.inj h
      refine .inl ⟨_, rfl, nofun, rfl, fun _ g l hg _ => ?_⟩
      obtain ⟨text', htext', hg⟩ := hg
      obtain rfl := Except.ok.inj (hread.symm.trans htext')
      cases hload.symm.trans hg
    · rename_i g hload
      split at h
      · rename_i e hlisting
        obtain ⟨rfl, rfl⟩ := Prod.mk.inj h
        refine .inl ⟨_, rfl, nofun, rfl, ?_⟩
        rintro rfl g' l - hl
        obtain ⟨fs'', hfs⟩ := exists_writeText hl g.listing
        cases hlisting.symm.trans hfs
      · rename_i fs₁ hlisting
        exact .inr ⟨g, fs₁, ⟨text, hread, hload⟩, hlisting, h⟩

theorem listing_ne_output {l : Location} (h : fs.locate output = .ok l) :
    fs.locate (Listing.path output) ≠ .ok l :=
  fun h' => locate_append_ne (by decide) (by decide) h h' rfl

/-- A failure leaves the file system as it was, apart from the complete listing of the grammar if
one is asked for; a listing that can be written is there even if a later step fails. A success puts
the table of the grammar at `output` and the listing beside it, and changes nothing else. -/
theorem generate_effect (h : fs.generate source output withListing = (result, fs')) :
    (∀ path l, fs'.locate path = .ok l ↔ fs.locate path = .ok l) ∧
      (∀ g l, withListing = true → fs.Loads source g →
        fs.locateNew (Listing.path output) = .ok l →
          fs'.node? l = some (.file g.listing.toUTF8)) ∧
      (∀ e, result = .error e →
        (fs' = fs ∧ (withListing = true → ∀ path cause, e ≠ .building path cause)) ∨
          withListing = true ∧ ∃ g l, fs.Loads source g ∧
            fs.locate (Listing.path output) = .ok l ∧ fs.Writes l g.listing fs') ∧
      (result = .ok () → ∃ g t l, fs.Loads source g ∧ ParseTable.ofGrammar g = .ok t ∧
        fs.locate output = .ok l ∧ fs'.node? l = some (.file (t.text g).toUTF8) ∧
          fs.locate (Listing.path output) ≠ .ok l ∧
          (withListing = true → ∃ l', fs.locate (Listing.path output) = .ok l' ∧
            fs'.node? l' = some (.file g.listing.toUTF8)) ∧
          ∀ l', l' ≠ l → (withListing = true → fs.locate (Listing.path output) ≠ .ok l') →
            fs'.node? l' = fs.node? l') := by
  rcases generate_cases h with ⟨e, rfl, he, rfl, hnone⟩ | ⟨g, fs₁, hg, hlisting, htable⟩
  · refine ⟨fun _ _ => .rfl, fun g l hw hg hl => absurd hl (hnone hw g l hg), ?_, nofun⟩
    rintro _ ⟨⟩
    exact .inl ⟨rfl, fun _ => he⟩
  rcases writeListing_cases hlisting with ⟨rfl, rfl⟩ | ⟨rfl, l₁, hl₁, hwrites₁⟩
  · rcases tabulate_cases htable with ⟨e, rfl, rfl⟩ | ⟨rfl, t, ht, hwrite⟩
    · exact ⟨fun _ _ => .rfl, nofun, fun _ _ => .inl ⟨rfl, nofun⟩, nofun⟩
    · obtain ⟨l, hl, hwrites⟩ := writes_of_writeText hwrite
      have hlocate := (locate_of_locateNew hl).1
      refine ⟨fun _ _ => hwrites.directories.locate_eq_ok_iff, nofun, nofun, fun _ => ?_⟩
      exact ⟨g, t, l, hg, ht, hlocate, hwrites.file, listing_ne_output hlocate, nofun,
        fun l' hne _ => hwrites.others l' hne⟩
  · have hlocate₁ := (locate_of_locateNew hl₁).1
    have heq {g' : Grammar} {l' : Location} (hg' : fs.Loads source g')
        (hl' : fs.locateNew (Listing.path output) = .ok l') : g = g' ∧ l₁ = l' :=
      ⟨hg.eq hg', Except.ok.inj (hl₁.symm.trans hl')⟩
    rcases tabulate_cases htable with ⟨e, rfl, rfl⟩ | ⟨rfl, t, ht, hwrite⟩
    · refine ⟨fun _ _ => hwrites₁.directories.locate_eq_ok_iff, ?_, ?_, nofun⟩
      · rintro g' l' - hg' hl'
        obtain ⟨rfl, rfl⟩ := heq hg' hl'
        exact hwrites₁.file
      · exact fun _ _ => .inr ⟨rfl, g, l₁, hg, hlocate₁, hwrites₁⟩
    · obtain ⟨l, hl, hwrites⟩ := writes_of_writeText hwrite
      have hlocate := (locate_of_locateNew (hwrites₁.directories.locateNew_eq_ok_iff.1 hl)).1
      have hnot := listing_ne_output hlocate
      have hne : l₁ ≠ l := fun heq => hnot (heq ▸ hlocate₁)
      have hfile₁ : fs'.node? l₁ = some (.file g.listing.toUTF8) :=
        (hwrites.others l₁ hne).trans hwrites₁.file
      refine ⟨?_, ?_, nofun, fun _ => ⟨g, t, l, hg, ht, hlocate, hwrites.file, hnot, ?_, ?_⟩⟩
      · intro path l'
        rw [hwrites.directories.locate_eq_ok_iff, hwrites₁.directories.locate_eq_ok_iff]
      · rintro g' l' - hg' hl'
        obtain ⟨rfl, rfl⟩ := heq hg' hl'
        exact hfile₁
      · exact fun _ => ⟨l₁, hlocate₁, hfile₁⟩
      · intro l' hne' hlisting
        have hne₁ : l' ≠ l₁ := by
          rintro rfl
          exact hlisting rfl hlocate₁
        rw [hwrites.others l' hne', hwrites₁.others l' hne₁]

def ofDefinition (text : String) : FileSystem :=
  ((ofWorkingDirectory ["w"]).setNode ["w", "g"] (.file text.toUTF8)).setNode ["w", "t"]
    (.file "old".toUTF8)

/-- An ambiguous grammar gets a listing and keeps the table from before, and a grammar with a table
gets both. -/
theorem generate_ambiguous_and_linear :
    (∃ g cause fs', (ofDefinition "S -> S S\nS -> a").Loads "g" g ∧
      (ofDefinition "S -> S S\nS -> a").generate "g" "t" true =
        (.error (.building "g" cause), fs') ∧
        fs'.node? ["w", "t"] = some (.file "old".toUTF8) ∧
        fs'.node? ["w", "t.lst"] = some (.file g.listing.toUTF8)) ∧
    ∃ g t fs', (ofDefinition "S -> a S\nS -> ε").Loads "g" g ∧
      (ofDefinition "S -> a S\nS -> ε").generate "g" "t" true = (.ok (), fs') ∧
        ParseTable.ofGrammar g = .ok t ∧
        fs'.node? ["w", "t"] = some (.file (t.text g).toUTF8) ∧
        fs'.node? ["w", "t.lst"] = some (.file g.listing.toUTF8) := by
  constructor
  · obtain ⟨e, he, hcause⟩ := exists_error_of_any
      (r := ((ofDefinition "S -> S S\nS -> a").generate "g" "t" true).1)
      (p := fun | .building path _ => path = "g" | _ => false) (by decide +kernel)
    obtain ⟨path, cause, rfl, rfl⟩ : ∃ path cause, e = .building path cause ∧ path = "g" := by
      cases e with
      | building path cause => exact ⟨path, cause, rfl, of_decide_eq_true hcause⟩
      | _ => cases hcause
    obtain ⟨fs', hrun⟩ : ∃ fs', (ofDefinition "S -> S S\nS -> a").generate "g" "t" true =
        (.error (.building "g" cause), fs') := ⟨_, Prod.ext he rfl⟩
    obtain ⟨-, -, hfail, -⟩ := generate_effect hrun
    rcases hfail _ rfl with ⟨-, hnot⟩ | ⟨-, g, l, hg, hl, hwrites⟩
    · exact absurd rfl (hnot rfl "g" cause)
    · have hlocate : (ofDefinition "S -> S S\nS -> a").locate (Listing.path "t") =
        .ok ["w", "t.lst"] := by rfl
      obtain rfl := Except.ok.inj (hl.symm.trans hlocate)
      exact ⟨g, cause, fs', hg, hrun, hwrites.others ["w", "t"] (by decide), hwrites.file⟩
  · obtain ⟨_, hok, -⟩ := exists_ok_of_any
      (r := ((ofDefinition "S -> a S\nS -> ε").generate "g" "t" true).1)
      (p := fun _ => true) (by decide +kernel)
    obtain ⟨fs', hrun⟩ : ∃ fs', (ofDefinition "S -> a S\nS -> ε").generate "g" "t" true =
        (.ok (), fs') := ⟨_, Prod.ext hok rfl⟩
    obtain ⟨-, -, -, hdone⟩ := generate_effect hrun
    obtain ⟨g, t, l, hg, ht, hl, hfile, -, hlisting, -⟩ := hdone rfl
    obtain ⟨l', hl', hfile'⟩ := hlisting rfl
    have hlocate : (ofDefinition "S -> a S\nS -> ε").locate "t" = .ok ["w", "t"] := by rfl
    have hlocate' : (ofDefinition "S -> a S\nS -> ε").locate (Listing.path "t") =
      .ok ["w", "t.lst"] := by rfl
    obtain rfl := Except.ok.inj (hl.symm.trans hlocate)
    obtain rfl := Except.ok.inj (hl'.symm.trans hlocate')
    exact ⟨g, t, fs', hg, hrun, ht, hfile, hfile'⟩

end FileSystem

end SimpleLR
