import SimpleLR.FileSystem
import SimpleLR.Outcome
import SimpleLR.Proofs.Words

namespace SimpleLR

open Text

namespace FileSystem

variable {fs fs' : FileSystem} {l l' l'' : Location} {path text name : String}
  {names : List String}

theorem ne_nil_of_node?_ne (h : fs.node? l ≠ some .directory) : l ≠ [] := by
  rintro rfl
  exact h rfl

theorem node?_eq_getElem? (hl : l ≠ []) : fs.node? l = fs.nodes[l]? := by
  cases l with
  | nil => exact absurd rfl hl
  | cons name l => rfl

theorem node?_setNode_self (hl : l ≠ []) (n : Node) : (fs.setNode l n).node? l = some n := by
  rw [node?_eq_getElem? hl]
  exact Std.ExtTreeMap.getElem?_insert_self

theorem node?_setNode_of_ne (h : l' ≠ l) (n : Node) : (fs.setNode l n).node? l' = fs.node? l' := by
  cases l' with
  | nil => rfl
  | cons name l' =>
    rw [node?_eq_getElem? (List.cons_ne_nil name l'), node?_eq_getElem? (List.cons_ne_nil name l'),
      setNode, Std.ExtTreeMap.getElem?_insert, if_neg]
    intro heq
    exact h (Std.LawfulEqCmp.eq_of_compare heq).symm

theorem enter_eq_ok_iff : fs.enter l name = .ok l' ↔ fs.node? l = some .directory ∧
    (if name = "" ∨ name = "." then .ok l
      else if name = ".." then .ok l.dropLast
      else if name.utf8ByteSize > maxNameSize then .error FileError.nameTooLong
      else .ok (l ++ [name])) = Except.ok l' := by
  unfold enter
  split <;> simp_all

theorem walk_cons_eq_ok_iff :
    fs.walk l (name :: names) = .ok l' ↔ ∃ m, fs.enter l name = .ok m ∧ fs.walk m names = .ok l' := by
  rw [walk, List.foldlM_cons, bind_eq_ok_iff]
  rfl

theorem walk_append_eq_ok_iff {names' : List String} :
    fs.walk l (names ++ names') = .ok l' ↔
      ∃ m, fs.walk l names = .ok m ∧ fs.walk m names' = .ok l' := by
  rw [walk, List.foldlM_append, bind_eq_ok_iff]
  rfl

theorem walk_singleton : fs.walk l [name] = fs.enter l name := by
  rw [walk, List.foldlM_cons]
  cases fs.enter l name <;> rfl

theorem locate_eq_ok_iff : fs.locate path = .ok l ↔
    ∃ names, pathNames path = .ok names ∧ fs.walk (fs.origin names) names = .ok l :=
  bind_eq_ok_iff

theorem locateNew_eq_ok_iff : fs.locateNew path = .ok l ↔ ∃ names, pathNames path = .ok names ∧
    names.getLast? ≠ some "" ∧ fs.walk (fs.origin names) names = .ok l ∧
      fs.node? l ≠ some .directory := by
  refine bind_eq_ok_iff.trans (exists_congr fun names => and_congr_right fun _ => ?_)
  by_cases hlast : names.getLast? = some ""
  · rw [if_pos hlast]
    simp only [bind_eq_ok_iff, hlast, ne_eq, not_true_eq_false, false_and, iff_false]
    rintro ⟨_, -, h⟩
    cases h
  · rw [if_neg hlast]
    simp only [bind_eq_ok_iff, ne_eq, hlast, not_false_eq_true, true_and]
    constructor
    · rintro ⟨m, hm, h⟩
      by_cases hdir : fs.node? m = some .directory
      · rw [if_pos hdir] at h
        cases h
      · rw [if_neg hdir] at h
        obtain rfl := Except.ok.inj h
        exact ⟨hm, hdir⟩
    · rintro ⟨hm, hdir⟩
      exact ⟨l, hm, if_neg hdir⟩

theorem locate_of_locateNew (h : fs.locateNew path = .ok l) :
    fs.locate path = .ok l ∧ fs.node? l ≠ some .directory := by
  obtain ⟨names, hnames, -, hwalk, hdir⟩ := locateNew_eq_ok_iff.1 h
  exact ⟨locate_eq_ok_iff.2 ⟨names, hnames, hwalk⟩, hdir⟩

/-- Two file systems have the same directories, and paths start in the same one. -/
structure SameDirectories (fs fs' : FileSystem) : Prop where
  directory_iff : ∀ l, fs'.node? l = some .directory ↔ fs.node? l = some .directory
  workingDirectory : fs'.workingDirectory = fs.workingDirectory

namespace SameDirectories

variable (h : SameDirectories fs fs')

include h

theorem enter_eq_ok_iff : fs'.enter l name = .ok l' ↔ fs.enter l name = .ok l' := by
  rw [FileSystem.enter_eq_ok_iff, FileSystem.enter_eq_ok_iff, h.directory_iff]

theorem walk_eq_ok_iff : fs'.walk l names = .ok l' ↔ fs.walk l names = .ok l' := by
  induction names generalizing l with
  | nil => rfl
  | cons name names ih => simp only [walk_cons_eq_ok_iff, h.enter_eq_ok_iff, ih]

theorem locate_eq_ok_iff : fs'.locate path = .ok l ↔ fs.locate path = .ok l := by
  simp only [FileSystem.locate_eq_ok_iff, origin, h.workingDirectory, h.walk_eq_ok_iff]

theorem locateNew_eq_ok_iff : fs'.locateNew path = .ok l ↔ fs.locateNew path = .ok l := by
  simp only [FileSystem.locateNew_eq_ok_iff, origin, h.workingDirectory, h.walk_eq_ok_iff, ne_eq,
    h.directory_iff]

end SameDirectories

/-- A file with this text is at `l` in `fs'`, and all else is as in `fs`. -/
structure Writes (fs : FileSystem) (l : Location) (text : String) (fs' : FileSystem) : Prop where
  file : fs'.node? l = some (.file text.toUTF8)
  others : ∀ l', l' ≠ l → fs'.node? l' = fs.node? l'
  directories : SameDirectories fs fs'

theorem writes_setNode (h : fs.node? l ≠ some .directory) (text : String) :
    fs.Writes l text (fs.setNode l (.file text.toUTF8)) := by
  have hl := ne_nil_of_node?_ne h
  refine ⟨node?_setNode_self hl _, fun l' hne => node?_setNode_of_ne hne _, ?_, rfl⟩
  intro l'
  by_cases heq : l' = l
  · subst heq
    rw [node?_setNode_self hl]
    exact ⟨nofun, fun hdir => absurd hdir h⟩
  · rw [node?_setNode_of_ne heq]

theorem writes_of_writeText (h : fs.writeText path text = .ok fs') :
    ∃ l, fs.locateNew path = .ok l ∧ fs.Writes l text fs' := by
  obtain ⟨l, hl, h⟩ := bind_eq_ok_iff.1 h
  obtain rfl := Except.ok.inj h
  exact ⟨l, hl, writes_setNode (locate_of_locateNew hl).2 text⟩

theorem exists_writeText (h : fs.locateNew path = .ok l) (text : String) :
    ∃ fs', fs.writeText path text = .ok fs' :=
  ⟨fs.setNode l (.file text.toUTF8), bind_eq_ok_iff.2 ⟨l, h, rfl⟩⟩

theorem pathNames_eq_ok_iff : pathNames path = .ok names ↔ '\x00' ∉ path.toList ∧ path ≠ "" ∧
    path.utf8ByteSize ≤ maxPathSize ∧
      (path.toList.splitOn '/').map String.ofList = names := by
  rw [pathNames]
  grind

/-- A suffix without a slash goes to the last name of a path. -/
theorem exists_pathNames_append {suffix : String} {names' : List String}
    (hslash : '/' ∉ suffix.toList) (h : pathNames path = .ok names)
    (h' : pathNames (path ++ suffix) = .ok names') :
    ∃ before name, names = before ++ [name] ∧ names' = before ++ [name ++ suffix] ∧
      ∀ fs : FileSystem, fs.origin names' = fs.origin names := by
  obtain ⟨-, hne, -, rfl⟩ := pathNames_eq_ok_iff.1 h
  obtain ⟨-, -, -, rfl⟩ := pathNames_eq_ok_iff.1 h'
  obtain ⟨parts, part, hparts, hparts'⟩ := exists_splitOn_append (s := path.toList) hslash
  rw [String.toList_append, hparts', hparts]
  refine ⟨parts.map String.ofList, String.ofList part, ?_, ?_, ?_⟩
  · rw [List.map_append, List.map_singleton]
  · rw [List.map_append, List.map_singleton, String.ofList_append, String.ofList_toList]
  · intro fs
    cases parts with
    | cons p parts => rfl
    | nil =>
      -- The path is a single name, which is not empty even without the suffix.
      have hjoin : ['/'].intercalate (path.toList.splitOn '/') = path.toList :=
        List.intercalate_splitOn '/'
      have hpart : path.toList = part := by simpa [hparts] using hjoin.symm
      have hpart : part ≠ [] := fun he => hne (String.toList_eq_nil_iff.1 (hpart.trans he))
      simp [origin, hpart]

theorem enter_append_ne {suffix : String} (hsuffix : 2 < suffix.length)
    (h : fs.enter l name = .ok l') (h' : fs.enter l (name ++ suffix) = .ok l'') : l'' ≠ l' := by
  have hlength : (name ++ suffix).length = name.length + suffix.length := String.length_append ..
  have hne (short : String) (hshort : short.length ≤ 2) : name ++ suffix ≠ short := by
    rintro rfl
    omega
  have h := (enter_eq_ok_iff.1 h).2
  have h' := (enter_eq_ok_iff.1 h').2
  rw [if_neg (not_or.2 ⟨hne "" (by decide), hne "." (by decide)⟩),
    if_neg (hne ".." (by decide))] at h'
  have hlast : l'' = l ++ [name ++ suffix] := by grind
  rintro rfl
  split at h
  · obtain rfl := Except.ok.inj h
    simp at hlast
  · split at h
    · have := congrArg List.length (Except.ok.inj h)
      rw [hlast, List.length_dropLast, List.length_append, List.length_singleton] at this
      omega
    · split at h
      · cases h
      · have hname : [name] = [name ++ suffix] := List.append_cancel_left ((Except.ok.inj h).trans hlast)
        have := congrArg String.length (List.singleton_inj.1 hname)
        omega

/-- A path never leads to the same place with a suffix to its last name as without. -/
theorem locate_append_ne {suffix : String} (hslash : '/' ∉ suffix.toList)
    (hsuffix : 2 < suffix.length) (h : fs.locate path = .ok l)
    (h' : fs.locate (path ++ suffix) = .ok l') : l' ≠ l := by
  obtain ⟨names, hnames, hwalk⟩ := locate_eq_ok_iff.1 h
  obtain ⟨names', hnames', hwalk'⟩ := locate_eq_ok_iff.1 h'
  obtain ⟨before, name, rfl, rfl, horigin⟩ := exists_pathNames_append hslash hnames hnames'
  rw [horigin] at hwalk'
  obtain ⟨m, hm, hwalk⟩ := walk_append_eq_ok_iff.1 hwalk
  obtain ⟨m', hm', hwalk'⟩ := walk_append_eq_ok_iff.1 hwalk'
  obtain rfl := Except.ok.inj (hm.symm.trans hm')
  rw [walk_singleton] at hwalk hwalk'
  exact enter_append_ne hsuffix hwalk hwalk'

/-- All that is in `fs` is in `fs'` as well, and what is new there are directories. -/
structure Extends (fs fs' : FileSystem) : Prop where
  workingDirectory : fs'.workingDirectory = fs.workingDirectory
  kept : ∀ l n, fs.node? l = some n → fs'.node? l = some n
  new : ∀ l n, fs'.node? l = some n → fs.node? l = some n ∨ n = .directory

namespace Extends

theorem refl (fs : FileSystem) : fs.Extends fs :=
  ⟨rfl, fun _ _ => id, fun _ _ => .inl⟩

theorem trans {fs'' : FileSystem} (h : fs.Extends fs') (h' : fs'.Extends fs'') :
    fs.Extends fs'' := by
  refine ⟨h'.workingDirectory.trans h.workingDirectory, ?_, ?_⟩
  · intro l n hn
    exact h'.kept l n (h.kept l n hn)
  · intro l n hn
    rcases h'.new l n hn with hn | rfl
    · exact h.new l n hn
    · exact .inr rfl

theorem setNode (hl : fs.node? l = none) : fs.Extends (fs.setNode l .directory) := by
  have hnil : l ≠ [] := by
    rintro rfl
    cases hl
  refine ⟨rfl, ?_, ?_⟩
  · intro l' n hn
    have hne : l' ≠ l := by
      rintro rfl
      cases hl.symm.trans hn
    rw [node?_setNode_of_ne hne, hn]
  · intro l' n hn
    by_cases heq : l' = l
    · subst heq
      rw [node?_setNode_self hnil] at hn
      exact .inr (Option.some.inj hn).symm
    · rw [node?_setNode_of_ne heq] at hn
      exact .inl hn

theorem enter_eq_ok (h : fs.Extends fs') (he : fs.enter l name = .ok l') :
    fs'.enter l name = .ok l' := by
  rw [enter_eq_ok_iff] at he ⊢
  exact ⟨h.kept l _ he.1, he.2⟩

end Extends

section

variable {α β : Type}

theorem run_bind (x : ExceptT FileError (StateM FileSystem) α)
    (f : α → ExceptT FileError (StateM FileSystem) β) (fs : FileSystem) :
    (x >>= f).run.run fs = match x.run.run fs with
      | (.ok a, fs₁) => (f a).run.run fs₁
      | (.error e, fs₁) => (.error e, fs₁) := by
  rw [ExceptT.run_bind, StateT.run_bind]
  change (match x.run.run fs with | (a, s) => _) = _
  rcases x.run.run fs with ⟨e | a, fs₁⟩ <;> rfl

theorem run_get (fs : FileSystem) :
    (get : ExceptT FileError (StateM FileSystem) FileSystem).run.run fs = (.ok fs, fs) :=
  rfl

theorem run_lift (r : Except FileError β) (fs : FileSystem) :
    (liftM r : ExceptT FileError (StateM FileSystem) β).run.run fs = (r, fs) := by
  cases r <;> rfl

end

theorem run_enterNew (fs : FileSystem) (l : Location) (name : String) :
    (enterNew l name).run.run fs = match fs.enter l name with
      | .error e => (.error e, fs)
      | .ok l' => (.ok l', if (fs.node? l').isNone then fs.setNode l' .directory else fs) := by
  rw [enterNew, run_bind, run_get]
  dsimp only
  rw [run_bind, run_lift]
  cases fs.enter l name with
  | error e => rfl
  | ok l' =>
    dsimp only
    rw [run_bind, run_get]
    dsimp only
    split <;> rfl

theorem extends_enterNew (fs : FileSystem) (l : Location) (name : String) :
    fs.Extends ((enterNew l name).run.run fs).2 := by
  rw [run_enterNew]
  cases fs.enter l name with
  | error e => exact .refl fs
  | ok l' =>
    dsimp only
    by_cases hnone : (fs.node? l').isNone
    · rw [if_pos hnone]
      exact .setNode (Option.isNone_iff_eq_none.1 hnone)
    · rw [if_neg hnone]
      exact .refl fs

theorem enter_of_enterNew (h : ((enterNew l name).run.run fs).1 = .ok l') :
    fs.enter l name = .ok l' := by
  rw [run_enterNew] at h
  cases he : fs.enter l name with
  | error e =>
    rw [he] at h
    cases h
  | ok m =>
    rw [he] at h
    exact h

theorem extends_foldlM (fs : FileSystem) (l : Location) (names : List String) :
    fs.Extends ((names.foldlM enterNew l).run.run fs).2 := by
  induction names generalizing fs l with
  | nil => exact .refl fs
  | cons name names ih =>
    have hstep := extends_enterNew fs l name
    rw [List.foldlM_cons, run_bind]
    rcases hrun : (enterNew l name).run.run fs with ⟨e | l', fs₁⟩
    · rwa [hrun] at hstep
    · rw [hrun] at hstep
      exact hstep.trans (ih fs₁ l')

theorem walk_of_foldlM (h : ((names.foldlM enterNew l).run.run fs).1 = .ok l')
    (hext : ((names.foldlM enterNew l).run.run fs).2.Extends fs') : fs'.walk l names = .ok l' := by
  induction names generalizing fs l with
  | nil => exact h
  | cons name names ih =>
    have hstep := extends_enterNew fs l name
    rw [List.foldlM_cons, run_bind] at h hext
    rcases hrun : (enterNew l name).run.run fs with ⟨e | m, fs₁⟩
    · rw [hrun] at h
      cases h
    · have henter : fs.enter l name = .ok m := enter_of_enterNew (by rw [hrun])
      rw [hrun] at hstep h hext
      have hm := (hstep.trans ((extends_foldlM fs₁ m names).trans hext)).enter_eq_ok henter
      exact walk_cons_eq_ok_iff.2 ⟨m, hm, ih h hext⟩

/-- The names of a path are gone through in two parts, of which only the first makes directories. -/
theorem run_makeDirectories (h : pathNames path = .ok names) (fs : FileSystem) :
    ∃ made rest, made ++ rest = names ∧ (makeDirectories path).run.run fs =
      match (made.foldlM enterNew (fs.origin names)).run.run fs with
        | (.ok l, fs₁) => ((fs₁.walk l (rest ++ ["."])).map fun _ => (), fs₁)
        | (.error e, fs₁) => (.error e, fs₁) := by
  let dots := names.reverse.takeWhile fun name => name = "" ∨ name = "."
  let n := names.length - dots.length - if "." ∈ dots then 1 else 0
  refine ⟨names.take n, names.drop n, List.take_append_drop n names, ?_⟩
  rw [makeDirectories, run_bind, run_lift, h]
  dsimp only [n, dots]
  rw [run_bind, run_get]
  dsimp only
  rw [run_bind]
  split
  · rename_i l fs₁ hmade
    rw [hmade, run_bind, run_get]
    dsimp only
    rw [run_bind, run_lift]
    cases fs₁.walk l _ <;> rfl
  · rename_i hmade
    rw [hmade]

/-- Whether directories can be made or not, no file is lost and no file is made. -/
theorem extends_makeDirectories (fs : FileSystem) (path : String) :
    fs.Extends ((makeDirectories path).run.run fs).2 := by
  cases h : pathNames path with
  | error e =>
    rw [makeDirectories, run_bind, run_lift, h]
    exact .refl fs
  | ok names =>
    obtain ⟨made, rest, -, hrun⟩ := run_makeDirectories h fs
    have hmade := extends_foldlM fs (fs.origin names) made
    rw [hrun]
    split
    · rename_i hsplit
      rwa [hsplit] at hmade
    · rename_i hsplit
      rwa [hsplit] at hmade

/-- A path at which directories have been made leads to a directory. -/
theorem exists_locate_of_makeDirectories
    (h : (makeDirectories path).run.run fs = (.ok (), fs')) :
    ∃ l, fs'.locate path = .ok l ∧ fs'.node? l = some .directory := by
  cases hnames : pathNames path with
  | error e =>
    rw [makeDirectories, run_bind, run_lift, hnames] at h
    cases h
  | ok names =>
    obtain ⟨made, rest, rfl, hrun⟩ := run_makeDirectories hnames fs
    have hext := extends_makeDirectories fs path
    rw [h] at hrun hext
    split at hrun
    · rename_i l fs₁ hmade
      obtain ⟨hrest, rfl⟩ := Prod.mk.inj hrun
      obtain ⟨m, hm⟩ : ∃ m, fs'.walk l (rest ++ ["."]) = .ok m := by
        cases hwalk : fs'.walk l (rest ++ ["."]) with
        | error e =>
          rw [hwalk] at hrest
          cases hrest
        | ok m => exact ⟨m, rfl⟩
      obtain ⟨k, hk, hdot⟩ := walk_append_eq_ok_iff.1 hm
      rw [walk_singleton, enter_eq_ok_iff] at hdot
      have hstay : ((made.foldlM enterNew (fs.origin (made ++ rest))).run.run fs).2.Extends fs' := by
        rw [hmade]
        exact .refl fs'
      have hl := walk_of_foldlM (congrArg Prod.fst hmade) hstay
      have horigin : fs'.origin (made ++ rest) = fs.origin (made ++ rest) := by
        rw [origin, hext.workingDirectory, origin]
      refine ⟨k, locate_eq_ok_iff.2 ⟨made ++ rest, hnames, ?_⟩, hdot.1⟩
      rw [horigin]
      exact walk_append_eq_ok_iff.2 ⟨l, hl, hk⟩
    · cases hrun

theorem mem_names_iff :
    name ∈ fs.names ↔ (fs.node? (fs.workingDirectory ++ [name])).isSome := by
  rw [node?_eq_getElem? (List.append_ne_nil_of_right_ne_nil _ (List.cons_ne_nil _ _)),
    ← Std.ExtTreeMap.mem_iff_isSome_getElem?, ← Std.ExtTreeMap.mem_keys, FileSystem.names,
    List.mem_filterMap]
  apply Iff.intro
  · intro h
    obtain ⟨l, hl, h⟩ := h
    split at h
    · rename_i hparent
      obtain ⟨parent, rfl⟩ := List.getLast?_eq_some_iff.1 h
      rwa [← hparent, List.dropLast_concat]
    · cases h
  · intro h
    refine ⟨_, h, ?_⟩
    rw [if_pos (List.dropLast_concat ..), List.getLast?_concat]

theorem Writes.mem_names_iff (h : fs.Writes l text fs') :
    name ∈ fs'.names ↔ name ∈ fs.names ∨ fs.workingDirectory ++ [name] = l := by
  rw [FileSystem.mem_names_iff, FileSystem.mem_names_iff, h.directories.workingDirectory]
  by_cases heq : fs.workingDirectory ++ [name] = l
  · rw [heq, h.file]
    simp only [Option.isSome_some, or_true]
  · rw [h.others _ heq, or_iff_left heq]

end FileSystem

end SimpleLR
