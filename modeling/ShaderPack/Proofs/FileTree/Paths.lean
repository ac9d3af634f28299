import ShaderPack.FileTree.Action
import ShaderPack.Proofs.Sequence

namespace ShaderPack

/-!
# File trees — the place that a path names

A path is read through directories only, so two trees with the same directories read every
path alike, whatever files they hold.  No action on files makes or removes a directory, so
the place that a path names is the same throughout the work on files.

* `FileTree.Names` — the path names this place, as that of a file;
* `FileTree.Names.of_directories` — names depend on directories alone;
* `FileTree.Names.ne_of_suffix` — a file and its siblings with a suffix stand at different
  places: a suffix lengthens the last name of the path, which belongs to the file.
-/

/-! ### Pieces of a lengthened text -/

namespace Text

/-- The last piece of a text takes what is put behind the text, if the separator does not
    occur in it; it is empty only at a separator or in an empty text. -/
theorem pieces_append (x : Char) (s : List Char) :
    ∃ before last, (∀ t, x ∉ t → pieces x (s ++ t) = before ++ [last ++ t]) ∧
      (last = [] → s = [] ∨ s.getLast? = some x) := by
  induction s with
  | nil =>
    -- a text without the separator is one piece
    refine ⟨[], [], fun t ht => ?_, fun _ => .inl rfl⟩
    induction t with
    | nil => rfl
    | cons c t ih =>
      rw [List.mem_cons, not_or] at ht
      have hrest : pieces x t = [t] := ih ht.2
      rw [List.nil_append, pieces_cons, if_neg (Ne.symm ht.1), hrest]
      rfl
  | cons c s ih =>
    obtain ⟨before, last, hpieces, hlast⟩ := ih
    by_cases hc : c = x
    · refine ⟨[] :: before, last, fun t ht => ?_, fun h => .inr ?_⟩
      · rw [List.cons_append, pieces_cons, if_pos hc, hpieces t ht]
        rfl
      · rcases hlast h with rfl | hs
        · rw [hc]
          rfl
        · rw [List.getLast?_cons, hs]
          rfl
    · cases before with
      | nil =>
        refine ⟨[], c :: last, fun t ht => ?_, fun h => by cases h⟩
        rw [List.cons_append, pieces_cons, if_neg hc, hpieces t ht]
        rfl
      | cons part parts =>
        refine ⟨(c :: part) :: parts, last, fun t ht => ?_, fun h => .inr ?_⟩
        · rw [List.cons_append, pieces_cons, if_neg hc, hpieces t ht]
          rfl
        · rcases hlast h with rfl | hs
          · -- the empty text has one piece only
            have hnil := hpieces [] (by simp)
            simp at hnil
          · rw [List.getLast?_cons, hs]
            rfl

end Text

/-- The last name of a path takes what is put behind the path, if that has no slash; there
    is no such name only behind a slash or in the empty path. -/
theorem Path.steps_append (path : String) :
    ∃ (names : List String) (last : String), ∀ suffix : String, '/' ∉ suffix.toList →
      path ++ suffix ≠ "" → Path.endsInSlash (path ++ suffix) = false →
      Path.steps (path ++ suffix) = names ++ [last ++ suffix] := by
  obtain ⟨before, last, hpieces, hlast⟩ := Text.pieces_append '/' path.toList
  refine ⟨(before.filter (· ≠ [])).map .ofList, .ofList last, fun suffix hsuffix hne hslash => ?_⟩
  -- an empty piece is no name, but the last one is empty only where the path is or ends in
  -- a slash
  have hname : last ++ suffix.toList ≠ [] := by
    intro h
    obtain ⟨hl, hs⟩ := List.append_eq_nil_iff.mp h
    have hpath : (path ++ suffix).toList = path.toList := by
      rw [String.toList_append, hs, List.append_nil]
    rcases hlast hl with hp | hp
    · exact hne (String.toList_inj.mp (by rw [hpath, hp]; rfl))
    · rw [Path.endsInSlash, hpath, hp] at hslash
      simp at hslash
  have hkept : [last ++ suffix.toList].filter (· ≠ []) = [last ++ suffix.toList] :=
    List.filter_eq_self.mpr (by simpa using hname)
  rw [Path.steps, String.toList_append, hpieces _ hsuffix, List.filter_append, List.map_append,
    hkept, List.map_singleton, String.ofList_append, String.ofList_toList]

namespace FileTree

variable {t u : FileTree} {path : String} {place : Place}

/-! ### Directories -/

theorem node?_nil (t : FileTree) : t.node? [] = some .directory := rfl

/-- Every directory of `t` is a directory of `u`. -/
def DirectoriesIn (t u : FileTree) : Prop :=
  ∀ place, t.node? place = some .directory → u.node? place = some .directory

/-- A place whose whole way from the top leads through directories. -/
def Entered (t : FileTree) (directory : Place) : Prop :=
  ∀ way, way <+: directory → t.node? way = some .directory

theorem entered_nil (t : FileTree) : t.Entered [] := by
  intro way hway
  rw [List.prefix_nil.mp hway]
  exact t.node?_nil

theorem Entered.dropLast {directory : Place} (h : t.Entered directory) :
    t.Entered directory.dropLast :=
  fun way hway => h way (hway.trans (List.dropLast_prefix directory))

/-- What a directory is entered through, and where that leads to. -/
theorem enter_eq_ok {directory next : Place} {name : String} :
    t.enter directory name = .ok next ↔
      (name = "." ∧ next = directory) ∨ (name = ".." ∧ next = directory.dropLast) ∨
      (name ≠ "." ∧ name ≠ ".." ∧ Path.isTooLong name = false ∧
        t.node? (directory ++ [name]) = some .directory ∧ next = directory ++ [name]) := by
  unfold enter
  constructor
  · intro h
    split at h
    · next hdot => exact .inl ⟨hdot, (Except.ok.inj h).symm⟩
    · next hdot =>
      split at h
      · next hdots => exact .inr (.inl ⟨hdots, (Except.ok.inj h).symm⟩)
      · next hdots =>
        split at h
        · cases h
        · next hlong =>
          split at h
          · cases h
          · cases h
          · next hnode =>
            exact .inr (.inr ⟨hdot, hdots, by simpa using hlong, hnode, (Except.ok.inj h).symm⟩)
  · rintro (⟨rfl, rfl⟩ | ⟨rfl, rfl⟩ | ⟨hdot, hdots, hlong, hnode, rfl⟩)
    · rfl
    · rfl
    · simp [hdot, hdots, hlong, hnode]

theorem Entered.enter {directory next : Place} {name : String} (h : t.Entered directory)
    (he : t.enter directory name = .ok next) : t.Entered next := by
  rcases enter_eq_ok.mp he with ⟨-, rfl⟩ | ⟨-, rfl⟩ | ⟨-, -, -, hnode, rfl⟩
  · exact h
  · exact h.dropLast
  · intro way hway
    rcases List.prefix_concat_iff.mp hway with rfl | hway
    · exact hnode
    · exact h way hway

/-- All directories on a way are entered one by one. -/
theorem Entered.foldlM {directory last : Place} {names : List String} (h : t.Entered directory)
    (he : names.foldlM t.enter directory = .ok last) : t.Entered last := by
  induction names generalizing directory with
  | nil =>
    obtain rfl : directory = last := Except.ok.inj he
    exact h
  | cons name names ih =>
    rw [List.foldlM_cons, sequence_eq_ok] at he
    obtain ⟨next, hn, he⟩ := he
    exact ih (h.enter hn) he

/-! ### Names -/

/-- The path names this place as the place of a file. -/
def Names (t : FileTree) (path : String) (place : Place) : Prop :=
  t.locate path = .ok place ∧ Path.endsInSlash path = false

/-- A path names one place at most. -/
theorem Names.unique {other : Place} (h : t.Names path place) (h' : t.Names path other) :
    place = other :=
  Except.ok.inj (h.1.symm.trans h'.1)

/-- The last step on a path, from the directory before it. -/
def lastStep (path : String) (directory : Place) : Except FileError Place :=
  match (Path.steps path).getLast? with
  | none => .ok directory
  | some name => last directory name

/-- A path is read name by name: the last one is taken in the directory of those before it. -/
theorem locate_eq (t : FileTree) (path : String) : t.locate path =
    if path.toList.contains '\x00' = true then .error .nulInPath
    else if path = "" then .error .notFound
    else (Path.steps path).dropLast.foldlM t.enter [] >>= lastStep path := rfl

/-- A path that names a place can be taken apart. -/
theorem locate_eq_ok : t.locate path = .ok place ↔
    path.toList.contains '\x00' = false ∧ path ≠ "" ∧
      ∃ directory, (Path.steps path).dropLast.foldlM t.enter [] = .ok directory ∧
        lastStep path directory = .ok place := by
  rw [locate_eq]
  constructor
  · intro h
    split at h
    · cases h
    · next hnul =>
      split at h
      · cases h
      · next hempty => exact ⟨by simpa using hnul, hempty, sequence_eq_ok.mp h⟩
  · intro h
    obtain ⟨hnul, hempty, hsteps⟩ := h
    rw [hnul, if_neg Bool.false_ne_true, if_neg hempty]
    exact sequence_eq_ok.mpr hsteps

/-- What is entered in one tree is entered in every tree with the same directories. -/
theorem DirectoriesIn.foldlM {directory last : Place} {names : List String}
    (h : t.DirectoriesIn u) (he : names.foldlM t.enter directory = .ok last) :
    names.foldlM u.enter directory = .ok last := by
  induction names generalizing directory with
  | nil => exact he
  | cons name names ih =>
    rw [List.foldlM_cons, sequence_eq_ok] at he ⊢
    obtain ⟨next, hn, he⟩ := he
    refine ⟨next, ?_, ih he⟩
    rw [enter_eq_ok] at hn ⊢
    rcases hn with hdot | hdots | ⟨hdot, hdots, hlong, hnode, hnext⟩
    · exact .inl hdot
    · exact .inr (.inl hdots)
    · exact .inr (.inr ⟨hdot, hdots, hlong, h _ hnode, hnext⟩)

/-- Where a path leads depends on directories alone. -/
theorem locate_of_directories (h : t.DirectoriesIn u) (hl : t.locate path = .ok place) :
    u.locate path = .ok place := by
  obtain ⟨hnul, hempty, directory, hd, hplace⟩ := locate_eq_ok.mp hl
  exact locate_eq_ok.mpr ⟨hnul, hempty, directory, h.foldlM hd, hplace⟩

/-- Names depend on directories alone. -/
theorem Names.of_directories (h : t.DirectoriesIn u) (hn : t.Names path place) :
    u.Names path place :=
  ⟨locate_of_directories h hn.1, hn.2⟩

/-- What stands at the place of a name that is no special one. -/
theorem last_eq_ok {directory : Place} {name : String} (h : last directory name = .ok place)
    (hd : t.Entered directory) :
    t.node? place = some .directory ∨ place = directory ++ [name] := by
  unfold last at h
  split at h
  · obtain rfl : directory = place := Except.ok.inj h
    exact .inl (hd _ List.prefix_rfl)
  · split at h
    · obtain rfl : directory.dropLast = place := Except.ok.inj h
      exact .inl (hd.dropLast _ List.prefix_rfl)
    · split at h
      · cases h
      · exact .inr (Except.ok.inj h).symm

/-- **The siblings of a path** stand in one directory, and each is called by the last name of
    the path with its suffix, unless what stands there is a directory. -/
theorem exists_siblings (t : FileTree) (path : String) :
    ∃ (directory : Place) (name : String), ∀ (suffix : String) (place : Place),
      '/' ∉ suffix.toList → t.Names (path ++ suffix) place →
      t.node? place ≠ some .directory → place = directory ++ [name ++ suffix] := by
  -- all siblings are looked up in the directory that the names before the last one lead to
  obtain ⟨names, name, hsteps⟩ := Path.steps_append path
  cases hd : names.foldlM t.enter [] with
  | error e =>
    -- without that directory no sibling has a place
    refine ⟨[], name, fun suffix place hsuffix hnames hnode => ?_⟩
    obtain ⟨-, hempty, directory, hdir, -⟩ := locate_eq_ok.mp hnames.1
    rw [hsteps suffix hsuffix hempty hnames.2, List.dropLast_concat, hd] at hdir
    cases hdir
  | ok directory =>
    refine ⟨directory, name, fun suffix place hsuffix hnames hnode => ?_⟩
    obtain ⟨-, hempty, directory', hdir, hplace⟩ := locate_eq_ok.mp hnames.1
    rw [hsteps suffix hsuffix hempty hnames.2, List.dropLast_concat, hd] at hdir
    obtain rfl : directory = directory' := Except.ok.inj hdir
    rw [lastStep, hsteps suffix hsuffix hempty hnames.2, List.getLast?_concat] at hplace
    rcases last_eq_ok hplace (t.entered_nil.foldlM hd) with h | h
    · exact absurd h hnode
    · exact h

/-- Siblings with different suffixes are different files. -/
theorem Names.ne_of_suffix {suffix suffix' : String} {other : Place}
    (h : t.Names (path ++ suffix) place) (h' : t.Names (path ++ suffix') other)
    (hnode : t.node? place ≠ some .directory) (hnode' : t.node? other ≠ some .directory)
    (hs : '/' ∉ suffix.toList) (hs' : '/' ∉ suffix'.toList) (hne : suffix ≠ suffix') :
    place ≠ other := by
  obtain ⟨directory, name, hsiblings⟩ := t.exists_siblings path
  rw [hsiblings suffix place hs h hnode, hsiblings suffix' other hs' h' hnode']
  intro heq
  have hname : name ++ suffix = name ++ suffix' := by simpa using heq
  exact hne (by simpa using hname)

end FileTree

end ShaderPack
