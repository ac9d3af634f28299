import ShaderPack.Proofs.FileTree.Actions

namespace ShaderPack.FileTree

/-!
# File trees — what a path leads to

What can be seen at a path is what it `leadsTo?`: a file with its content, a directory, or
nothing.  A path `StandsApart` from others if they name other files, and then changes of those
cannot be seen at it.

* `standsApart_of_suffix` — siblings of a path with other suffixes are other files;
* `Changes.leadsTo?_eq` — changes of other files leave what a path leads to.
-/

variable {t u : FileTree} {path : String} {place : Place} {bytes : Bytes}
  {paths others : List String}

/-! ### What a path leads to -/

/-- What a path leads to; one that ends with a slash leads to directories only. -/
def leadsTo? (t : FileTree) (path : String) : Option Node :=
  match t.locate path with
  | .error _ => none
  | .ok place =>
    if Path.endsInSlash path then (t.node? place).filter (· = .directory) else t.node? place

theorem leadsTo?_eq_file :
    t.leadsTo? path = some (.file bytes) ↔
      ∃ place, t.Names path place ∧ t.node? place = some (.file bytes) := by
  unfold leadsTo? Names
  cases hl : t.locate path with
  | error e => simp
  | ok place => cases hslash : Path.endsInSlash path <;> simp

theorem leadsTo?_eq_directory :
    t.leadsTo? path = some .directory ↔
      ∃ place, t.locate path = .ok place ∧ t.node? place = some .directory := by
  unfold leadsTo?
  cases hl : t.locate path with
  | error e => simp
  | ok place => cases hslash : Path.endsInSlash path <;> simp

theorem read_eq_ok_iff : t.read path = .ok bytes ↔ t.leadsTo? path = some (.file bytes) := by
  rw [read_eq_ok, leadsTo?_eq_file]

/-! ### Other files -/

/-- The file that the path names stands elsewhere than those that the others name. -/
def StandsApart (t : FileTree) (path : String) (others : List String) : Prop :=
  ∀ place, t.Names path place → t.node? place ≠ some .directory →
    ∀ other ∈ others, ¬t.Names other place

/-- Siblings of a path with other suffixes stand elsewhere. -/
theorem standsApart_of_suffix (t : FileTree) (base suffix : String) (suffixes : List String)
    (hsuffix : '/' ∉ suffix.toList)
    (hsuffixes : ∀ other ∈ suffixes, '/' ∉ other.toList ∧ suffix ≠ other) :
    t.StandsApart (base ++ suffix) (suffixes.map (base ++ ·)) := by
  intro place hn hnode other hother hn'
  obtain ⟨suffix', hmem, rfl⟩ := List.mem_map.mp hother
  obtain ⟨hslash, hne⟩ := hsuffixes suffix' hmem
  exact hn.ne_of_suffix hn' hnode hnode hsuffix hslash hne rfl

theorem StandsApart.mono (h : t.StandsApart path others) (hsub : ∀ other ∈ paths, other ∈ others) :
    t.StandsApart path paths :=
  fun place hn hnode other hother => h place hn hnode other (hsub other hother)

/-- **Changes of other files** leave what a path leads to. -/
theorem Changes.leadsTo?_eq (h : t.Changes u others) (hapart : t.StandsApart path others) :
    u.leadsTo? path = t.leadsTo? path := by
  have hlocate (place : Place) : u.locate path = .ok place ↔ t.locate path = .ok place :=
    ⟨locate_of_directories fun place => (h.directories place).mp,
      locate_of_directories fun place => (h.directories place).mpr⟩
  have hnode {place : Place} {bytes : Bytes} (hn : t.Names path place) :
      u.node? place = some (.file bytes) ↔ t.node? place = some (.file bytes) := by
    by_cases hdir : t.node? place = some .directory
    · simp [hdir, (h.directories place).mpr hdir]
    · rw [h.elsewhere place (hapart place hn hdir)]
  ext node
  cases node with
  | directory => simp only [leadsTo?_eq_directory, hlocate, h.directories]
  | file bytes =>
    simp only [leadsTo?_eq_file, h.names]
    exact exists_congr fun place => and_congr_right hnode

theorem Changes.isFile_iff (h : t.Changes u others) (hapart : t.StandsApart path others) :
    u.IsFile path ↔ t.IsFile path := by
  simp only [IsFile, read_eq_ok_iff, h.leadsTo?_eq hapart]

/-- A removed path leads to nothing any more, unless it led to no file. -/
theorem leadsTo?_remove (t : FileTree) (path : String) :
    (t.performOrKeep (.remove path)).leadsTo? path = t.leadsTo? path ∨
      (t.performOrKeep (.remove path)).leadsTo? path = none := by
  have hchanges := changes_performOrKeep t (.remove path)
  cases hleads : (t.performOrKeep (.remove path)).leadsTo? path with
  | none => exact .inr rfl
  | some node =>
    cases node with
    | file bytes => exact absurd ⟨bytes, read_eq_ok_iff.mpr hleads⟩ (t.not_isFile_remove path)
    | directory =>
      -- directories stay, so this one was there before
      obtain ⟨place, hl, hnode⟩ := leadsTo?_eq_directory.mp hleads
      have hl := locate_of_directories (fun place => (hchanges.directories place).mp) hl
      exact .inl (leadsTo?_eq_directory.mpr
        ⟨place, hl, (hchanges.directories place).mp hnode⟩).symm

end ShaderPack.FileTree
