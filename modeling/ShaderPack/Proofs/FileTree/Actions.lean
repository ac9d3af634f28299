import ShaderPack.Proofs.FileTree.Paths

namespace ShaderPack

/-!
# File trees — what an action does

Each action has one lemma that says all of what it does when it succeeds, in terms of the
places that its paths name and of what stands there (`perform_create_eq_ok` and the like).
None of them makes or removes a directory, so `Changes t u paths` describes what any number
of actions did: `u` is `t` but for the files that the paths name, and names are the same in
both trees (`Changes.names`).

* `changes_replay` — a list of actions changes nothing but the files of its paths;
* `not_isFile_remove`, `isFile_of_remove` — a file that is removed, or cannot be removed, is
  not there afterwards, and nothing else becomes a file;
* `Removed.remove` — removals empty places of files that their paths name, and no others.
-/

namespace FileTree

variable {t u v : FileTree} {path : String} {place : Place}

/-! ### Files -/

/-- The path leads to a file. -/
def IsFile (t : FileTree) (path : String) : Prop := ∃ bytes, t.read path = .ok bytes

theorem content_eq_ok {bytes : Bytes} :
    t.content place = .ok bytes ↔ t.node? place = some (.file bytes) := by
  unfold content
  cases t.node? place with
  | none => simp
  | some node => cases node <;> simp

theorem file_eq_ok {bytes : Bytes} :
    t.file path = .ok (place, bytes) ↔
      t.Names path place ∧ t.node? place = some (.file bytes) := by
  rw [file, sequence_eq_ok]
  constructor
  · intro h
    obtain ⟨place', hl, h⟩ := h
    obtain ⟨bytes', hc, h⟩ := sequence_eq_ok.mp h
    split at h
    · cases h
    · next hslash =>
      obtain ⟨rfl, rfl⟩ : place' = place ∧ bytes' = bytes := by simpa using Except.ok.inj h
      exact ⟨⟨hl, by simpa using hslash⟩, content_eq_ok.mp hc⟩
  · intro h
    obtain ⟨⟨hl, hslash⟩, hnode⟩ := h
    refine ⟨place, hl, sequence_eq_ok.mpr ⟨bytes, content_eq_ok.mpr hnode, ?_⟩⟩
    rw [hslash, if_neg Bool.false_ne_true]
    rfl

theorem read_eq_ok {bytes : Bytes} :
    t.read path = .ok bytes ↔
      ∃ place, t.Names path place ∧ t.node? place = some (.file bytes) := by
  simp only [← file_eq_ok]
  rw [read]
  cases t.file path with
  | error e =>
    constructor
    · intro h
      cases h
    · intro h
      obtain ⟨_, h⟩ := h
      cases h
  | ok found =>
    obtain ⟨place, bytes'⟩ := found
    constructor
    · rintro ⟨⟩
      exact ⟨place, rfl⟩
    · intro h
      obtain ⟨_, ⟨⟩⟩ := h
      rfl

/-! ### Single actions -/

theorem ne_nil_of_node? (h : t.node? place ≠ some .directory) : place ≠ [] := by
  rintro rfl
  exact h t.node?_nil

theorem ne_directory_of_file {bytes : Bytes} (h : t.node? place = some (.file bytes)) :
    t.node? place ≠ some .directory := by
  simp [h]

theorem perform_create_eq_ok :
    t.perform (.create path) = .ok u ↔
      ∃ place, t.Names path place ∧ t.node? place ≠ some .directory ∧
        u = t.set place (.file []) := by
  rw [perform, sequence_eq_ok]
  constructor
  · intro h
    obtain ⟨place, hl, h⟩ := h
    split at h
    · cases h
    · next hbad =>
      rw [not_or] at hbad
      exact ⟨place, ⟨hl, by simpa using hbad.1⟩, hbad.2, (Except.ok.inj h).symm⟩
  · intro h
    obtain ⟨place, ⟨hl, hslash⟩, hnode, rfl⟩ := h
    refine ⟨place, hl, ?_⟩
    rw [if_neg (not_or.mpr ⟨by simpa using hslash, hnode⟩)]
    rfl

theorem perform_append_eq_ok {bytes : Bytes} :
    t.perform (.append path bytes) = .ok u ↔
      ∃ place before, t.Names path place ∧ t.node? place = some (.file before) ∧
        u = t.set place (.file (before ++ bytes)) := by
  rw [perform, sequence_eq_ok, Prod.exists]
  constructor
  · intro h
    obtain ⟨place, before, hf, h⟩ := h
    obtain ⟨hn, hnode⟩ := file_eq_ok.mp hf
    exact ⟨place, before, hn, hnode, (Except.ok.inj h).symm⟩
  · intro h
    obtain ⟨place, before, hn, hnode, rfl⟩ := h
    exact ⟨place, before, file_eq_ok.mpr ⟨hn, hnode⟩, rfl⟩

theorem perform_sync_eq_ok :
    t.perform (.sync path) = .ok u ↔ t.IsFile path ∧ u = t := by
  rw [perform, sequence_eq_ok, Prod.exists, IsFile]
  simp only [read_eq_ok, file_eq_ok]
  constructor
  · intro h
    obtain ⟨place, bytes, hf, h⟩ := h
    exact ⟨⟨bytes, place, hf⟩, (Except.ok.inj h).symm⟩
  · intro h
    obtain ⟨⟨bytes, place, hf⟩, rfl⟩ := h
    exact ⟨place, bytes, hf, rfl⟩

theorem perform_rename_eq_ok {old new : String} :
    t.perform (.rename old new) = .ok u ↔
      ∃ source bytes target, t.Names old source ∧ t.node? source = some (.file bytes) ∧
        t.Names new target ∧ t.node? target ≠ some .directory ∧
        u = (t.erase source).set target (.file bytes) := by
  rw [perform, sequence_eq_ok, Prod.exists]
  constructor
  · intro h
    obtain ⟨source, bytes, hf, h⟩ := h
    obtain ⟨hn, hnode⟩ := file_eq_ok.mp hf
    obtain ⟨target, hl, h⟩ := sequence_eq_ok.mp h
    split at h
    · cases h
    · next hslash =>
      split at h
      · cases h
      · next hdir =>
        exact ⟨source, bytes, target, hn, hnode, ⟨hl, by simpa using hslash⟩, hdir,
          (Except.ok.inj h).symm⟩
  · intro h
    obtain ⟨source, bytes, target, hn, hnode, ⟨hl, hslash⟩, hdir, rfl⟩ := h
    refine ⟨source, bytes, file_eq_ok.mpr ⟨hn, hnode⟩, sequence_eq_ok.mpr ⟨target, hl, ?_⟩⟩
    rw [hslash, if_neg Bool.false_ne_true, if_neg hdir]
    rfl

theorem perform_remove_eq_ok :
    t.perform (.remove path) = .ok u ↔
      ∃ place bytes, t.Names path place ∧ t.node? place = some (.file bytes) ∧
        u = t.erase place := by
  rw [perform, sequence_eq_ok, Prod.exists]
  constructor
  · intro h
    obtain ⟨place, bytes, hf, h⟩ := h
    obtain ⟨hn, hnode⟩ := file_eq_ok.mp hf
    exact ⟨place, bytes, hn, hnode, (Except.ok.inj h).symm⟩
  · intro h
    obtain ⟨place, bytes, hn, hnode, rfl⟩ := h
    exact ⟨place, bytes, file_eq_ok.mpr ⟨hn, hnode⟩, rfl⟩

end FileTree

/-! ### Changes -/

/-- The paths whose files an action can change. -/
def Action.paths : Action → List String
  | .create path => [path]
  | .append path _ => [path]
  | .sync _ => []
  | .rename old new => [old, new]
  | .remove path => [path]

/-- The paths that an action names. -/
def Action.named : Action → List String
  | .sync path => [path]
  | action => action.paths

/-- The paths whose files an action gives content. -/
def Action.written : Action → List String
  | .create path => [path]
  | .append path _ => [path]
  | .rename _ new => [new]
  | .sync _ | .remove _ => []

theorem Action.paths_subset (action : Action) : action.paths ⊆ action.named := by
  cases action <;> simp [paths, named]

theorem Action.written_subset (action : Action) : action.written ⊆ action.named := by
  cases action <;> simp [paths, named, written]

namespace FileTree

variable {t u v : FileTree} {path : String} {place : Place} {paths others : List String}

/-- `u` has the directories of `t`, and is `t` but for the files that the paths name. -/
structure Changes (t u : FileTree) (paths : List String) : Prop where
  directories : ∀ place, u.node? place = some .directory ↔ t.node? place = some .directory
  elsewhere : ∀ place, (∀ path ∈ paths, ¬t.Names path place) → u.node? place = t.node? place

/-- Changes leave all names as they are. -/
theorem Changes.names (h : t.Changes u paths) : u.Names path place ↔ t.Names path place :=
  ⟨Names.of_directories fun place => (h.directories place).mp,
    Names.of_directories fun place => (h.directories place).mpr⟩

theorem Changes.refl (t : FileTree) (paths : List String) : t.Changes t paths :=
  ⟨fun _ => Iff.rfl, fun _ _ => rfl⟩

/-- Changes one after the other. -/
theorem Changes.trans (h : t.Changes u paths) (h' : u.Changes v others) :
    t.Changes v (paths ++ others) := by
  refine ⟨fun place => (h'.directories place).trans (h.directories place), fun place hn => ?_⟩
  rw [List.forall_mem_append] at hn
  rw [h'.elsewhere place fun path hpath => mt h.names.mp (hn.2 path hpath),
    h.elsewhere place hn.1]

theorem Changes.mono (h : t.Changes u paths) (hsub : ∀ path ∈ paths, path ∈ others) :
    t.Changes u others :=
  ⟨h.directories, fun place hn => h.elsewhere place fun path hpath => hn path (hsub path hpath)⟩

/-- A single place that held no directory and holds none now. -/
theorem changes_of_node? {after : Option Node} (hn : t.Names path place)
    (hbefore : t.node? place ≠ some .directory) (hafter : after ≠ some .directory)
    (h : ∀ other, u.node? other = if other = place then after else t.node? other) :
    t.Changes u [path] := by
  constructor
  · intro other
    rw [h other]
    by_cases hother : other = place
    · rw [if_pos hother, hother]
      exact iff_of_false hafter hbefore
    · rw [if_neg hother]
  · intro other hother
    -- the place itself is named by the path, so `other` is a different one
    have hne : other ≠ place := fun heq =>
      hother path (List.mem_singleton_self path) (heq ▸ hn)
    rw [h other, if_neg hne]

/-- A file that is written at a place that holds no directory. -/
theorem changes_set (hn : t.Names path place) (hnode : t.node? place ≠ some .directory)
    (bytes : Bytes) : t.Changes (t.set place (.file bytes)) [path] :=
  changes_of_node? hn hnode (by simp) (t.node?_set (ne_nil_of_node? hnode) _)

/-- A file that is erased. -/
theorem changes_erase (hn : t.Names path place) (hnode : t.node? place ≠ some .directory) :
    t.Changes (t.erase place) [path] :=
  changes_of_node? hn hnode (by simp) (t.node?_erase (ne_nil_of_node? hnode))

/-- **An action changes nothing but the files of its paths.** -/
theorem changes_of_perform {action : Action} (h : t.perform action = .ok u) :
    t.Changes u action.paths := by
  cases action with
  | create path =>
    obtain ⟨place, hn, hnode, rfl⟩ := perform_create_eq_ok.mp h
    exact changes_set hn hnode []
  | append path bytes =>
    obtain ⟨place, before, hn, hnode, rfl⟩ := perform_append_eq_ok.mp h
    exact changes_set hn (ne_directory_of_file hnode) _
  | sync path =>
    obtain ⟨-, rfl⟩ := perform_sync_eq_ok.mp h
    exact Changes.refl u []
  | rename old new =>
    obtain ⟨source, bytes, target, hn, hnode, hn', hdir, rfl⟩ := perform_rename_eq_ok.mp h
    -- the target is free in the tree that the source has left
    have herase := changes_erase hn (ne_directory_of_file hnode)
    have hset : (t.erase source).Changes _ [new] :=
      changes_set (herase.names.mpr hn') (mt (herase.directories target).mp hdir) bytes
    exact herase.trans hset
  | remove path =>
    obtain ⟨place, bytes, hn, hnode, rfl⟩ := perform_remove_eq_ok.mp h
    exact changes_erase hn (ne_directory_of_file hnode)

theorem changes_performOrKeep (t : FileTree) (action : Action) :
    t.Changes (t.performOrKeep action) action.paths := by
  unfold performOrKeep
  split
  · next u h => exact changes_of_perform h
  · exact Changes.refl t _

/-- A list of actions changes nothing but the files of their paths. -/
theorem changes_replay (t : FileTree) (actions : List Action) :
    t.Changes (t.replay actions) (actions.flatMap Action.paths) := by
  -- the first action is followed by the rest in the tree that it leaves
  induction actions generalizing t with
  | nil => exact Changes.refl t _
  | cons action rest ih =>
    rw [replay, List.foldl_cons, List.flatMap_cons]
    exact (changes_performOrKeep t action).trans (ih _)

/-! ### Removing -/

theorem isFile_iff :
    t.IsFile path ↔ ∃ place bytes, t.Names path place ∧ t.node? place = some (.file bytes) := by
  simp only [IsFile, read_eq_ok]
  exact exists_comm

/-- A file that stands after a removal stood before it, and elsewhere. -/
theorem file_of_remove {other : String} {bytes : Bytes}
    (h : (t.performOrKeep (.remove other)).node? place = some (.file bytes)) :
    ¬t.Names other place ∧ t.node? place = some (.file bytes) := by
  unfold performOrKeep at h
  split at h
  · next u hremoved =>
    obtain ⟨removed, _, hn, hnode, rfl⟩ := perform_remove_eq_ok.mp hremoved
    rw [t.node?_erase (ne_nil_of_node? (ne_directory_of_file hnode))] at h
    split at h
    · cases h
    · next hne => exact ⟨fun hn' => hne (hn'.unique hn), h⟩
  · next e hkept =>
    -- the removal would not have failed if the path named this file
    refine ⟨fun hn => ?_, h⟩
    have hok := perform_remove_eq_ok.mpr ⟨place, bytes, hn, h, rfl⟩
    rw [hkept] at hok
    cases hok

/-- A file that is removed, or cannot be removed, is not there afterwards. -/
theorem not_isFile_remove (t : FileTree) (path : String) :
    ¬(t.performOrKeep (.remove path)).IsFile path := by
  intro hfile
  obtain ⟨place, bytes, hn, hnode⟩ := isFile_iff.mp hfile
  have hn' := (changes_performOrKeep t (.remove path)).names.mp hn
  exact (file_of_remove hnode).1 hn'

/-- Nothing becomes a file when a file is removed. -/
theorem isFile_of_remove {other : String} (h : (t.performOrKeep (.remove other)).IsFile path) :
    t.IsFile path := by
  obtain ⟨place, bytes, hn, hnode⟩ := isFile_iff.mp h
  have hn' := (changes_performOrKeep t (.remove other)).names.mp hn
  exact isFile_iff.mpr ⟨place, bytes, hn', (file_of_remove hnode).2⟩

/-- `u` is `t` without some of the files that the paths name. -/
def Removed (t u : FileTree) (paths : List String) : Prop :=
  ∀ place, u.node? place = t.node? place ∨
    u.node? place = none ∧ (∃ bytes, t.node? place = some (.file bytes)) ∧
      ∃ path ∈ paths, t.Names path place

theorem Removed.refl (t : FileTree) : t.Removed t [] := fun _ => .inl rfl

/-- Removed files are no directories, so names are as they were. -/
theorem Removed.names (h : t.Removed u paths) (hn : u.Names path place) :
    t.Names path place := by
  refine Names.of_directories (fun place hdir => ?_) hn
  rcases h place with hkept | ⟨hnone, -, -⟩
  · exact hkept.symm.trans hdir
  · rw [hnone] at hdir
    cases hdir

/-- One more removal. -/
theorem Removed.remove (h : t.Removed u paths) (path : String) :
    t.Removed (u.performOrKeep (.remove path)) (paths ++ [path]) := by
  have hkept : t.Removed u (paths ++ [path]) := fun place =>
    (h place).imp_right fun ⟨hnone, hfile, named, hmem, hn⟩ =>
      ⟨hnone, hfile, named, List.mem_append_left [path] hmem, hn⟩
  unfold performOrKeep
  split
  · next v hremoved =>
    obtain ⟨removed, bytes, hn, hnode, rfl⟩ := perform_remove_eq_ok.mp hremoved
    intro place
    rw [u.node?_erase (ne_nil_of_node? (ne_directory_of_file hnode))]
    by_cases hplace : place = removed
    · -- the file that is removed now was there from the start
      subst hplace
      have hbefore : t.node? place = some (.file bytes) := by
        rcases h place with hkept | ⟨hnone, -, -⟩
        · exact hkept.symm.trans hnode
        · rw [hnone] at hnode
          cases hnode
      rw [if_pos rfl]
      exact .inr ⟨rfl, ⟨bytes, hbefore⟩, path, List.mem_append_right paths (by simp), h.names hn⟩
    · rw [if_neg hplace]
      exact hkept place
  · exact hkept

end FileTree

end ShaderPack
