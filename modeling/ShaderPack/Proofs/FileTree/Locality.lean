import ShaderPack.Proofs.FileTree.Saving

namespace ShaderPack.FileTree

/-!
# File trees — what an action depends on

Reading a path looks at the nodes on its `trail` and at no others, so a tree may be exchanged for
one that is `Alike` there.  Trails depend on directories alone, which no action on files makes or
removes; so two trees that are alike on the trails of some paths stay alike there throughout the
same actions on these paths, and each action comes to the same in both.

* `perform_alike` — a single action fails alike, or succeeds and leaves alike trees;
* `attempt_alike`, `save_alike` — so do actions one after another.
-/

variable {t u v : FileTree} {path : String} {place directory : Place} {name : String}
  {names rest paths : List String} {places : List Place}

/-! ### Trails -/

/-- The places on the way along these names, up to the first one that is not entered. -/
def way (t : FileTree) (directory : Place) : List String → List Place
  | [] => []
  | name :: names =>
    match t.enter directory name with
    | .error _ => [directory ++ [name]]
    | .ok next => next :: t.way next names

/-- The places that reading a path passes through, and the one that it comes to.  A path with the
    character that ends paths is not read at all. -/
def trail (t : FileTree) (path : String) : List Place :=
  if path.toList.contains '\x00' then [] else t.way [] (Path.steps path)

/-- Two trees have the same nodes at these places. -/
def Alike (t u : FileTree) (places : List Place) : Prop :=
  ∀ place ∈ places, u.node? place = t.node? place

theorem Alike.mono (h : t.Alike u places) {fewer : List Place} (hsub : fewer ⊆ places) :
    t.Alike u fewer :=
  fun place hplace => h place (hsub hplace)

/-- An ordinary name is looked up on the way, whether it is entered or not. -/
theorem append_mem_way (hdot : name ≠ ".") (hdots : name ≠ "..") :
    directory ++ [name] ∈ t.way directory (name :: rest) := by
  rw [way]
  cases he : t.enter directory name with
  | error e => exact List.mem_singleton_self _
  | ok next =>
    rcases enter_eq_ok.mp he with ⟨hname, -⟩ | ⟨hname, -⟩ | ⟨-, -, -, -, rfl⟩
    · exact absurd hname hdot
    · exact absurd hname hdots
    · exact List.mem_cons_self

/-- A directory is entered by what stands on the way. -/
theorem Alike.enter_eq (h : t.Alike u (t.way directory (name :: rest))) :
    u.enter directory name = t.enter directory name := by
  by_cases hdot : name = "."
  · rw [enter, enter, if_pos hdot, if_pos hdot]
  by_cases hdots : name = ".."
  · rw [enter, enter, if_neg hdot, if_neg hdot, if_pos hdots, if_pos hdots]
  rw [enter, enter, h _ (append_mem_way hdot hdots)]

/-- Directories are entered alike along a common way. -/
theorem Alike.foldlM_enter (h : t.Alike u (t.way directory (names ++ rest))) :
    names.foldlM u.enter directory = names.foldlM t.enter directory := by
  induction names generalizing directory with
  | nil => rfl
  | cons name names ih =>
    rw [List.foldlM_cons, List.foldlM_cons, h.enter_eq]
    cases he : t.enter directory name with
    | error e => rfl
    | ok next =>
      rw [List.cons_append, way, he] at h
      exact ih (h.mono (List.subset_cons_self _ _))

/-- **Where a path leads**, or why it leads nowhere, depends on its trail alone. -/
theorem Alike.locate_eq (h : t.Alike u (t.trail path)) : u.locate path = t.locate path := by
  rw [trail] at h
  rw [u.locate_eq, t.locate_eq]
  split at h
  · next hnul => rw [if_pos hnul, if_pos hnul]
  · next hnul =>
    have hdirectory : (Path.steps path).dropLast.foldlM u.enter [] =
        (Path.steps path).dropLast.foldlM t.enter [] := by
      cases hlast : (Path.steps path).getLast? with
      | none =>
        rw [List.getLast?_eq_none_iff.mp hlast]
        rfl
      | some name =>
        obtain ⟨before, hsteps⟩ := List.getLast?_eq_some_iff.mp hlast
        rw [hsteps] at h ⊢
        rw [List.dropLast_concat]
        exact h.foldlM_enter
    rw [hdirectory]

/-- The place of the last name lies on the way. -/
theorem mem_way_of_last {last : Place} (hd : names.foldlM t.enter directory = .ok last)
    (hl : FileTree.last last name = .ok place) : place ∈ t.way directory (names ++ [name]) := by
  induction names generalizing directory with
  | nil =>
    obtain rfl : directory = last := Except.ok.inj hd
    rw [List.nil_append]
    unfold FileTree.last at hl
    split at hl
    · next hdot =>
      obtain rfl : directory = place := Except.ok.inj hl
      simp [way, enter, hdot]
    · next hdot =>
      split at hl
      · next hdots =>
        obtain rfl : directory.dropLast = place := Except.ok.inj hl
        simp [way, enter, hdots]
      · next hdots =>
        split at hl
        · cases hl
        · obtain rfl : directory ++ [name] = place := Except.ok.inj hl
          exact append_mem_way hdot hdots
  | cons name' names ih =>
    rw [List.foldlM_cons, sequence_eq_ok] at hd
    obtain ⟨next, hn, hd⟩ := hd
    rw [List.cons_append, way, hn]
    exact List.mem_cons_of_mem next (ih hd)

/-- The place that a path leads to is the top, or lies on its trail. -/
theorem mem_trail_of_locate (h : t.locate path = .ok place) : place = [] ∨ place ∈ t.trail path := by
  obtain ⟨hnul, -, directory, hd, hl⟩ := locate_eq_ok.mp h
  unfold lastStep at hl
  cases hlast : (Path.steps path).getLast? with
  | none =>
    rw [hlast] at hl
    rw [List.getLast?_eq_none_iff.mp hlast] at hd
    obtain rfl : directory = place := Except.ok.inj hl
    exact .inl (Except.ok.inj hd).symm
  | some name =>
    rw [hlast] at hl
    obtain ⟨before, hsteps⟩ := List.getLast?_eq_some_iff.mp hlast
    rw [hsteps, List.dropLast_concat] at hd
    rw [trail, hnul, if_neg Bool.false_ne_true, hsteps]
    exact .inr (mem_way_of_last hd hl)

/-- Ways depend on directories alone. -/
theorem Changes.way_eq (h : t.Changes u paths) : u.way directory names = t.way directory names := by
  induction names generalizing directory with
  | nil => rfl
  | cons name names ih =>
    have henter (next : Place) : u.enter directory name = .ok next ↔
        t.enter directory name = .ok next := by
      rw [enter_eq_ok, enter_eq_ok, h.directories]
    rw [way, way]
    cases ht : t.enter directory name with
    | ok next =>
      rw [(henter next).mpr ht]
      exact congrArg (next :: ·) ih
    | error e =>
      cases hu : u.enter directory name with
      | error e' => rfl
      | ok next =>
        rw [(henter next).mp hu] at ht
        cases ht

theorem Changes.trail_eq (h : t.Changes u paths) : u.trail path = t.trail path := by
  rw [trail, trail, h.way_eq]

/-- The trails of these paths stay among these places. -/
def StaysIn (t : FileTree) (paths : List String) (places : List Place) : Prop :=
  ∀ path ∈ paths, t.trail path ⊆ places

theorem StaysIn.mono (h : t.StaysIn paths places) {fewer : List String} (hsub : fewer ⊆ paths) :
    t.StaysIn fewer places :=
  fun path hpath => h path (hsub hpath)

theorem Changes.staysIn {changed : List String} (h : t.Changes u changed) :
    u.StaysIn paths places ↔ t.StaysIn paths places := by
  simp only [StaysIn, h.trail_eq]

/-! ### Single actions -/

/-- Two tries of an action: both fail for the same reason, or both succeed and leave trees that
    are alike at these places. -/
inductive TriedAlike (places : List Place) :
    Except FileError FileTree → Except FileError FileTree → Prop
  | ok {t u : FileTree} (h : t.Alike u places) : TriedAlike places (.ok t) (.ok u)
  | error (e : FileError) : TriedAlike places (.error e) (.error e)

theorem TriedAlike.error_eq {e : FileError} {tried : Except FileError FileTree}
    (h : TriedAlike places (.error e) tried) : tried = .error e := by
  cases h
  rfl

theorem TriedAlike.ok_eq {tried : Except FileError FileTree} (h : TriedAlike places (.ok t) tried) :
    ∃ u, tried = .ok u ∧ t.Alike u places := by
  cases h with
  | ok h => exact ⟨_, rfl, h⟩

theorem Alike.set (h : t.Alike u places) (hplace : place ≠ []) (node : Node) :
    (t.set place node).Alike (u.set place node) places := by
  intro other hother
  rw [t.node?_set hplace, u.node?_set hplace, h other hother]

theorem Alike.erase (h : t.Alike u places) (hplace : place ≠ []) :
    (t.erase place).Alike (u.erase place) places := by
  intro other hother
  rw [t.node?_erase hplace, u.node?_erase hplace, h other hother]

/-- What stands where a path leads is alike. -/
theorem Alike.node?_eq (h : t.Alike u (t.trail path)) (hl : t.locate path = .ok place) :
    u.node? place = t.node? place := by
  rcases mem_trail_of_locate hl with rfl | hmem
  · rfl
  · exact h place hmem

theorem Alike.file_eq (h : t.Alike u (t.trail path)) : u.file path = t.file path := by
  rw [file, file, h.locate_eq]
  cases hl : t.locate path with
  | error e => rfl
  | ok place =>
    have hcontent : u.content place = t.content place := by
      rw [content, content, h.node?_eq hl]
    show (u.content place >>= _) = (t.content place >>= _)
    rw [hcontent]

/-- **An action depends on the trails of its paths**, and where trees are alike it leaves them
    alike. -/
theorem perform_alike {action : Action} (h : t.Alike u places)
    (hin : t.StaysIn action.named places) :
    TriedAlike places (t.perform action) (u.perform action) := by
  have htrail {path : String} (hpath : path ∈ action.named) : t.Alike u (t.trail path) :=
    h.mono (hin path hpath)
  cases action with
  | create path =>
    have hpath := htrail (List.mem_singleton_self path)
    rw [perform, perform, hpath.locate_eq]
    cases hl : t.locate path with
    | error e => exact .error e
    | ok place =>
      show TriedAlike places (if _ then _ else _) (if _ then _ else _)
      rw [hpath.node?_eq hl]
      split
      · exact .error _
      · next hbad => exact .ok (h.set (ne_nil_of_node? (not_or.mp hbad).2) _)
  | append path bytes =>
    have hpath := htrail (List.mem_singleton_self path)
    rw [perform, perform, hpath.file_eq]
    cases hf : t.file path with
    | error e => exact .error e
    | ok found =>
      have hnode := ne_directory_of_file (file_eq_ok.mp hf).2
      exact .ok (h.set (ne_nil_of_node? hnode) _)
  | sync path =>
    have hpath := htrail (List.mem_singleton_self path)
    rw [perform, perform, hpath.file_eq]
    cases hf : t.file path with
    | error e => exact .error e
    | ok found => exact .ok h
  | rename old new =>
    have hold : t.Alike u (t.trail old) := htrail List.mem_cons_self
    have hnew : t.Alike u (t.trail new) := htrail (List.mem_cons_of_mem old List.mem_cons_self)
    rw [perform, perform, hold.file_eq, hnew.locate_eq]
    cases hf : t.file old with
    | error e => exact .error e
    | ok found =>
      cases hl : t.locate new with
      | error e => exact .error e
      | ok target =>
        have hnode := ne_directory_of_file (file_eq_ok.mp hf).2
        show TriedAlike places (if _ then _ else _) (if _ then _ else _)
        rw [hnew.node?_eq hl]
        split
        · exact .error _
        · split
          · exact .error _
          · next hdir => exact .ok ((h.erase (ne_nil_of_node? hnode)).set (ne_nil_of_node? hdir) _)
  | remove path =>
    have hpath := htrail (List.mem_singleton_self path)
    rw [perform, perform, hpath.file_eq]
    cases hf : t.file path with
    | error e => exact .error e
    | ok found =>
      have hnode := ne_directory_of_file (file_eq_ok.mp hf).2
      exact .ok (h.erase (ne_nil_of_node? hnode))

theorem performOrKeep_alike {action : Action} (h : t.Alike u places)
    (hin : t.StaysIn action.named places) :
    (t.performOrKeep action).Alike (u.performOrKeep action) places := by
  have hstep := perform_alike h hin
  unfold performOrKeep
  generalize t.perform action = x at hstep ⊢
  generalize u.perform action = y at hstep ⊢
  cases hstep with
  | ok hafter => exact hafter
  | error e => exact h

/-! ### Actions one after another -/

/-- Two attempts that come to the same, in trees that are alike at these places. -/
structure AttemptedAlike (places : List Place) (a b : Attempt) : Prop where
  tree : a.tree.Alike b.tree places
  actions_eq : b.actions = a.actions
  error_eq : b.error = a.error

/-- Actions one after another depend on the trails of their paths. -/
theorem attempt_alike {actions : List Action} (h : t.Alike u places)
    (hin : ∀ action ∈ actions, t.StaysIn action.named places) :
    AttemptedAlike places (t.attempt actions) (u.attempt actions) := by
  -- each action leaves the trails as they are, so the next one finds alike trees again
  induction actions generalizing t u with
  | nil => exact ⟨h, rfl, rfl⟩
  | cons action later ih =>
    rw [List.forall_mem_cons] at hin
    have hstep := perform_alike h hin.1
    rw [attempt, attempt]
    cases ht : t.perform action with
    | error e =>
      rw [ht] at hstep
      rw [hstep.error_eq]
      exact ⟨h, rfl, rfl⟩
    | ok t' =>
      rw [ht] at hstep
      obtain ⟨u', hu, hafter⟩ := hstep.ok_eq
      rw [hu]
      have hlater := ih hafter fun action ha =>
        (changes_of_perform ht).staysIn.mpr (hin.2 action ha)
      exact ⟨hlater.tree, congrArg (action :: ·) hlater.actions_eq, hlater.error_eq⟩

/-- **A save depends on the trails of the file and its temporary sibling.** -/
theorem save_alike (split : Splitting) (bytes : Bytes) (h : t.Alike u places)
    (hin : t.StaysIn [temporary path, path] places) :
    AttemptedAlike places (t.save split path bytes) (u.save split path bytes) := by
  have hattempt : AttemptedAlike places (t.attempt (savingActions split path bytes))
      (u.attempt (savingActions split path bytes)) :=
    attempt_alike h fun action ha named hnamed => hin named (named_savingActions action ha named hnamed)
  have hchanges := (changes_replay t (t.attempt (savingActions split path bytes)).actions)
  rw [← tree_attempt] at hchanges
  unfold save
  generalize t.attempt (savingActions split path bytes) = a at hattempt hchanges ⊢
  generalize u.attempt (savingActions split path bytes) = b at hattempt ⊢
  simp only [hattempt.error_eq, hattempt.actions_eq]
  cases a.error with
  | none => exact hattempt
  | some e =>
    have hsibling : a.tree.StaysIn (Action.remove (temporary path)).named places :=
      hchanges.staysIn.mpr (List.forall_mem_singleton.mpr (hin _ List.mem_cons_self))
    exact ⟨performOrKeep_alike hattempt.tree hsibling, rfl, rfl⟩

end ShaderPack.FileTree
