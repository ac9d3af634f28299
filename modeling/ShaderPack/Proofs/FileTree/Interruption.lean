import ShaderPack.Proofs.FileTree.Saving
import ShaderPack.Proofs.FileTree.Siblings

namespace ShaderPack.FileTree

/-!
# File trees — work that is cut off

A list of actions may be cut off behind any of them, so what holds `Throughout` holds of the tree
that any number of the actions lead to.

* `throughout_leadsTo?` — throughout actions on other files, a path leads to the same;
* `content_written` — a temporary sibling that was made and written to holds the pieces written
  so far, whatever stood there before;
* `throughout_save` — a save that is cut off anywhere leaves the file as it was or complete.

Actions that fail are passed over, so none of this depends on which actions succeed.
-/

variable {t u : FileTree} {path : String} {bytes before : Bytes} {others : List String}
  {split : Splitting} {P : FileTree → Prop} {actions later : List Action}

/-! ### Throughout a list of actions -/

/-- The property holds of the tree after any number of the actions. -/
def Throughout (P : FileTree → Prop) (t : FileTree) (actions : List Action) : Prop :=
  ∀ n, P (t.replay (actions.take n))

theorem replay_append (t : FileTree) (actions later : List Action) :
    t.replay (actions ++ later) = (t.replay actions).replay later :=
  List.foldl_append

theorem Throughout.last (h : t.Throughout P actions) : P (t.replay actions) := by
  have hlast := h actions.length
  rwa [List.take_length] at hlast

theorem Throughout.single {action : Action} (ht : P t) (h : P (t.performOrKeep action)) :
    t.Throughout P [action]
  | 0 => ht
  | n + 1 => by
    rw [List.take_succ_cons, List.take_nil]
    exact h

theorem Throughout.append (h : t.Throughout P actions)
    (hlater : (t.replay actions).Throughout P later) : t.Throughout P (actions ++ later) := by
  intro n
  rcases Nat.le_total n actions.length with hn | hn
  · rw [List.take_append_of_le_length hn]
    exact h n
  · rw [List.take_append, List.take_of_length_le hn, replay_append]
    exact hlater (n - actions.length)

theorem Throughout.of_prefix (h : t.Throughout P later) (hfirst : actions <+: later) :
    t.Throughout P actions := by
  intro n
  rw [List.prefix_iff_eq_take.mp hfirst, List.take_take]
  exact h _

theorem Throughout.mono {Q : FileTree → Prop} (h : t.Throughout P actions)
    (hPQ : ∀ u, P u → Q u) : t.Throughout Q actions :=
  fun n => hPQ _ (h n)

/-- What every action keeps holds throughout. -/
theorem Throughout.of_step (ht : P t)
    (hstep : ∀ action ∈ actions, ∀ u, P u → P (u.performOrKeep action)) :
    t.Throughout P actions := by
  intro n
  induction n generalizing t actions with
  | zero => exact ht
  | succ n ih =>
    cases actions with
    | nil => exact ht
    | cons action actions =>
      obtain ⟨hfirst, hrest⟩ := List.forall_mem_cons.mp hstep
      exact ih (hfirst t ht) hrest

/-- What holds throughout some actions and is kept by each later one holds throughout all. -/
theorem Throughout.append_of_step (h : t.Throughout P actions)
    (hstep : ∀ action ∈ later, ∀ u, P u → P (u.performOrKeep action)) :
    t.Throughout P (actions ++ later) :=
  h.append (.of_step h.last hstep)

/-- Throughout actions on other files, a path leads to the same. -/
theorem throughout_leadsTo? (hapart : ∀ u : FileTree, u.StandsApart path others)
    (hactions : ∀ action ∈ actions, ∀ changed ∈ action.paths, changed ∈ others) :
    t.Throughout (fun u => u.leadsTo? path = t.leadsTo? path) actions := by
  refine Throughout.of_step rfl fun action haction u hu => ?_
  have hchanges := (changes_performOrKeep u action).mono (hactions action haction)
  rw [hchanges.leadsTo?_eq (hapart u), hu]

/-! ### What a temporary sibling holds -/

/-- If the path leads to a file, it holds these bytes. -/
def HoldsAtMost (t : FileTree) (path : String) (bytes : Bytes) : Prop :=
  ∀ content, t.leadsTo? path = some (.file content) → content = bytes

/-- A file that was made is empty, and there is none if it could not be made. -/
theorem holdsAtMost_create (t : FileTree) (path : String) :
    (t.performOrKeep (.create path)).HoldsAtMost path [] := by
  intro content hcontent
  have hchanges := changes_performOrKeep t (.create path)
  obtain ⟨place, hn, hnode⟩ := leadsTo?_eq_file.mp hcontent
  have hn : t.Names path place := hchanges.names.mp hn
  have hdir : t.node? place ≠ some .directory :=
    mt (hchanges.directories place).mpr (ne_directory_of_file hnode)
  have hcreate : t.perform (.create path) = .ok (t.set place (.file [])) :=
    perform_create_eq_ok.mpr ⟨place, hn, hdir, rfl⟩
  rw [performOrKeep, hcreate, node?_set_self hdir] at hnode
  simpa using hnode.symm

/-- Bytes are put behind what a file holds, and there is no file if they cannot be. -/
theorem HoldsAtMost.append (h : t.HoldsAtMost path before) (bytes : Bytes) :
    (t.performOrKeep (.append path bytes)).HoldsAtMost path (before ++ bytes) := by
  intro content hcontent
  have hchanges := changes_performOrKeep t (.append path bytes)
  obtain ⟨place, hn, hnode⟩ := leadsTo?_eq_file.mp hcontent
  have hn : t.Names path place := hchanges.names.mp hn
  cases hperform : t.perform (.append path bytes) with
  | ok u =>
    rw [performOrKeep, hperform] at hnode
    obtain ⟨place', before', hn', hnode', rfl⟩ := perform_append_eq_ok.mp hperform
    obtain rfl := hn.unique hn'
    obtain rfl : before' = before := h before' (leadsTo?_eq_file.mpr ⟨place, hn, hnode'⟩)
    rw [node?_set_self (ne_directory_of_file hnode')] at hnode
    simpa using hnode.symm
  | error e =>
    -- with a file there, the bytes could have been put behind it
    rw [performOrKeep, hperform] at hnode
    have hok : t.perform (.append path bytes) = .ok (t.set place (.file (content ++ bytes))) :=
      perform_append_eq_ok.mpr ⟨place, content, hn, hnode, rfl⟩
    rw [hperform] at hok
    cases hok

theorem HoldsAtMost.appends (h : t.HoldsAtMost path before) (pieces : List Bytes) :
    (t.replay (pieces.map (.append path))).HoldsAtMost path (before ++ pieces.flatten) := by
  induction pieces generalizing t before with
  | nil => simpa [replay] using h
  | cons piece pieces ih =>
    rw [List.flatten_cons, ← List.append_assoc]
    exact ih (h.append piece)

theorem performOrKeep_sync (t : FileTree) (path : String) : t.performOrKeep (.sync path) = t := by
  unfold performOrKeep
  split
  · next u h => exact (perform_sync_eq_ok.mp h).2
  · rfl

/-! ### Saving -/

/-- The actions that write the temporary sibling of a path. -/
def writingActions (split : Splitting) (path : String) (bytes : Bytes) : List Action :=
  .create (temporary path) ::
    ((split.pieces bytes).map (.append (temporary path)) ++ [.sync (temporary path)])

theorem savingActions_eq (split : Splitting) (path : String) (bytes : Bytes) :
    savingActions split path bytes =
      writingActions split path bytes ++ [.rename (temporary path) path] := by
  simp [savingActions, writingActions]

theorem paths_writingActions (split : Splitting) (path : String) (bytes : Bytes) :
    ∀ action ∈ writingActions split path bytes, ∀ changed ∈ action.paths,
      changed ∈ [temporary path] := by
  intro action ha changed hc
  simp only [writingActions, List.mem_cons, List.mem_append, List.mem_map, List.not_mem_nil,
    or_false] at ha
  rcases ha with rfl | ⟨piece, -, rfl⟩ | rfl <;> simp_all [Action.paths]

/-- **A temporary sibling that was written** is complete, or there is none. -/
theorem content_written (t : FileTree) (split : Splitting) (path : String) (bytes : Bytes) :
    (t.replay (writingActions split path bytes)).HoldsAtMost (temporary path) bytes := by
  have hwritten := (holdsAtMost_create t (temporary path)).appends (split.pieces bytes)
  rw [List.nil_append, split.flatten_pieces] at hwritten
  have hreplay : t.replay (writingActions split path bytes) =
      ((t.performOrKeep (.create (temporary path))).replay
        ((split.pieces bytes).map (.append (temporary path)))).performOrKeep
          (.sync (temporary path)) := by
    rw [writingActions, ← List.cons_append, replay_append]
    rfl
  rw [hreplay, performOrKeep_sync]
  exact hwritten

theorem standsApart_temporary (t : FileTree) (path : String) :
    t.StandsApart path [temporary path] := by
  have h := t.standsApart_of_suffix path "" [".tmp"] (by decide) (by decide)
  rwa [String.append_empty] at h

/-- The path leads to what it led to in `t`, or to a file with these bytes. -/
def KeptOrSaved (t : FileTree) (path : String) (bytes : Bytes) (u : FileTree) : Prop :=
  u.leadsTo? path = t.leadsTo? path ∨ u.leadsTo? path = some (.file bytes)

/-- Moving a complete sibling leaves the file as it was or makes it complete. -/
theorem keptOrSaved_rename (h : u.HoldsAtMost (temporary path) bytes)
    (hkept : u.leadsTo? path = t.leadsTo? path) :
    t.KeptOrSaved path bytes (u.performOrKeep (.rename (temporary path) path)) := by
  unfold performOrKeep
  split
  · next v hrename =>
    right
    have hmoved := changes_of_perform hrename
    obtain ⟨source, content, target, hn, hnode, hn', hdir, rfl⟩ := perform_rename_eq_ok.mp hrename
    obtain rfl : content = bytes := h content (leadsTo?_eq_file.mpr ⟨source, hn, hnode⟩)
    have herase := changes_erase hn (ne_directory_of_file hnode)
    exact leadsTo?_eq_file.mpr ⟨target, hmoved.names.mpr hn',
      node?_set_self (mt (herase.directories target).mp hdir) _⟩
  · exact .inl hkept

/-- Removing the sibling leaves the file as it is. -/
theorem KeptOrSaved.remove (h : t.KeptOrSaved path bytes u) :
    t.KeptOrSaved path bytes (u.performOrKeep (.remove (temporary path))) := by
  have hchanges := changes_performOrKeep u (.remove (temporary path))
  have hleads := hchanges.leadsTo?_eq (u.standsApart_temporary path)
  rwa [KeptOrSaved, hleads]

/-- **A save that is cut off** leaves the file as it was or complete. -/
theorem throughout_save (t : FileTree) (split : Splitting) (path : String) (bytes : Bytes) :
    t.Throughout (t.KeptOrSaved path bytes) (t.save split path bytes).actions := by
  have hall : t.Throughout (t.KeptOrSaved path bytes) (savingActions split path bytes) := by
    -- the sibling is another file, and complete when it takes the place of the file
    have hwriting := throughout_leadsTo? (t := t) (standsApart_temporary · path)
      (paths_writingActions split path bytes)
    rw [savingActions_eq]
    exact (hwriting.mono fun _ => .inl).append
      (.single (.inl hwriting.last)
        (keptOrSaved_rename (t.content_written split path bytes) hwriting.last))
  have hattempt := hall.of_prefix (t.actions_attempt_prefix (savingActions split path bytes))
  rcases t.save_cases split path bytes with ⟨-, hsave⟩ | ⟨e, -, hsave⟩
  · rw [hsave]
    exact hattempt
  · rw [hsave]
    refine hattempt.append_of_step fun action haction u hu => ?_
    obtain rfl := List.mem_singleton.mp haction
    exact hu.remove

/-- When the last one of some actions is where they fail, it has done nothing. -/
theorem tree_attempt_concat {action : Action} {e : FileError}
    (h : (t.attempt (actions ++ [action])).error = some e) :
    (t.attempt (actions ++ [action])).tree = (t.attempt actions).tree := by
  induction actions generalizing t with
  | nil =>
    rw [List.nil_append, attempt] at h ⊢
    split at h
    · next hfailed => rfl
    · cases h
  | cons first actions ih =>
    rw [List.cons_append, attempt] at h ⊢
    rw [attempt]
    cases hfirst : t.perform first with
    | error e => rfl
    | ok u =>
      rw [hfirst] at h
      exact ih h

/-- **A save that fails** leaves the file as it was. -/
theorem leadsTo?_of_save_error {e : FileError} (h : (t.save split path bytes).error = some e) :
    (t.save split path bytes).tree.leadsTo? path = t.leadsTo? path := by
  rcases t.save_cases split path bytes with ⟨hattempt, hsave⟩ | ⟨e', hattempt, hsave⟩
  · rw [hsave, hattempt] at h
    cases h
  · -- the sibling did not take the place of the file, so all that was done concerns the sibling
    have htree : (t.attempt (savingActions split path bytes)).tree =
        t.replay (t.attempt (writingActions split path bytes)).actions := by
      rw [savingActions_eq] at hattempt ⊢
      rw [tree_attempt_concat hattempt, tree_attempt]
    have hall := throughout_leadsTo? (t := t) (standsApart_temporary · path)
      (paths_writingActions split path bytes)
    have hwriting := hall.of_prefix (t.actions_attempt_prefix _)
    have hremoval := changes_performOrKeep
      (t.replay (t.attempt (writingActions split path bytes)).actions) (.remove (temporary path))
    rw [hsave]
    simp only [htree]
    rw [hremoval.leadsTo?_eq (standsApart_temporary _ path), hwriting.last]

/-! ### The sibling after a save -/

/-- A renamed file is not found under its old path. -/
theorem not_isFile_renamed {old new : String} (h : t.perform (.rename old new) = .ok u)
    (hapart : t.StandsApart old [new]) : ¬u.IsFile old := by
  intro hfile
  obtain ⟨place, bytes, hn, hnode⟩ := isFile_iff.mp hfile
  have hold : t.Names old place := (changes_of_perform h).names.mp hn
  obtain ⟨source, content, target, hold', hnode', hnew, hdir, rfl⟩ := perform_rename_eq_ok.mp h
  obtain rfl := hold.unique hold'
  have hsource := ne_directory_of_file hnode'
  have herase := changes_erase hold hsource
  have hne : place ≠ target := fun heq =>
    hapart place hold hsource new (List.mem_singleton_self new) (heq ▸ hnew)
  rw [node?_set _ (ne_nil_of_node? (mt (herase.directories target).mp hdir)), if_neg hne,
    node?_erase t (ne_nil_of_node? hsource), if_pos rfl] at hnode
  cases hnode

/-- **No temporary sibling is left** by a save, whether it succeeds or not. -/
theorem not_isFile_temporary (t : FileTree) (split : Splitting) (path : String) (bytes : Bytes) :
    ¬(t.save split path bytes).tree.IsFile (temporary path) := by
  rcases t.save_cases split path bytes with ⟨hattempt, hsave⟩ | ⟨e, -, hsave⟩
  · have hall := foldlM_of_attempt hattempt
    rw [← hsave, savingActions_eq, List.foldlM_append, sequence_eq_ok] at hall
    obtain ⟨u, -, hrename⟩ := hall
    rw [List.foldlM_cons, sequence_eq_ok] at hrename
    obtain ⟨v, hrename, hv⟩ := hrename
    obtain rfl : v = (t.save split path bytes).tree := Except.ok.inj hv
    have hapart := u.standsApart_of_suffix path ".tmp" [""] (by decide) (by decide)
    simp only [List.map_cons, List.map_nil, String.append_empty] at hapart
    exact not_isFile_renamed hrename hapart
  · rw [hsave]
    exact not_isFile_remove _ _

end ShaderPack.FileTree
