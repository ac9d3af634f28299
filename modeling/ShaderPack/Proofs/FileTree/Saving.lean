import ShaderPack.FileTree.Save
import ShaderPack.Proofs.FileTree.Actions

namespace ShaderPack.FileTree

/-!
# File trees — saving a file as a whole

A save that reports no error has performed all of its actions, so they can be followed one
by one: the temporary sibling takes the bytes piece by piece, and its content is moved to
the path.  With an error or without, a save changes nothing but the file and its temporary
sibling.

* `read_of_save` — after a save without an error the path leads to the bytes;
* `changes_save` — what a save can change at all;
* `error_save_eq_none` — whether a save succeeds is decided by the directories alone.
-/

variable {t u : FileTree} {path : String} {place : Place} {bytes : Bytes} {split : Splitting}

/-! ### Attempts -/

/-- An attempt without an error has performed all of its actions. -/
theorem foldlM_of_attempt {actions : List Action} (h : (t.attempt actions).error = none) :
    actions.foldlM perform t = .ok (t.attempt actions).tree := by
  induction actions generalizing t with
  | nil => rfl
  | cons action rest ih =>
    rw [attempt] at h ⊢
    rw [List.foldlM_cons]
    cases ha : t.perform action with
    | error e =>
      rw [ha] at h
      cases h
    | ok u =>
      rw [ha] at h
      exact ih h

/-- The actions that were attempted are the first ones. -/
theorem actions_attempt_prefix (t : FileTree) (actions : List Action) :
    (t.attempt actions).actions <+: actions := by
  induction actions generalizing t with
  | nil => exact List.prefix_rfl
  | cons action rest ih =>
    rw [attempt]
    split
    · exact (List.prefix_cons_inj action).mpr List.nil_prefix
    · next u _ => exact (List.prefix_cons_inj action).mpr (ih u)

/-- A save is an attempt at its actions, after which a failed one removes the temporary
    sibling. -/
theorem save_cases (t : FileTree) (split : Splitting) (path : String) (bytes : Bytes) :
    let a := t.attempt (savingActions split path bytes)
    (a.error = none ∧ t.save split path bytes = a) ∨
      ∃ e, a.error = some e ∧ t.save split path bytes =
        { tree := a.tree.performOrKeep (.remove (temporary path))
          actions := a.actions ++ [.remove (temporary path)]
          error := some e } := by
  intro a
  unfold save
  cases ha : a.error with
  | none =>
    have ha : (t.attempt (savingActions split path bytes)).error = none := ha
    left
    simp only [ha]
    exact ⟨trivial, rfl⟩
  | some e =>
    have ha : (t.attempt (savingActions split path bytes)).error = some e := ha
    right
    refine ⟨e, rfl, ?_⟩
    simp only [ha]
    rfl

/-! ### What a save changes -/

theorem named_savingActions :
    ∀ action ∈ savingActions split path bytes, ∀ named ∈ action.named,
      named ∈ [temporary path, path] := by
  intro action ha named hnamed
  simp only [savingActions, List.mem_cons, List.mem_append, List.mem_map, List.not_mem_nil,
    or_false] at ha
  rcases ha with rfl | ⟨piece, -, rfl⟩ | rfl | rfl <;> simp_all [Action.named, Action.paths]

/-- A save leaves the tree that its actions lead to. -/
theorem tree_save (t : FileTree) (split : Splitting) (path : String) (bytes : Bytes) :
    (t.save split path bytes).tree = t.replay (t.save split path bytes).actions := by
  rcases t.save_cases split path bytes with ⟨-, hsave⟩ | ⟨e, -, hsave⟩
  · rw [hsave]
    exact t.tree_attempt _
  · rw [hsave]
    show FileTree.performOrKeep _ _ = _
    rw [t.tree_attempt, replay, replay, List.foldl_append, List.foldl_cons, List.foldl_nil]

/-- A save works on the file and its temporary sibling. -/
theorem named_save :
    ∀ action ∈ (t.save split path bytes).actions, ∀ named ∈ action.named,
      named ∈ [temporary path, path] := by
  have hattempt := (t.actions_attempt_prefix (savingActions split path bytes)).subset
  rcases t.save_cases split path bytes with ⟨-, hsave⟩ | ⟨e, -, hsave⟩
  · rw [hsave]
    exact fun action ha => named_savingActions action (hattempt ha)
  · rw [hsave]
    intro action ha
    rcases List.mem_append.mp ha with ha | ha
    · exact named_savingActions action (hattempt ha)
    · obtain rfl := List.mem_singleton.mp ha
      simp [Action.named, Action.paths]

theorem paths_save :
    ∀ action ∈ (t.save split path bytes).actions, ∀ changed ∈ action.paths,
      changed ∈ [temporary path, path] :=
  fun action ha changed hc => named_save action ha changed (action.paths_subset hc)

/-- **A save changes nothing but the file and its temporary sibling.** -/
theorem changes_save (t : FileTree) (split : Splitting) (path : String) (bytes : Bytes) :
    t.Changes (t.save split path bytes).tree [temporary path, path] := by
  rw [tree_save]
  refine (changes_replay t _).mono fun changed hc => ?_
  obtain ⟨action, ha, hc⟩ := List.mem_flatMap.mp hc
  exact paths_save action ha changed hc

/-! ### What a save writes -/

/-- Writing at a place that a path names leaves the written file there. -/
theorem node?_set_self (h : t.node? place ≠ some .directory) (node : Node) :
    (t.set place node).node? place = some node := by
  rw [t.node?_set (ne_nil_of_node? h), if_pos rfl]

/-- Pieces that are written one after another add up. -/
theorem node?_of_appends {pieces : List Bytes} {before : Bytes} (hn : t.Names path place)
    (hnode : t.node? place = some (.file before))
    (h : (pieces.map (Action.append path)).foldlM perform t = .ok u) :
    u.Names path place ∧ u.node? place = some (.file (before ++ pieces.flatten)) := by
  -- each piece is put behind what the file holds by then
  induction pieces generalizing t before with
  | nil =>
    obtain rfl : t = u := Except.ok.inj h
    rw [List.flatten_nil, List.append_nil]
    exact ⟨hn, hnode⟩
  | cons piece pieces ih =>
    rw [List.map_cons, List.foldlM_cons, sequence_eq_ok] at h
    obtain ⟨v, ha, h⟩ := h
    have hchanges := changes_of_perform ha
    obtain ⟨place', before', hn', hnode', rfl⟩ := perform_append_eq_ok.mp ha
    obtain rfl := hn.unique hn'
    obtain rfl : before = before' := by simpa [hnode] using hnode'
    rw [List.flatten_cons, ← List.append_assoc]
    exact ih (hchanges.names.mpr hn) (node?_set_self (ne_directory_of_file hnode) _) h

/-- **A save without an error writes the file.** -/
theorem read_of_save (h : (t.save split path bytes).error = none) :
    (t.save split path bytes).tree.read path = .ok bytes := by
  rcases t.save_cases split path bytes with ⟨hattempt, hsave⟩ | ⟨e, -, hsave⟩
  · -- all actions succeed: `t₁` to `t₄` are the trees between them
    have hall := foldlM_of_attempt hattempt
    rw [← hsave] at hall
    generalize (t.save split path bytes).tree = u at hall ⊢
    rw [savingActions, List.foldlM_cons, sequence_eq_ok] at hall
    obtain ⟨t₁, hcreate, hall⟩ := hall
    rw [List.foldlM_append, sequence_eq_ok] at hall
    obtain ⟨t₂, happends, hall⟩ := hall
    rw [List.foldlM_cons, sequence_eq_ok] at hall
    obtain ⟨t₃, hsync, hall⟩ := hall
    rw [List.foldlM_cons, sequence_eq_ok] at hall
    obtain ⟨t₄, hrename, hall⟩ := hall
    obtain rfl : t₄ = u := Except.ok.inj hall
    -- the sibling is made, takes the pieces, and is kept safe
    have hcreated := changes_of_perform hcreate
    obtain ⟨q, hq, hfree, rfl⟩ := perform_create_eq_ok.mp hcreate
    obtain ⟨hq₂, hfile⟩ := node?_of_appends (hcreated.names.mpr hq) (node?_set_self hfree _) happends
    rw [List.nil_append, split.flatten_pieces] at hfile
    obtain ⟨-, rfl⟩ := perform_sync_eq_ok.mp hsync
    -- then its content is moved to the path
    have hmoved := changes_of_perform hrename
    obtain ⟨q', bytes', p, hq', hfile', hp, hdir, rfl⟩ := perform_rename_eq_ok.mp hrename
    obtain rfl := hq₂.unique hq'
    obtain rfl : bytes = bytes' := by simpa [hfile] using hfile'
    have herase := changes_erase hq₂ (ne_directory_of_file hfile)
    exact read_eq_ok.mpr ⟨p, hmoved.names.mpr hp,
      node?_set_self (mt (herase.directories p).mp hdir) _⟩
  · rw [hsave] at h
    cases h

/-! ### When a save succeeds -/

/-- The path and its temporary sibling both name places of files, where no directory stands. -/
def Savable (t : FileTree) (path : String) : Prop :=
  ∀ named ∈ [temporary path, path], ∃ place, t.Names named place ∧ t.node? place ≠ some .directory

/-- Whether a file can be saved is a matter of the directories. -/
theorem Changes.savable {paths : List String} (h : t.Changes u paths) :
    u.Savable path ↔ t.Savable path := by
  simp only [Savable, h.names, ne_eq, h.directories]

/-- Actions that succeed one after another are all attempted, without an error. -/
theorem error_attempt_of_foldlM {actions : List Action} (h : actions.foldlM perform t = .ok u) :
    (t.attempt actions).error = none := by
  induction actions generalizing t with
  | nil => rfl
  | cons action rest ih =>
    rw [List.foldlM_cons, sequence_eq_ok] at h
    obtain ⟨v, ha, h⟩ := h
    rw [attempt, ha]
    exact ih h

/-- Bytes can be put behind a file, piece by piece. -/
theorem foldlM_appends (pieces : List Bytes) {before : Bytes} (hn : t.Names path place)
    (hnode : t.node? place = some (.file before)) :
    ∃ u, (pieces.map (Action.append path)).foldlM perform t = .ok u ∧ t.Changes u [path] := by
  induction pieces generalizing t before with
  | nil => exact ⟨t, rfl, Changes.refl t [path]⟩
  | cons piece pieces ih =>
    have ha : t.perform (.append path piece) = .ok (t.set place (.file (before ++ piece))) :=
      perform_append_eq_ok.mpr ⟨place, before, hn, hnode, rfl⟩
    have hchanges : t.Changes _ [path] := changes_of_perform ha
    obtain ⟨u, hu, hlater⟩ :=
      ih (hchanges.names.mpr hn) (node?_set_self (ne_directory_of_file hnode) _)
    refine ⟨u, ?_, (hchanges.trans hlater).mono (by simp)⟩
    rw [List.map_cons, List.foldlM_cons, ha]
    exact hu

/-- **A save succeeds** exactly if there are places for the file and its temporary sibling. -/
theorem error_save_eq_none : (t.save split path bytes).error = none ↔ t.Savable path := by
  have hattempt : (t.save split path bytes).error = none ↔
      (t.attempt (savingActions split path bytes)).error = none := by
    rcases t.save_cases split path bytes with ⟨ha, hsave⟩ | ⟨e, ha, hsave⟩
    · rw [hsave]
    · simp [hsave, ha]
  simp only [Savable, List.forall_mem_cons, List.not_mem_nil, false_imp_iff, forall_const,
    and_true]
  constructor
  · intro h
    -- the sibling was made, and in the end the file stands at its place
    have hall := foldlM_of_attempt (hattempt.mp h)
    rw [savingActions, List.foldlM_cons, sequence_eq_ok] at hall
    obtain ⟨t₁, hcreate, -⟩ := hall
    obtain ⟨q, hq, hfree, -⟩ := perform_create_eq_ok.mp hcreate
    obtain ⟨p, hp, hfile⟩ := read_eq_ok.mp (read_of_save h)
    have hchanges := t.changes_save split path bytes
    exact ⟨⟨q, hq, hfree⟩, p, hchanges.names.mp hp,
      mt (hchanges.directories p).mpr (ne_directory_of_file hfile)⟩
  · intro h
    obtain ⟨⟨q, hq, hfree⟩, p, hp, hdir⟩ := h
    rw [hattempt]
    -- `t₁` and `t₂` are the trees with the empty and with the complete sibling
    have hcreate := perform_create_eq_ok.mpr ⟨q, hq, hfree, rfl⟩
    have hcreated := changes_of_perform hcreate
    generalize ht₁ : t.set q (.file []) = t₁ at hcreate hcreated
    have hq₁ : t₁.Names (temporary path) q := hcreated.names.mpr hq
    have hempty : t₁.node? q = some (.file []) := by rw [← ht₁, node?_set_self hfree]
    obtain ⟨t₂, happends, hwritten⟩ := foldlM_appends (split.pieces bytes) hq₁ hempty
    obtain ⟨hq₂, hfile⟩ := node?_of_appends hq₁ hempty happends
    have hsync : t₂.perform (.sync (temporary path)) = .ok t₂ :=
      perform_sync_eq_ok.mpr ⟨isFile_iff.mpr ⟨q, _, hq₂, hfile⟩, rfl⟩
    have hchanges := hcreated.trans hwritten
    have hrename := perform_rename_eq_ok.mpr ⟨q, _, p, hq₂, hfile, hchanges.names.mpr hp,
      mt (hchanges.directories p).mp hdir, rfl⟩
    have hall : (savingActions split path bytes).foldlM perform t =
        .ok ((t₂.erase q).set p (.file ([] ++ (split.pieces bytes).flatten))) := by
      rw [savingActions, List.foldlM_cons, sequence_eq_ok]
      refine ⟨t₁, hcreate, ?_⟩
      rw [List.foldlM_append, sequence_eq_ok]
      refine ⟨t₂, happends, ?_⟩
      rw [List.foldlM_cons, sequence_eq_ok]
      refine ⟨t₂, hsync, ?_⟩
      rw [List.foldlM_cons, sequence_eq_ok]
      exact ⟨_, hrename, rfl⟩
    exact error_attempt_of_foldlM hall

end ShaderPack.FileTree
