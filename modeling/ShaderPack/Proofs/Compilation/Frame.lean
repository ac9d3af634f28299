import ShaderPack.Proofs.Compilation.Interruption

namespace ShaderPack.Compilation

open FileTree (temporary)

/-!
# Compilations to files — what may change

A compilation to files works on four files and leaves everything else alone, all directories
included.  It touches the side file only once the packed shader stands at the output path, and
when there is no packed shader it does no more than remove the two output files.

* `frame_of_compileToFile` — all of this, and that no temporary sibling is left that the
  compilation set out to write.
-/

variable {σ : Type} {split : Splitting} {optimize : Optimizer} {r : Request} {o : Output}
  {w : Writer σ} {s : σ} {t u v : FileTree} {path : String}

/-! ### Its own files -/

/-- A compilation to files works on its own files only. -/
theorem named_compileToFile :
    ∀ action ∈ (compileToFile split optimize r o w s t).actions, ∀ named ∈ action.named,
      named ∈ o.files := by
  have hdiscard : ∀ action ∈ [Action.remove o.path, .remove o.disassemblyPath],
      ∀ named ∈ action.named, named ∈ o.files := by
    simp [Action.named, Action.paths, Output.files]
  have hsave {u : FileTree} {bytes : Bytes} {path : String}
      (hpath : [temporary path, path] ⊆ o.files) :
      ∀ action ∈ (u.save split path bytes).actions, ∀ named ∈ action.named, named ∈ o.files :=
    fun action ha named hnamed => hpath (FileTree.named_save action ha named hnamed)
  have hmain : [temporary o.path, o.path] ⊆ o.files := by simp [Output.files]
  have hside : [temporary o.disassemblyPath, o.disassemblyPath] ⊆ o.files := by
    simp [Output.files]
  have hends := compileToFile_ends split optimize r o w s t
  generalize compileToFile split optimize r o w s t = final at hends ⊢
  cases hends with
  | failed hresult => exact hdiscard
  | unpacked hresult hencode => exact hdiscard
  | unsaved hresult hencode hsaved => exact List.forall_mem_append.mpr ⟨hsave hmain, hdiscard⟩
  | saved hresult hencode hsaved =>
    rw [actions_saveSide]
    refine List.forall_mem_append.mpr ⟨hsave hmain, ?_⟩
    split
    · exact hsave hside
    · simp

/-- **A compilation to files changes its own files only** and no directory. -/
theorem changes_compileToFile (split : Splitting) (optimize : Optimizer) (r : Request)
    (o : Output) (w : Writer σ) (s : σ) (t : FileTree) :
    t.Changes (compileToFile split optimize r o w s t).tree o.files := by
  rw [replays_compileToFile]
  refine (FileTree.changes_replay t _).mono fun changed hchanged => ?_
  obtain ⟨action, ha, hchanged⟩ := List.mem_flatMap.mp hchanged
  exact named_compileToFile action ha changed (action.paths_subset hchanged)

/-! ### Without a packed shader -/

/-- The compilation has no shader, or its shader no packed form. -/
def Unpacked (optimize : Optimizer) (r : Request) (w : Writer σ) (s : σ) : Prop :=
  (∃ failure, (compile optimize r w s).result = .error failure) ∨
    ∃ shader fault, (compile optimize r w s).result = .ok shader ∧
      shader.packed.encode = .error fault

theorem not_unpacked {shader : CompiledShader} {bytes : Bytes}
    (hresult : (compile optimize r w s).result = .ok shader)
    (hencode : shader.packed.encode = .ok bytes) : ¬Unpacked optimize r w s := by
  rintro (⟨failure, hfailure⟩ | ⟨shader', fault, hresult', hfault⟩)
  · rw [hresult] at hfailure
    cases hfailure
  · obtain rfl : shader = shader' := Except.ok.inj (hresult.symm.trans hresult')
    rw [hencode] at hfault
    cases hfault

/-- **Without a packed shader** the output files are removed, and that is all. -/
theorem removed_of_unpacked (h : Unpacked optimize r w s) :
    t.Removed (compileToFile split optimize r o w s t).tree [o.path, o.disassemblyPath] := by
  have hends := compileToFile_ends split optimize r o w s t
  generalize compileToFile split optimize r o w s t = final at hends ⊢
  have hremoved := ((FileTree.Removed.refl t).remove o.path).remove o.disassemblyPath
  cases hends with
  | failed hresult => exact hremoved
  | unpacked hresult hencode => exact hremoved
  | unsaved hresult hencode hsaved => exact absurd h (not_unpacked hresult hencode)
  | saved hresult hencode hsaved => exact absurd h (not_unpacked hresult hencode)

/-! ### The side file -/

/-- The action touches the temporary sibling of the side file, or writes the side file. -/
def TouchesSide (o : Output) (action : Action) : Prop :=
  temporary o.disassemblyPath ∈ action.named ∨ o.disassemblyPath ∈ action.written

theorem TouchesSide.named {action : Action} (h : TouchesSide o action) :
    ∃ side ∈ [temporary o.disassemblyPath, o.disassemblyPath], side ∈ action.named :=
  h.elim (fun h => ⟨_, by simp, h⟩) fun h => ⟨_, by simp, action.written_subset h⟩

theorem not_touchesSide_save {u : FileTree} {bytes : Bytes} {action : Action}
    (ha : action ∈ (u.save split o.path bytes).actions) : ¬TouchesSide o action := by
  intro htouches
  obtain ⟨side, hside, hnamed⟩ := htouches.named
  exact o.main_ne_side side (FileTree.named_save action ha side hnamed) side hside rfl

/-- The temporary siblings are not the outputs. -/
theorem Output.temporary_not_mem (o : Output) : ∀ path ∈ [o.path, o.disassemblyPath],
    temporary path ∉ [o.path, o.disassemblyPath] := by
  have hnodup := o.files_nodup
  simp only [Output.files, List.nodup_cons, List.mem_cons, List.not_mem_nil] at hnodup
  grind

theorem not_touchesSide_discard {action : Action}
    (ha : action ∈ [Action.remove o.path, .remove o.disassemblyPath]) : ¬TouchesSide o action := by
  obtain ⟨removed, hremoved, rfl⟩ : ∃ removed ∈ [o.path, o.disassemblyPath],
      Action.remove removed = action := List.mem_map.mp ha
  rintro (h | h)
  · obtain rfl : temporary o.disassemblyPath = removed := List.mem_singleton.mp h
    exact o.temporary_not_mem o.disassemblyPath (by simp) hremoved
  · exact absurd h List.not_mem_nil

/-- The packed shader of a compilation stands at the output path. -/
def Delivered (optimize : Optimizer) (r : Request) (o : Output) (w : Writer σ) (s : σ)
    (u : FileTree) : Prop :=
  ∃ shader bytes, (compile optimize r w s).result = .ok shader ∧
    shader.packed.encode = .ok bytes ∧ u.leadsTo? o.path = some (.file bytes)

/-- When the side file is touched behind a save, the bytes saved stand at the output path. -/
theorem leadsTo?_of_touchesSide {bytes : Bytes} {later : List Action} {n : Nat} {action : Action}
    (hsaved : (t.save split o.path bytes).error = none)
    (hlater : ∀ action ∈ later, ∀ named ∈ action.named,
      named ∈ [temporary o.disassemblyPath, o.disassemblyPath])
    (haction : ((t.save split o.path bytes).actions ++ later)[n]? = some action)
    (hside : TouchesSide o action) :
    (t.replay (((t.save split o.path bytes).actions ++ later).take n)).leadsTo? o.path =
      some (.file bytes) := by
  rcases Nat.lt_or_ge n (t.save split o.path bytes).actions.length with hn | hn
  · have hmem := List.mem_of_getElem? ((List.getElem?_append_left hn).symm.trans haction)
    exact absurd hside (not_touchesSide_save hmem)
  · -- the bytes stand there after the save, and what is done later is done elsewhere
    have hread := FileTree.read_eq_ok_iff.mp (FileTree.read_of_save hsaved)
    have hapart (u : FileTree) :
        u.StandsApart o.path [temporary o.disassemblyPath, o.disassemblyPath] :=
      standsApart_side u (by simp)
    have hkept := FileTree.throughout_leadsTo? (t := (t.save split o.path bytes).tree) hapart
      (fun action ha changed hc => hlater action ha changed (action.paths_subset hc))
    rw [List.take_append, List.take_of_length_le hn, FileTree.replay_append,
      ← FileTree.tree_save, hkept, hread]

/-- When the side file is touched, both files are saved, the packed shader first. -/
theorem saved_of_touchesSide {action : Action}
    (hmem : action ∈ (compileToFile split optimize r o w s t).actions)
    (hside : TouchesSide o action) :
    o.disassembly = true ∧ ∃ shader bytes, (compile optimize r w s).result = .ok shader ∧
      shader.packed.encode = .ok bytes ∧ (t.save split o.path bytes).error = none ∧
      let side := (t.save split o.path bytes).tree.save split o.disassemblyPath
        (Bytes.utf8 shader.packed.source)
      (compileToFile split optimize r o w s t).tree = side.tree ∧
        (compileToFile split optimize r o w s t).actions =
          (t.save split o.path bytes).actions ++ side.actions := by
  have hends := compileToFile_ends split optimize r o w s t
  generalize compileToFile split optimize r o w s t = final at hends hmem ⊢
  cases hends with
  | failed hresult => exact absurd hside (not_touchesSide_discard hmem)
  | unpacked hresult hencode => exact absurd hside (not_touchesSide_discard hmem)
  | unsaved hresult hencode hsaved =>
    rcases List.mem_append.mp hmem with hmem | hmem
    · exact absurd hside (not_touchesSide_save hmem)
    · exact absurd hside (not_touchesSide_discard hmem)
  | @saved shader bytes hresult hencode hsaved =>
    unfold saveSide at hmem ⊢
    split at hmem
    · next hdisassembly =>
      rw [if_pos hdisassembly]
      exact ⟨hdisassembly, shader, bytes, hresult, hencode, hsaved, rfl, rfl⟩
    · exact absurd hside (not_touchesSide_save hmem)

/-- **The side file comes after the packed shader**, and only if it is asked for. -/
theorem delivered_of_touchesSide {n : Nat} {action : Action}
    (haction : (compileToFile split optimize r o w s t).actions[n]? = some action)
    (hside : TouchesSide o action) :
    o.disassembly = true ∧ Delivered optimize r o w s
      (t.replay ((compileToFile split optimize r o w s t).actions.take n)) := by
  obtain ⟨hdisassembly, shader, bytes, hresult, hencode, hsaved, -, hactions⟩ :=
    saved_of_touchesSide (List.mem_of_getElem? haction) hside
  rw [hactions] at haction ⊢
  exact ⟨hdisassembly, shader, bytes, hresult, hencode,
    leadsTo?_of_touchesSide hsaved FileTree.named_save haction hside⟩

/-! ### Temporary siblings -/

/-- Some action of the list works on the file at the path. -/
def Touched (actions : List Action) (path : String) : Prop :=
  ∃ action ∈ actions, path ∈ action.named

theorem isFile_of_failScanned {out : FileOutcome σ} {failure : Failure}
    (h : (failScanned o out failure).tree.IsFile path) : out.tree.IsFile path :=
  FileTree.isFile_of_remove (FileTree.isFile_of_remove h)

/-- The temporary sibling of the packed shader is left by no compilation that touches it. -/
theorem not_isFile_temporary_path
    (htouched : Touched (compileToFile split optimize r o w s t).actions (temporary o.path)) :
    ¬(compileToFile split optimize r o w s t).tree.IsFile (temporary o.path) := by
  have hdiscard : ¬Touched [.remove o.path, .remove o.disassemblyPath] (temporary o.path) := by
    have hsibling := o.temporary_not_mem o.path (by simp)
    simpa [Touched, Action.named, Action.paths] using hsibling
  have hends := compileToFile_ends split optimize r o w s t
  generalize compileToFile split optimize r o w s t = final at hends htouched ⊢
  cases hends with
  | failed hresult => exact absurd htouched hdiscard
  | unpacked hresult hencode => exact absurd htouched hdiscard
  | @unsaved shader bytes e hresult hencode hsaved =>
    intro hfile
    have hfile := isFile_of_failScanned hfile
    exact t.not_isFile_temporary split o.path bytes hfile
  | @saved shader bytes hresult hencode hsaved =>
    have hsave := t.not_isFile_temporary split o.path bytes
    unfold saveSide
    split
    · -- the sibling of the side file is another file
      have hchanges := (t.save split o.path bytes).tree.changes_save split o.disassemblyPath
        (Bytes.utf8 shader.packed.source)
      have hapart : (t.save split o.path bytes).tree.StandsApart (temporary o.path)
          [temporary o.disassemblyPath, o.disassemblyPath] :=
        standsApart_side _ (by simp)
      exact mt (hchanges.isFile_iff hapart).mp hsave
    · exact hsave

/-- The temporary sibling of the side file is left by no compilation that touches it. -/
theorem not_isFile_temporary_disassemblyPath
    (htouched : Touched (compileToFile split optimize r o w s t).actions
      (temporary o.disassemblyPath)) :
    ¬(compileToFile split optimize r o w s t).tree.IsFile (temporary o.disassemblyPath) := by
  obtain ⟨action, hmem, htouches⟩ := htouched
  obtain ⟨-, shader, bytes, -, -, -, htree, -⟩ := saved_of_touchesSide hmem (.inl htouches)
  rw [htree]
  exact FileTree.not_isFile_temporary _ split _ _

/-! ### The frame -/

/-- **The frame of a compilation to files.** The tree afterwards is what the actions lead to.
    * It is the tree before but for the output file, the side file and their temporary siblings,
      and has the same directories.
    * The sibling of the side file is touched, and the side file written, only if the side file
      is asked for and the packed shader stands at the output path by then.
    * If there is no shader, or it has no packed form, the two output files may be removed, and
      nothing else changes.
    * A sibling that was touched is not there as a file afterwards. -/
theorem frame_of_compileToFile (split : Splitting) (optimize : Optimizer) (r : Request)
    (o : Output) (w : Writer σ) (s : σ) (t : FileTree) :
    let out := compileToFile split optimize r o w s t
    out.tree = t.replay out.actions ∧
      t.Changes out.tree o.files ∧
      (∀ n action, out.actions[n]? = some action → TouchesSide o action →
        o.disassembly = true ∧
          Delivered optimize r o w s (t.replay (out.actions.take n))) ∧
      (Unpacked optimize r w s → t.Removed out.tree [o.path, o.disassemblyPath]) ∧
      ∀ path ∈ [o.path, o.disassemblyPath],
        Touched out.actions (temporary path) → ¬out.tree.IsFile (temporary path) := by
  refine ⟨replays_compileToFile split optimize r o w s t,
    changes_compileToFile split optimize r o w s t,
    fun n action haction hside => delivered_of_touchesSide haction hside,
    removed_of_unpacked, ?_⟩
  simp only [List.forall_mem_cons, List.not_mem_nil, false_imp_iff, forall_const, and_true]
  exact ⟨not_isFile_temporary_path, not_isFile_temporary_disassemblyPath⟩

end ShaderPack.Compilation
