import ShaderPack.Proofs.Compilation.Outputs
import ShaderPack.Proofs.FileTree.Interruption

namespace ShaderPack.Compilation

open FileTree (temporary)

/-!
# Compilations to files — work that is cut off

The files of a compilation are four different files, so at each point of the work only one of
them changes, and an output path sees no more than removals and the moves of complete siblings.

* `outputs_interrupted` — cut off behind any action, each of the two paths leads to what it
  led to before, to nothing, or to a complete file.

A file is written piece by piece, cut up in any way, so being cut off within a write is being
cut off behind an action of a finer cut.
-/

variable {σ : Type} {split : Splitting} {optimize : Optimizer} {r : Request} {o : Output}
  {w : Writer σ} {s : σ} {t u v : FileTree} {path : String}

/-! ### The actions -/

theorem actions_saveSide {source : String} {out : FileOutcome σ} :
    (saveSide split o source out).actions = out.actions ++
      if o.disassembly then
        (out.tree.save split o.disassemblyPath (Bytes.utf8 source)).actions
      else [] := by
  unfold saveSide
  split
  · rfl
  · rw [List.append_nil]

/-- An outcome whose tree is what its actions lead to. -/
def Replays (t : FileTree) (out : FileOutcome σ) : Prop := out.tree = t.replay out.actions

theorem Replays.discard {out : FileOutcome σ} (h : Replays t out) (o : Output)
    (closing : List Journal.Event) : Replays t (Compilation.discard o out closing) := by
  show (Compilation.discard o out closing).tree = t.replay (out.actions ++ _)
  rw [FileTree.replay_append, ← h]
  rfl

theorem Replays.saveSide {out : FileOutcome σ} (h : Replays t out) (split : Splitting) (o : Output)
    (source : String) : Replays t (Compilation.saveSide split o source out) := by
  unfold Compilation.saveSide
  split
  · show (out.tree.save split o.disassemblyPath _).tree = t.replay (out.actions ++ _)
    rw [FileTree.replay_append, ← h]
    exact FileTree.tree_save _ _ _ _
  · exact h

/-- **All changes of the tree are actions** of the compilation. -/
theorem replays_compileToFile (split : Splitting) (optimize : Optimizer) (r : Request)
    (o : Output) (w : Writer σ) (s : σ) (t : FileTree) :
    Replays t (compileToFile split optimize r o w s t) := by
  have hends := compileToFile_ends split optimize r o w s t
  generalize compileToFile split optimize r o w s t = final at hends ⊢
  cases hends with
  | failed hresult =>
    refine Replays.discard ?_ o _
    rfl
  | unpacked hresult hencode =>
    refine Replays.discard ?_ o _
    rfl
  | unsaved hresult hencode hsaved =>
    refine Replays.discard ?_ o _
    exact t.tree_save split o.path _
  | saved hresult hencode hsaved =>
    refine Replays.saveSide ?_ split o _
    exact t.tree_save split o.path _

/-! ### Complete files -/

/-- The path leads to what it led to in `t`, to nothing, or to a file with complete content. -/
def KeptOrWhole (t : FileTree) (path : String) (complete : Bytes → Prop) (u : FileTree) : Prop :=
  u.leadsTo? path = t.leadsTo? path ∨ u.leadsTo? path = none ∨
    ∃ bytes, complete bytes ∧ u.leadsTo? path = some (.file bytes)

/-- What is done at `worked` does no harm to `path`: it is the same path and what is saved there
    is complete, or it is another file than those that saving touches. -/
def Harmless (path : String) (complete : Bytes → Prop) (worked : String) (bytes : Bytes) : Prop :=
  (worked = path ∧ complete bytes) ∨
    ∀ u : FileTree, u.StandsApart path [temporary worked, worked]

variable {complete : Bytes → Prop} {worked : String} {bytes : Bytes}

theorem KeptOrWhole.remove (h : KeptOrWhole t path complete u)
    (hworked : worked = path ∨ u.StandsApart path [worked]) :
    KeptOrWhole t path complete (u.performOrKeep (.remove worked)) := by
  have hchanges := FileTree.changes_performOrKeep u (.remove worked)
  rcases hworked with rfl | hapart
  · rcases u.leadsTo?_remove worked with hkept | hnone
    · rwa [KeptOrWhole, hkept]
    · exact .inr (.inl hnone)
  · have hkept := hchanges.leadsTo?_eq hapart
    rwa [KeptOrWhole, hkept]

theorem KeptOrWhole.save (h : KeptOrWhole t path complete u)
    (hworked : Harmless path complete worked bytes) :
    u.Throughout (KeptOrWhole t path complete) (u.save split worked bytes).actions := by
  rcases hworked with ⟨rfl, hcomplete⟩ | hapart
  · refine (u.throughout_save split worked bytes).mono fun v hv => ?_
    rcases hv with hkept | hsaved
    · rwa [KeptOrWhole, hkept]
    · exact .inr (.inr ⟨bytes, hcomplete, hsaved⟩)
  · refine (FileTree.throughout_leadsTo? hapart FileTree.paths_save).mono fun v hv => ?_
    rwa [KeptOrWhole, hv]

/-- **A path that no work harms** leads to complete files throughout. -/
theorem throughout_keptOrWhole
    (hremove : ∀ worked ∈ [o.path, o.disassemblyPath],
      worked = path ∨ ∀ u : FileTree, u.StandsApart path [worked])
    (hmain : ∀ shader bytes, (compile optimize r w s).result = .ok shader →
      shader.packed.encode = .ok bytes → Harmless path complete o.path bytes)
    (hside : ∀ shader, (compile optimize r w s).result = .ok shader →
      Harmless path complete o.disassemblyPath (Bytes.utf8 shader.packed.source)) :
    t.Throughout (KeptOrWhole t path complete)
      (compileToFile split optimize r o w s t).actions := by
  have hstart : KeptOrWhole t path complete t := .inl rfl
  have hdiscard : ∀ action ∈ [Action.remove o.path, .remove o.disassemblyPath], ∀ u,
      KeptOrWhole t path complete u → KeptOrWhole t path complete (u.performOrKeep action) := by
    intro action haction u hu
    obtain ⟨worked, hworked, rfl⟩ : ∃ worked ∈ [o.path, o.disassemblyPath],
        Action.remove worked = action := List.mem_map.mp haction
    exact hu.remove ((hremove worked hworked).imp_right fun hapart => hapart u)
  have hends := compileToFile_ends split optimize r o w s t
  generalize compileToFile split optimize r o w s t = final at hends ⊢
  cases hends with
  | failed hresult => exact .of_step hstart hdiscard
  | unpacked hresult hencode => exact .of_step hstart hdiscard
  | unsaved hresult hencode hsaved =>
    exact (hstart.save (hmain _ _ hresult hencode)).append_of_step hdiscard
  | saved hresult hencode hsaved =>
    have hsave : t.Throughout (KeptOrWhole t path complete) (t.save split o.path _).actions :=
      hstart.save (hmain _ _ hresult hencode)
    have hlast := hsave.last
    rw [← FileTree.tree_save] at hlast
    rw [actions_saveSide]
    refine hsave.append ?_
    rw [← FileTree.tree_save]
    split
    · exact hlast.save (hside _ hresult)
    · exact .of_step hlast fun action haction => absurd haction (List.not_mem_nil)

/-- **Crash safety.** The tree after a compilation is what its actions lead to, and after any
    number of them the output path leads to what it led to before, to nothing, or to a file
    with exactly the packed shader that the compilation comes to; the path of the side file
    likewise, with exactly the final source. -/
theorem outputs_interrupted (split : Splitting) (optimize : Optimizer) (r : Request)
    (o : Output) (w : Writer σ) (s : σ) (t : FileTree) :
    let out := compileToFile split optimize r o w s t
    out.tree = t.replay out.actions ∧ ∀ n,
      KeptOrWhole t o.path
        (fun bytes => ∃ shader, (compile optimize r w s).result = .ok shader ∧
          shader.packed.encode = .ok bytes)
        (t.replay (out.actions.take n)) ∧
      KeptOrWhole t o.disassemblyPath
        (fun bytes => ∃ shader, (compile optimize r w s).result = .ok shader ∧
          Bytes.utf8 shader.packed.source = bytes)
        (t.replay (out.actions.take n)) := by
  have hmain (u : FileTree) :
      u.StandsApart o.path [temporary o.disassemblyPath, o.disassemblyPath] :=
    standsApart_side u (by simp)
  have hside (u : FileTree) : u.StandsApart o.disassemblyPath [temporary o.path, o.path] :=
    standsApart_main u (by simp)
  refine ⟨replays_compileToFile split optimize r o w s t, fun n => ⟨?_, ?_⟩⟩
  · have hremove : ∀ worked ∈ [o.path, o.disassemblyPath],
        worked = o.path ∨ ∀ u : FileTree, u.StandsApart o.path [worked] :=
      List.forall_mem_cons.mpr ⟨.inl rfl,
        List.forall_mem_singleton.mpr (.inr fun u => (hmain u).mono (by simp))⟩
    exact throughout_keptOrWhole hremove
      (fun shader bytes hresult hencode => .inl ⟨rfl, shader, hresult, hencode⟩)
      (fun shader hresult => .inr hmain) n
  · have hremove : ∀ worked ∈ [o.path, o.disassemblyPath],
        worked = o.disassemblyPath ∨ ∀ u : FileTree, u.StandsApart o.disassemblyPath [worked] :=
      List.forall_mem_cons.mpr ⟨.inr fun u => (hside u).mono (by simp),
        List.forall_mem_singleton.mpr (.inl rfl)⟩
    exact throughout_keptOrWhole hremove
      (fun shader bytes hresult hencode => .inr hside)
      (fun shader hresult => .inl ⟨rfl, shader, hresult, rfl⟩) n

end ShaderPack.Compilation
