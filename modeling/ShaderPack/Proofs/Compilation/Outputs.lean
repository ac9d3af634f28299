import ShaderPack.Compilation.Files
import ShaderPack.Proofs.FileTree.Saving
import ShaderPack.Proofs.FileTree.Siblings
import ShaderPack.Proofs.Pack.RoundTrip

namespace ShaderPack.Compilation

open FileTree (temporary)

/-!
# Compilations to files — what stands at the output paths

A compilation to files works on the output path, the path of the side file and the temporary
siblings of both, which are four different files (`standsApart_of_mem_files`).  It ends in one
of four ways (`Ends`): the compilation itself fails, its shader has no packed form, the packed
form cannot be saved, or it is saved and the side file is tried.  The first three remove both
output files at the end; in the fourth, the side file and its temporary sibling are other files
than the one just saved.

* `outputs_of_compileToFile` — after a success the output path leads to exactly the packed
  shader, after a failure neither output path leads to a file.
-/

variable {σ : Type}

/-! ### The ways to end -/

section Ends

variable (split : Splitting) (optimize : Optimizer) (r : Request) (o : Output) (w : Writer σ)
  (s : σ) (t : FileTree)

/-- A compilation to files before anything is done to the tree. -/
def begun : FileOutcome σ := { compile optimize r w s with tree := t, actions := [] }

/-- The same with the events of packing its shader. -/
def recorded (packed : PackedShader) : FileOutcome σ :=
  { begun optimize r w s t with
    events := (begun optimize r w s t).events ++ packed.encodeEvents }

/-- The same after an attempt to save its shader. -/
def attempted (packed : PackedShader) (saved : FileTree.Attempt) : FileOutcome σ :=
  { recorded optimize r w s t packed with tree := saved.tree, actions := saved.actions }

/-- **The four ends of a compilation to files.** -/
inductive Ends : FileOutcome σ → Prop
  /-- The compilation itself fails. -/
  | failed {failure : Failure} (hresult : (compile optimize r w s).result = .error failure) :
    Ends (discard o (begun optimize r w s t) [])
  /-- The shader has no packed form. -/
  | unpacked {shader : CompiledShader} {fault : Pack.WriteFault}
    (hresult : (compile optimize r w s).result = .ok shader)
    (hencode : shader.packed.encode = .error fault) :
    Ends (failScanned o (recorded optimize r w s t shader.packed) fault.failure)
  /-- The packed form cannot be saved. -/
  | unsaved {shader : CompiledShader} {bytes : Bytes} {e : FileError}
    (hresult : (compile optimize r w s).result = .ok shader)
    (hencode : shader.packed.encode = .ok bytes)
    (hsaved : (t.save split o.path bytes).error = some e) :
    Ends (failScanned o (attempted optimize r w s t shader.packed (t.save split o.path bytes))
      (saveFailure o.path e))
  /-- The packed form is saved; whether the side file is saved too makes no difference. -/
  | saved {shader : CompiledShader} {bytes : Bytes}
    (hresult : (compile optimize r w s).result = .ok shader)
    (hencode : shader.packed.encode = .ok bytes)
    (hsaved : (t.save split o.path bytes).error = none) :
    Ends (saveSide split o shader.packed.source
      { attempted optimize r w s t shader.packed (t.save split o.path bytes) with
        events := (recorded optimize r w s t shader.packed).events ++
          [.entered .scanned .serialized] })

theorem saveShader_ends {shader : CompiledShader}
    (hresult : (compile optimize r w s).result = .ok shader) :
    Ends split optimize r o w s t
      (saveShader split o shader.packed (begun optimize r w s t)) := by
  have htree : (begun optimize r w s t).tree = t := rfl
  unfold saveShader
  cases hencode : shader.packed.encode with
  | error fault =>
    simp only
    exact .unpacked hresult hencode
  | ok bytes =>
    simp only [htree]
    cases hsaved : (t.save split o.path bytes).error with
    | some e =>
      simp only
      exact .unsaved hresult hencode hsaved
    | none =>
      simp only
      exact .saved hresult hencode hsaved

theorem compileToFile_ends :
    Ends split optimize r o w s t (compileToFile split optimize r o w s t) := by
  unfold compileToFile
  cases hresult : (compile optimize r w s).result with
  | error failure =>
    simp only [hresult]
    exact .failed hresult
  | ok shader =>
    simp only [hresult]
    exact saveShader_ends split optimize r o w s t hresult

end Ends

/-! ### The files of a compilation -/

variable {split : Splitting} {optimize : Optimizer} {r : Request} {o : Output} {w : Writer σ}
  {s : σ} {t : FileTree} {path : String} {others : List String}

/-- The files that a compilation works on. -/
def Output.files (o : Output) : List String :=
  [temporary o.path, o.path, temporary o.disassemblyPath, o.disassemblyPath]

/-- What the files of a compilation have behind the output path. -/
def suffixes : List String := [".tmp", "", ".disasm.tmp", ".disasm"]

theorem Output.files_eq (o : Output) : o.files = suffixes.map (o.path ++ ·) := by
  simp [Output.files, suffixes, temporary, Output.disassemblyPath, String.append_assoc]

theorem Output.files_nodup (o : Output) : o.files.Nodup := by
  have hsuffixes : suffixes.Nodup := by decide
  rw [o.files_eq]
  exact List.Pairwise.map _ (fun _ _ hne h => hne ((String.append_right_inj o.path).mp h))
    hsuffixes

/-- The files of a compilation are different files in every tree. -/
theorem standsApart_of_mem_files (t : FileTree) (hpath : path ∈ o.files)
    (hothers : ∀ other ∈ others, other ∈ o.files ∧ path ≠ other) : t.StandsApart path others := by
  have hslash : ∀ suffix ∈ suffixes, '/' ∉ suffix.toList := by decide
  rw [o.files_eq] at hpath hothers
  obtain ⟨suffix, hsuffix, rfl⟩ := List.mem_map.mp hpath
  intro place hn hnode other hother hn'
  obtain ⟨hmem, hne⟩ := hothers other hother
  obtain ⟨suffix', hsuffix', rfl⟩ := List.mem_map.mp hmem
  exact hn.ne_of_suffix hn' hnode hnode (hslash suffix hsuffix) (hslash suffix' hsuffix')
    (fun heq => hne (congrArg (o.path ++ ·) heq)) rfl

/-- The file of the shader and its sibling are not the side file and its sibling. -/
theorem Output.main_ne_side (o : Output) : ∀ main ∈ [temporary o.path, o.path],
    ∀ side ∈ [temporary o.disassemblyPath, o.disassemblyPath], main ≠ side :=
  (List.nodup_append.mp o.files_nodup).2.2

theorem standsApart_side (t : FileTree) (h : path ∈ [temporary o.path, o.path]) :
    t.StandsApart path [temporary o.disassemblyPath, o.disassemblyPath] :=
  standsApart_of_mem_files t (List.mem_append_left _ h) fun other hother =>
    ⟨List.mem_append_right [temporary o.path, o.path] hother, o.main_ne_side path h other hother⟩

theorem standsApart_main (t : FileTree)
    (h : path ∈ [temporary o.disassemblyPath, o.disassemblyPath]) :
    t.StandsApart path [temporary o.path, o.path] :=
  have hpath : path ∈ o.files := List.mem_append_right [temporary o.path, o.path] h
  standsApart_of_mem_files t hpath fun other hother =>
    ⟨List.mem_append_left _ hother, (o.main_ne_side other hother path h).symm⟩

/-! ### Removed outputs -/

theorem result_discard (o : Output) (out : FileOutcome σ) (closing : List Journal.Event) :
    (discard o out closing).result = out.result := rfl

/-- **Nothing stale is left** when the outputs are discarded. -/
theorem not_isFile_discard (o : Output) (out : FileOutcome σ) (closing : List Journal.Event) :
    ¬(discard o out closing).tree.IsFile o.path ∧
      ¬(discard o out closing).tree.IsFile o.disassemblyPath := by
  have htree : (discard o out closing).tree =
      (out.tree.performOrKeep (.remove o.path)).performOrKeep (.remove o.disassemblyPath) := rfl
  rw [htree]
  refine ⟨fun hfile => ?_, FileTree.not_isFile_remove _ _⟩
  -- removing the side file brings back no file at the output path
  exact FileTree.not_isFile_remove _ _ (FileTree.isFile_of_remove hfile)

/-! ### The side file -/

/-- Saving the side file leaves the file of the shader as it is. -/
theorem read_saveSide {out : FileOutcome σ} {source : String} {bytes : Bytes}
    (h : out.tree.read o.path = .ok bytes) :
    (saveSide split o source out).tree.read o.path = .ok bytes := by
  unfold saveSide
  split
  · have hchanges := out.tree.changes_save split o.disassemblyPath (Bytes.utf8 source)
    rw [FileTree.read_eq_ok_iff] at h ⊢
    rw [hchanges.leadsTo?_eq (standsApart_side out.tree (by simp)), h]
  · exact h

theorem result_saveSide {out : FileOutcome σ} {source : String} :
    (saveSide split o source out).result = out.result := by
  unfold saveSide
  split <;> rfl

/-! ### The output paths -/

/-- **No stale and no partial output.** Whatever the tree held before: after a success the
    result is that of the compilation alone, and the output path leads to a file that holds
    exactly its packed form, which is read as its shader again; after a failure neither the
    output path nor the path of the side file leads to a file. -/
theorem outputs_of_compileToFile (split : Splitting) (optimize : Optimizer) (r : Request)
    (o : Output) (w : Writer σ) (s : σ) (t : FileTree) :
    match (compileToFile split optimize r o w s t).result with
    | .ok shader =>
      (compile optimize r w s).result = .ok shader ∧
        ∃ bytes, shader.packed.encode = .ok bytes ∧
          (compileToFile split optimize r o w s t).tree.read o.path = .ok bytes ∧
          (Pack.decode bytes).result = .ok shader.packed
    | .error _ =>
      ¬(compileToFile split optimize r o w s t).tree.IsFile o.path ∧
        ¬(compileToFile split optimize r o w s t).tree.IsFile o.disassemblyPath := by
  have hends := compileToFile_ends split optimize r o w s t
  -- from here on only the way in which it ended matters
  generalize compileToFile split optimize r o w s t = final at hends ⊢
  cases hends with
  | failed hresult =>
    rw [result_discard, show (begun optimize r w s t).result = _ from hresult]
    exact not_isFile_discard o _ _
  | unpacked hresult hencode => exact not_isFile_discard o _ _
  | unsaved hresult hencode hsaved => exact not_isFile_discard o _ _
  | saved hresult hencode hsaved =>
    rw [result_saveSide, show (attempted optimize r w s t _ _).result = _ from hresult]
    exact ⟨hresult, _, hencode, read_saveSide (FileTree.read_of_save hsaved),
      Pack.decode_eq_ok_iff.mpr hencode⟩

end ShaderPack.Compilation
