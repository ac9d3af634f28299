import ShaderPack.Proofs.Compilation.History
import ShaderPack.Proofs.FileTree.Locality

namespace ShaderPack.Compilation

open FileTree (temporary TriedAlike)

/-!
# Compilations to files — independent runs

A compilation to files depends on the tree only where its paths are read: on trees that are alike
on the trails of its files it comes to the same, and leaves alike trees
(`compileToFile_alike`).  What another compilation changes are the places of that one's files.
So two compilations do not see each other if no place of a file of the one lies on a trail of the
other, which is what `Independent` says.

* `independent_runs_commute` — independent runs come to the same in either order.
-/

variable {σ : Type} {split : Splitting} {optimize : Optimizer} {r : Request} {o o' : Output}
  {w : Writer σ} {s : σ} {t u v : FileTree} {out out' : FileOutcome σ} {region : List Place}

/-! ### What a compilation depends on -/

/-- The outcomes are the same but for their trees, which are alike in this region. -/
def OutcomesAlike (region : List Place) (out out' : FileOutcome σ) : Prop :=
  ∃ tree, out.tree.Alike tree region ∧ out' = { out with tree }

theorem OutcomesAlike.toOutcome_eq (h : OutcomesAlike region out out') :
    out'.toOutcome = out.toOutcome := by
  obtain ⟨tree, -, rfl⟩ := h
  rfl

theorem OutcomesAlike.actions_eq (h : OutcomesAlike region out out') :
    out'.actions = out.actions := by
  obtain ⟨tree, -, rfl⟩ := h
  rfl

theorem OutcomesAlike.tree_alike (h : OutcomesAlike region out out') :
    out.tree.Alike out'.tree region := by
  obtain ⟨tree, htree, rfl⟩ := h
  exact htree

theorem removalEvents_eq {before after : Except FileError FileTree}
    (h : TriedAlike region before after) (path : String) :
    removalEvents path after = removalEvents path before := by
  cases h <;> rfl

theorem discard_alike (h : OutcomesAlike region out out')
    (hin : out.tree.StaysIn [o.path, o.disassemblyPath] region) (closing : List Journal.Event) :
    OutcomesAlike region (discard o out closing) (discard o out' closing) := by
  obtain ⟨tree, htree, rfl⟩ := h
  have hmain : out.tree.StaysIn (Action.remove o.path).named region :=
    hin.mono (by simp [Action.named, Action.paths])
  -- the side file is removed from trees that are alike again
  have hleft := FileTree.performOrKeep_alike htree hmain
  have hchanges := FileTree.changes_performOrKeep out.tree (.remove o.path)
  have hside : (out.tree.performOrKeep (.remove o.path)).StaysIn
      (Action.remove o.disassemblyPath).named region :=
    hchanges.staysIn.mpr (hin.mono (by simp [Action.named, Action.paths]))
  have hevents := removalEvents_eq (FileTree.perform_alike htree hmain) o.path
  have hevents' := removalEvents_eq (FileTree.perform_alike hleft hside) o.disassemblyPath
  refine ⟨_, FileTree.performOrKeep_alike hleft hside, ?_⟩
  unfold discard
  simp only [hevents, hevents']

theorem failScanned_alike (h : OutcomesAlike region out out')
    (hin : out.tree.StaysIn [o.path, o.disassemblyPath] region) (failure : Failure) :
    OutcomesAlike region (failScanned o out failure) (failScanned o out' failure) := by
  obtain ⟨tree, htree, rfl⟩ := h
  have hfailed : OutcomesAlike region { out with result := .error failure }
      { out with result := .error failure, tree } := ⟨tree, htree, rfl⟩
  exact discard_alike hfailed hin _

theorem saveSide_alike (h : OutcomesAlike region out out')
    (hin : out.tree.StaysIn [temporary o.disassemblyPath, o.disassemblyPath] region)
    (source : String) :
    OutcomesAlike region (saveSide split o source out) (saveSide split o source out') := by
  obtain ⟨tree, htree, rfl⟩ := h
  have hsave := FileTree.save_alike split (Bytes.utf8 source) htree hin
  unfold saveSide
  split
  · refine ⟨_, hsave.tree, ?_⟩
    simp only [hsave.actions_eq, hsave.error_eq]
  · exact ⟨tree, htree, rfl⟩

theorem saveShader_alike (h : OutcomesAlike region out out')
    (hin : out.tree.StaysIn o.files region) (packed : PackedShader) :
    OutcomesAlike region (saveShader split o packed out) (saveShader split o packed out') := by
  obtain ⟨tree, htree, rfl⟩ := h
  have houtputs : [o.path, o.disassemblyPath] ⊆ o.files := by simp [Output.files]
  have hmain : [temporary o.path, o.path] ⊆ o.files := by simp [Output.files]
  have hside : [temporary o.disassemblyPath, o.disassemblyPath] ⊆ o.files := by
    simp [Output.files]
  have hrecorded : OutcomesAlike region { out with events := out.events ++ packed.encodeEvents }
      { out with events := out.events ++ packed.encodeEvents, tree } := ⟨tree, htree, rfl⟩
  unfold saveShader
  cases packed.encode with
  | error fault =>
    simp only
    exact failScanned_alike hrecorded (hin.mono houtputs) _
  | ok bytes =>
    have hsave := FileTree.save_alike split bytes htree (hin.mono hmain)
    have hchanges := out.tree.changes_save split o.path bytes
    simp only [hsave.error_eq, hsave.actions_eq]
    cases (out.tree.save split o.path bytes).error with
    | some e =>
      exact failScanned_alike ⟨_, hsave.tree, rfl⟩ (hchanges.staysIn.mpr (hin.mono houtputs)) _
    | none =>
      exact saveSide_alike ⟨_, hsave.tree, rfl⟩ (hchanges.staysIn.mpr (hin.mono hside)) _

/-- **A compilation to files depends on the trails of its files**, and where trees are alike it
    leaves them alike. -/
theorem compileToFile_alike (split : Splitting) (optimize : Optimizer) (r : Request) (o : Output)
    (w : Writer σ) (s : σ) (h : t.Alike u region) (hin : t.StaysIn o.files region) :
    OutcomesAlike region (compileToFile split optimize r o w s t)
      (compileToFile split optimize r o w s u) := by
  have hbegun : OutcomesAlike region (begun optimize r w s t) (begun optimize r w s u) :=
    ⟨u, h, rfl⟩
  unfold compileToFile
  -- the compilation itself does not see the tree
  cases hresult : (compile optimize r w s).result with
  | error failure =>
    simp only [hresult]
    exact discard_alike hbegun (hin.mono (by simp [Output.files])) []
  | ok shader =>
    simp only [hresult]
    exact saveShader_alike hbegun hin shader.packed

/-! ### Independent runs -/

/-- The places of the files of a compilation. -/
def Output.places (o : Output) (t : FileTree) : List Place :=
  o.files.filterMap fun path => (t.locate path).toOption

/-- The places that reading the paths of a compilation passes through or comes to. -/
def Output.trails (o : Output) (t : FileTree) : List Place := o.files.flatMap t.trail

/-- No file of the one compilation is, or is passed through on the way to, a file of the other
    one. -/
structure Independent (t : FileTree) (o o' : Output) : Prop where
  forth : ∀ place ∈ o.places t, place ∉ o'.trails t
  back : ∀ place ∈ o'.places t, place ∉ o.trails t

theorem Independent.symm (h : Independent t o o') : Independent t o' o := ⟨h.back, h.forth⟩

theorem Output.mem_places {path : String} {place : Place} (hpath : path ∈ o.files)
    (hplace : t.locate path = .ok place) : place ∈ o.places t :=
  List.mem_filterMap.mpr ⟨path, hpath, by rw [hplace]; rfl⟩

theorem staysIn_trails (o : Output) (t : FileTree) : t.StaysIn o.files (o.trails t) :=
  fun _ hpath _ hplace => List.mem_flatMap.mpr ⟨_, hpath, hplace⟩

/-- What is on no trail of a compilation is not changed by it, also where it is not the first. -/
theorem node?_of_not_mem_trails {others : List String} (hbefore : t.Changes u others)
    (hchanges : u.Changes v o.files) {place : Place} (hplace : place ∉ o.trails t) :
    v.node? place = u.node? place := by
  by_cases htop : place = []
  · rw [htop]
    rfl
  · refine hchanges.elsewhere place fun path hpath hn => ?_
    rcases FileTree.mem_trail_of_locate (hbefore.names.mp hn).1 with hnil | hmem
    · exact htop hnil
    · exact hplace (List.mem_flatMap.mpr ⟨path, hpath, hmem⟩)

/-- The trails of an independent compilation are left as they are. -/
theorem Independent.alike (h : Independent t o o') {others : List String}
    (hbefore : t.Changes u others) (hchanges : u.Changes v o.files) : u.Alike v (o'.trails t) :=
  fun place hplace => hchanges.elsewhere place fun _ hpath hn =>
    h.forth place (Output.mem_places hpath (hbefore.names.mp hn).1) hplace

/-- The output of a run to a path. -/
def Run.output (run : Run) (path : String) : Output := ⟨path, run.disassembly⟩

/-- Behind an independent run, a run comes to what it comes to without it. -/
theorem Independent.on_alike {run run' : Run} {path path' : String}
    (h : Independent t (run.output path) (run'.output path')) :
    OutcomesAlike ((run'.output path').trails t) (run'.on path' t)
      (run'.on path' (run.on path t).tree) :=
  compileToFile_alike _ _ _ _ _ _ (h.alike (.refl t []) (changes_compileToFile ..)) (staysIn_trails _ t)

/-- **Independent runs commute.** Each of two runs comes to what it comes to alone, its result
    with all errors, its events and its actions, whether the other one comes before it or not; and
    in both orders they leave the same at every place. -/
theorem independent_runs_commute {run run' : Run} {path path' : String}
    (h : Independent t (run.output path) (run'.output path')) :
    let first := run.on path t
    let first' := run'.on path' t
    let second := run.on path first'.tree
    let second' := run'.on path' first.tree
    (second.toOutcome = first.toOutcome ∧ second.actions = first.actions) ∧
      (second'.toOutcome = first'.toOutcome ∧ second'.actions = first'.actions) ∧
      ∀ place, second'.tree.node? place = second.tree.node? place := by
  intro first first' second second'
  have hsecond : OutcomesAlike ((run.output path).trails t) first second := h.symm.on_alike
  have hsecond' : OutcomesAlike ((run'.output path').trails t) first' second' := h.on_alike
  refine ⟨⟨hsecond.toOutcome_eq, hsecond.actions_eq⟩,
    ⟨hsecond'.toOutcome_eq, hsecond'.actions_eq⟩, fun place => ?_⟩
  -- the trees are compared where the one run reads, where the other one does, and elsewhere
  have hchanges : t.Changes first.tree (run.output path).files := changes_compileToFile ..
  have hchanges' : t.Changes first'.tree (run'.output path').files := changes_compileToFile ..
  have hafter : first'.tree.Changes second.tree (run.output path).files :=
    changes_compileToFile ..
  have hafter' : first.tree.Changes second'.tree (run'.output path').files :=
    changes_compileToFile ..
  by_cases hplace : place ∈ (run.output path).trails t
  · rw [h.symm.alike hchanges hafter' place hplace, hsecond.tree_alike place hplace]
  by_cases hplace' : place ∈ (run'.output path').trails t
  · rw [h.alike hchanges' hafter place hplace', hsecond'.tree_alike place hplace']
  have hstart := FileTree.Changes.refl t []
  rw [node?_of_not_mem_trails hchanges hafter' hplace',
    node?_of_not_mem_trails hstart hchanges hplace,
    node?_of_not_mem_trails hchanges' hafter hplace,
    node?_of_not_mem_trails hstart hchanges' hplace']

/-- A tree with one directory. -/
def sampleTree : FileTree := .set .empty ["d"] .directory

/-- Two runs whose files stand in different directories, one of them below the other. -/
theorem sample_runs_commute :
    let run := sampleRun "a" true
    let run' := sampleRun "b" true
    Independent sampleTree (run.output "o") (run'.output "d/./o") ∧
      (run.on "o" (run'.on "d/./o" sampleTree).tree).toOutcome =
        (run.on "o" sampleTree).toOutcome ∧
      ∀ place, (run'.on "d/./o" (run.on "o" sampleTree).tree).tree.node? place =
        (run.on "o" (run'.on "d/./o" sampleTree).tree).tree.node? place := by
  intro run run'
  have h : Independent sampleTree (run.output "o") (run'.output "d/./o") :=
    ⟨by decide +kernel, by decide +kernel⟩
  obtain ⟨⟨houtcome, -⟩, -, htree⟩ := independent_runs_commute h
  exact ⟨h, houtcome, htree⟩

end ShaderPack.Compilation
