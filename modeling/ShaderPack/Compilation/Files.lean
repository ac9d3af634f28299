import ShaderPack.Compilation.Basic
import ShaderPack.FileTree.Save
import ShaderPack.Pack.Encode

namespace ShaderPack.Compilation

open Journal (Event)

/-!
# Compilations to files

The packed shader is saved at the output path and, if asked for, the final source beside it.
A compilation that fails leaves neither file behind, so that nothing stale is taken for its
result.  The side file alone never makes a compilation fail.
-/

/-- Where the result of a compilation goes. -/
structure Output where
  /-- File of the packed shader. -/
  path : String
  /-- Whether the final source is saved beside it. -/
  disassembly : Bool := false
  deriving DecidableEq, Repr

/-- File of the final source. -/
def Output.disassemblyPath (o : Output) : String := o.path ++ ".disasm"

/-- What a compilation to files comes to; `actions` are all actions on the file tree, in
    order. -/
structure FileOutcome (σ : Type) extends Outcome σ where
  tree : FileTree
  actions : List Action

/-- What removing a file left by an earlier compilation records. -/
def removalEvents (path : String) : Except FileError FileTree → List Event
  | .ok _ => [.staleRemoved path]
  | .error .notFound => []
  | .error e => [.staleKept path e.message]

/-- The failure to save a file. -/
def saveFailure (path : String) (e : FileError) : Failure :=
  .unwritten (path ++ ": " ++ e.message)

variable {σ : Type}

/-- A failed compilation whose output files are removed; the removals are recorded after the
    events so far and before `closing`. -/
def discard (o : Output) (out : FileOutcome σ) (closing : List Event) : FileOutcome σ :=
  let main := Action.remove o.path
  let side := Action.remove o.disassemblyPath
  -- the side file is removed from what the first removal leaves
  let tree := out.tree.performOrKeep main
  { out with
    tree := tree.performOrKeep side
    actions := out.actions ++ [main, side]
    events := out.events ++ removalEvents o.path (out.tree.perform main) ++
      removalEvents o.disassemblyPath (tree.perform side) ++ closing }

/-- A compilation that fails after its source is scanned. -/
def failScanned (o : Output) (out : FileOutcome σ) (failure : Failure) : FileOutcome σ :=
  discard o { out with result := .error failure } (failing .scanned failure)

/-- Saves the final source beside the packed shader, if asked for. -/
def saveSide (split : Splitting) (o : Output) (source : String) (out : FileOutcome σ) :
    FileOutcome σ :=
  if o.disassembly then
    let saved := out.tree.save split o.disassemblyPath (Bytes.utf8 source)
    { out with
      tree := saved.tree
      actions := out.actions ++ saved.actions
      events := out.events ++ (saved.error.map fun e =>
        Event.disassemblyUnwritten (saveFailure o.disassemblyPath e)).toList }
  else out

/-- Saves a compiled shader. -/
def saveShader (split : Splitting) (o : Output) (packed : PackedShader)
    (out : FileOutcome σ) : FileOutcome σ :=
  let out := { out with events := out.events ++ packed.encodeEvents }
  match packed.encode with
  | .error fault => failScanned o out fault.failure
  | .ok bytes =>
    let saved := out.tree.save split o.path bytes
    let out := { out with tree := saved.tree, actions := out.actions ++ saved.actions }
    match saved.error with
    | some e => failScanned o out (saveFailure o.path e)
    | none =>
      saveSide split o packed.source
        { out with events := out.events ++ [.entered .scanned .serialized] }

/-- Compiles a source to files of a tree. -/
def compileToFile (split : Splitting) (optimize : Optimizer) (r : Request) (o : Output)
    (w : Writer σ) (s : σ) (t : FileTree) : FileOutcome σ :=
  let out : FileOutcome σ := { compile optimize r w s with tree := t, actions := [] }
  match out.result with
  | .error _ => discard o out []
  | .ok shader => saveShader split o shader.packed out

/-- Compiles a source that can be reported to files of a tree. -/
def compileToFile? (overflow : Overflow) (split : Splitting) (optimize : Optimizer) (r : Request)
    (o : Output) (w : Writer σ) (s : σ) (t : FileTree) : Option (FileOutcome σ) :=
  if isReportable overflow optimize r then some (compileToFile split optimize r o w s t) else none

end ShaderPack.Compilation
