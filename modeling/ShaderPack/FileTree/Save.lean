import ShaderPack.FileTree.Action

namespace ShaderPack

/-!
# Saving a file as a whole

A file is saved by way of a temporary sibling: the bytes are written there, piece by piece,
and only a complete sibling is moved to the path.  When a step fails the sibling is removed
and what stood at the path stays.
-/

/-- How a system cuts the bytes of a file into writes. -/
structure Splitting where
  pieces : Bytes → List Bytes
  flatten_pieces : ∀ bytes, (pieces bytes).flatten = bytes

/-- All bytes in one write. -/
def Splitting.whole : Splitting := ⟨fun bytes => [bytes], by simp⟩

namespace FileTree

/-- The temporary sibling of a path. -/
def temporary (path : String) : String := path ++ ".tmp"

/-- The actions that save bytes at a path, if all goes well. -/
def savingActions (split : Splitting) (path : String) (bytes : Bytes) : List Action :=
  .create (temporary path) ::
    ((split.pieces bytes).map (.append (temporary path)) ++
      [.sync (temporary path), .rename (temporary path) path])

/-- Saves bytes at a path. -/
def save (t : FileTree) (split : Splitting) (path : String) (bytes : Bytes) : Attempt :=
  let a := t.attempt (savingActions split path bytes)
  match a.error with
  | none => a
  | some _ =>
    let removal := Action.remove (temporary path)
    { a with tree := a.tree.performOrKeep removal, actions := a.actions ++ [removal] }

end FileTree

end ShaderPack
