import ShaderPack.FileTree.Basic

namespace ShaderPack

/-!
# Actions on a file tree

The elementary steps by which files are written: each happens as a whole or, with an error,
not at all.  A renamed file takes the place of another file in one step.

`attempt` performs actions until one fails; `replay` performs all of a list and passes over
those that fail, so it tells what a tree looks like after any number of recorded actions.
-/

/-- An elementary step. -/
inductive Action
  /-- Makes an empty file, or empties the one that is there. -/
  | create (path : String)
  /-- Writes more bytes at the end of a file. -/
  | append (path : String) (bytes : Bytes)
  /-- Waits until a file is kept safe. -/
  | sync (path : String)
  /-- Moves a file to a new path, in the stead of a file that is there. -/
  | rename (old new : String)
  /-- Removes a file. -/
  | remove (path : String)
  deriving DecidableEq, Repr

namespace FileTree

/-- The content of the file at a place. -/
def content (t : FileTree) (place : Place) : Except FileError Bytes :=
  match t.node? place with
  | none => .error .notFound
  | some .directory => .error .isADirectory
  | some (.file bytes) => .ok bytes

/-- The place and the content of the file that a path names; a path that ends with a slash
    names no file. -/
def file (t : FileTree) (path : String) : Except FileError (Place × Bytes) := do
  let place ← t.locate path
  let bytes ← t.content place
  if Path.endsInSlash path then throw .notADirectory else return (place, bytes)

/-- The content of the file that a path names. -/
def read (t : FileTree) (path : String) : Except FileError Bytes := (·.2) <$> t.file path

/-- The tree with a new directory. -/
def makeDirectory (t : FileTree) (path : String) : Except FileError FileTree := do
  return t.set (← t.locate path) .directory

/-- The tree after an action. -/
def perform (t : FileTree) : Action → Except FileError FileTree
  | .create path => do
    let place ← t.locate path
    if Path.endsInSlash path ∨ t.node? place = some .directory then throw .isADirectory
    else return t.set place (.file [])
  | .append path bytes => do
    let (place, before) ← t.file path
    return t.set place (.file (before ++ bytes))
  | .sync path => do
    let _ ← t.file path
    return t
  | .rename old new => do
    let (source, bytes) ← t.file old
    let target ← t.locate new
    if Path.endsInSlash new then throw .notADirectory
    else if t.node? target = some .directory then throw .isADirectory
    else return (t.erase source).set target (.file bytes)
  | .remove path => do
    let (place, _) ← t.file path
    return t.erase place

/-- The tree after an action, which leaves it as it is if it fails. -/
def performOrKeep (t : FileTree) (action : Action) : FileTree :=
  match t.perform action with
  | .ok after => after
  | .error _ => t

/-- The tree after a list of actions. -/
def replay (t : FileTree) (actions : List Action) : FileTree :=
  actions.foldl performOrKeep t

/-- What became of a list of actions: the tree, those that were attempted, the last one of
    which may have failed, and its error. -/
structure Attempt where
  tree : FileTree
  actions : List Action
  error : Option FileError := none

/-- Performs actions until one fails. -/
def attempt (t : FileTree) : List Action → Attempt
  | [] => ⟨t, [], none⟩
  | action :: rest =>
    match t.perform action with
    | .error e => ⟨t, [action], some e⟩
    | .ok after =>
      let later := after.attempt rest
      { later with actions := action :: later.actions }

/-- An attempt leaves the tree that its actions lead to. -/
theorem tree_attempt (t : FileTree) (actions : List Action) :
    (t.attempt actions).tree = t.replay (t.attempt actions).actions := by
  induction actions generalizing t with
  | nil => rfl
  | cons action rest ih =>
    rw [attempt]
    split
    · next h => simp [replay, performOrKeep, h]
    · next after h =>
      rw [ih after]
      simp [replay, performOrKeep, h]

end FileTree

end ShaderPack
