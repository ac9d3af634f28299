import ShaderPack.Bytes
import ShaderPack.FileTree.Path

namespace ShaderPack

/-!
# File trees

A file tree holds directories and files under its top directory, which is always there.
`node?` is the view of a tree: what stands at a place.  `set` and `erase` change one place
and leave every other as it is (`node?_set`, `node?_erase`).

`locate` reads a path in a tree: every name before the last one leads to a directory, and
the last one may be free.  Errors are those of the first step that fails.
-/

/-- What stands at a place. -/
inductive Node
  | directory
  | file (content : Bytes)
  deriving DecidableEq, Repr

/-- Why an action on a file tree fails. -/
inductive FileError
  | notFound
  | notADirectory
  | isADirectory
  | nameTooLong
  /-- The path holds the character that ends paths. -/
  | nulInPath
  deriving DecidableEq, Repr

/-- The wording of a file error. -/
def FileError.message : FileError → String
  | .notFound => "No such file or directory (os error 2)"
  | .notADirectory => "Not a directory (os error 20)"
  | .isADirectory => "Is a directory (os error 21)"
  | .nameTooLong => "File name too long (os error 36)"
  -- this one is found before the system is asked, so it has no number
  | .nulInPath => "file name contained an unexpected NUL byte"

/-- What stands under the top directory, each place once. -/
structure FileTree where
  entries : List (Place × Node)
  deriving DecidableEq, Repr

namespace FileTree

/-- The tree of an empty top directory. -/
def empty : FileTree := ⟨[]⟩

instance : Inhabited FileTree := ⟨empty⟩

/-- What stands at a place. -/
def node? (t : FileTree) (place : Place) : Option Node :=
  if place = [] then some .directory
  else (t.entries.find? (·.1 = place)).map (·.2)

/-- The tree without what stands at a place. -/
def erase (t : FileTree) (place : Place) : FileTree :=
  ⟨t.entries.filter (·.1 ≠ place)⟩

/-- The tree with a node at a place, in the stead of what stood there. -/
def set (t : FileTree) (place : Place) (node : Node) : FileTree :=
  ⟨(place, node) :: (t.erase place).entries⟩

/-- Erasing a place empties it and leaves every other. -/
theorem node?_erase (t : FileTree) {place : Place} (h : place ≠ []) (other : Place) :
    (t.erase place).node? other = if other = place then none else t.node? other := by
  by_cases htop : other = []
  · simp [node?, htop, Ne.symm h]
  · simp only [node?, htop, if_false, erase, List.find?_filter]
    split
    · next hp => simp [hp]
    · next hp =>
      congr 2
      funext e
      by_cases he : e.1 = other
      · simp [he, hp]
      · simp [he]

/-- Setting a place changes that place and no other. -/
theorem node?_set (t : FileTree) {place : Place} (h : place ≠ []) (node : Node)
    (other : Place) :
    (t.set place node).node? other = if other = place then some node else t.node? other := by
  by_cases hp : other = place
  · simp [node?, set, hp, h]
  · rw [if_neg hp, ← (t.node?_erase h other).trans (if_neg hp)]
    by_cases htop : other = []
    · simp [node?, htop]
    · simp [node?, set, htop, Ne.symm hp]

/-! ### Reading paths -/

/-- Goes from a directory to the directory of a name. -/
def enter (t : FileTree) (directory : Place) (name : String) : Except FileError Place :=
  if name = "." then .ok directory
  else if name = ".." then .ok directory.dropLast
  else if Path.isTooLong name then .error .nameTooLong
  else match t.node? (directory ++ [name]) with
    | none => .error .notFound
    | some (.file _) => .error .notADirectory
    | some .directory => .ok (directory ++ [name])

/-- The place of a name in a directory. -/
def last (directory : Place) (name : String) : Except FileError Place :=
  if name = "." then .ok directory
  else if name = ".." then .ok directory.dropLast
  else if Path.isTooLong name then .error .nameTooLong
  else .ok (directory ++ [name])

/-- The place that a path means. -/
def locate (t : FileTree) (path : String) : Except FileError Place := do
  if path.toList.contains '\x00' then throw .nulInPath
  else if path = "" then throw .notFound
  else
    let steps := Path.steps path
    let directory ← steps.dropLast.foldlM t.enter []
    match steps.getLast? with
    | none => return directory
    | some name => last directory name

/-! ### Listing -/

/-- Whether a place comes before another one, or is it: by the first name that differs, a
    directory before what it holds. -/
def placeLE : Place → Place → Bool
  | [], _ => true
  | _ :: _, [] => false
  | a :: p, b :: q => a < b || (a = b && placeLE p q)

/-- Everything under the top directory: directories before what they hold, names in order. -/
def listing (t : FileTree) : List (Place × Node) :=
  t.entries.mergeSort fun a b => placeLE a.1 b.1

end FileTree

end ShaderPack
