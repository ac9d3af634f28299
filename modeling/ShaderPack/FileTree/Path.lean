import ShaderPack.Text.Basic

namespace ShaderPack

/-!
# Paths

A path is a text of names between slashes, read from the directory that a file tree stands
for.  `.` is the directory itself and `..` the one above it.
-/

/-- A place in a file tree: the names on the way from its top. -/
abbrev Place := List String

namespace Path

/-- The names on a path, in order; slashes in a row count once. -/
def steps (path : String) : List String :=
  ((Text.pieces '/' path.toList).filter (· ≠ [])).map .ofList

/-- Whether a path ends with a slash, and so means a directory. -/
def endsInSlash (path : String) : Bool := path.toList.getLast? = some '/'

/-- Bytes that a name may have. -/
def maxName : Nat := 255

/-- Whether a name has too many bytes. -/
def isTooLong (name : String) : Bool := maxName < Text.width name.toList

end Path

end ShaderPack
