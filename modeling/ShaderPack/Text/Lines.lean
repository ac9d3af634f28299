import ShaderPack.Text.Basic

namespace ShaderPack.Text

/-!
# Lines of a text

A line feed ends a line and one carriage return before it belongs to the ending.  Text
after the last line feed is a line of its own unless it is empty, and keeps its carriage
returns.
-/

/-- A line without the carriage return that belongs to its ending. -/
def dropReturn (line : List Char) : List Char :=
  if line.getLast? = some '\r' then line.dropLast else line

/-- The lines of a text without their endings. -/
def lines (s : List Char) : List (List Char) :=
  let parts := pieces '\n' s
  let ended := parts.dropLast.map dropReturn
  match parts.getLast? with
  | none | some [] => ended
  | some last => ended ++ [last]

end ShaderPack.Text
