namespace ShaderPack.Source

/-!
# Leading directives

Directives in front of a shader say nothing any more once the optimizer has run.
`dropDirectives` removes the lines in front that begin with `#`; a directive behind other
text stays.
-/

/-- The text behind the first line feed; nothing if there is none. -/
def afterLine (s : List Char) : List Char :=
  (s.dropWhile (· != '\n')).drop 1

theorem length_afterLine_le (s : List Char) : (afterLine s).length ≤ s.length := by
  have := (List.dropWhile_suffix (l := s) (· != '\n')).length_le
  simp only [afterLine, List.length_drop]
  omega

/-- The text without the lines in front that begin with `#`. -/
def afterDirectives : List Char → List Char
  | '#' :: rest => afterDirectives (afterLine rest)
  | s => s
termination_by s => s.length
decreasing_by
  have := length_afterLine_le rest
  simp only [List.length_cons]
  omega

/-- A source without its leading directives. -/
def dropDirectives (source : String) : String :=
  .ofList (afterDirectives source.toList)

end ShaderPack.Source
