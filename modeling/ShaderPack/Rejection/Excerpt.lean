import ShaderPack.Rejection.Basic
import ShaderPack.Text.Lines

namespace ShaderPack

/-- What becomes of a count of 32 bits that has come to its end. -/
inductive Overflow
  /-- There is no number behind the last one. -/
  | checked
  /-- The count goes on at 0. -/
  | wrapping
  deriving DecidableEq, Repr

namespace Rejection

/-!
# Excerpts of a rejected source

An excerpt shows the lines around the one that a rejection names, each with its number, and
marks that line and, under it, the column.  A rejection that names no place has the whole
source shown.

Lines are counted in 32 bits, and a text is padded to 65535 places at most.  `excerpt?` gives
up where one of these does not suffice.  `excerpt` is the text of an excerpt that is not given
up, with the numbers of a count that goes on at its end.
-/

/-- Lines shown before the named one. -/
def linesBefore : Nat := 10

/-- Lines shown after the first one. -/
def linesAfterFirst : Nat := 20

/-- The first and last line to show, or nothing if the whole source is shown. -/
def window? (r : Rejection) : Option (Nat × Nat) :=
  if r.line = 0 then none
  else
    let first := max 1 (r.line.toNat - linesBefore)
    some (first, min (first + linesAfterFirst) placeLimit)

/-- The first and last number of a line that is shown. -/
def range (r : Rejection) : Nat × Nat := r.window?.getD (1, placeLimit)

/-- A line with its number, the number being at least three characters wide. -/
def numbered (lead : String) (number : Nat) (text : String) : String :=
  lead ++ Text.padLeft 3 (toString number) ++ ": " ++ text ++ "\n"

/-- The place of the caret: the named column, at the latest behind the end of the line. -/
def caretPlace (r : Rejection) (text : List Char) : Nat :=
  min r.column.toNat (Text.width text + 1)

/-- The caret at its place. -/
def caret (r : Rejection) (text : List Char) : String := Text.padLeft (r.caretPlace text) "^"

/-- What an excerpt shows for a line. -/
def shownLine (r : Rejection) (line : Nat) (text : List Char) : String :=
  if line = r.line.toNat then
    "\n" ++ numbered ">>> " line (.ofList text) ++
      numbered ">>> " r.column.toNat (r.caret text) ++ "\n"
  else numbered "    " line (.ofList text)

/-! ### Counting lines -/

/-- The number behind another one. -/
def next? (o : Overflow) (number : UInt32) : Option UInt32 :=
  if number.toNat = placeLimit ∧ o = .checked then none else some (number + 1)

/-- The lines that an excerpt shows out of `texts`, with their numbers, if the first text has
    this number.  The number behind it is worked out before anything else, even before it is
    known whether there is a text. -/
def shownFrom? (o : Overflow) (r : Rejection) (number : UInt32) :
    List (List Char) → Option (List (List Char × Nat))
  | [] => (next? o number).map fun _ => []
  | text :: texts => do
    let following ← next? o number
    if r.range.2 < number.toNat then return []
    let rest ← r.shownFrom? o following texts
    return if number.toNat < r.range.1 then rest else (text, number.toNat) :: rest

/-- The lines of a source that an excerpt shows, with their numbers. -/
def shownLines? (o : Overflow) (r : Rejection) (source : String) :
    Option (List (List Char × Nat)) :=
  r.shownFrom? o 1 (Text.lines source.toList)

/-- The lines that an excerpt shows if the count goes on at its end. -/
def shownLines (r : Rejection) (source : String) : List (List Char × Nat) :=
  (r.shownLines? .wrapping source).getD []

/-! ### Excerpts -/

/-- The largest width to which a text is padded. -/
def widthLimit : Nat := 0xffff

/-- Whether a caret under a line can be padded to its place. -/
def isPaddable (r : Rejection) (line : Nat) (text : List Char) : Bool :=
  line ≠ r.line.toNat || r.caretPlace text ≤ widthLimit

/-- The text of an excerpt that shows these lines. -/
def excerptOf (r : Rejection) (shown : List (List Char × Nat)) : String :=
  "Code:\n---\n" ++ .join (shown.map fun (text, line) => r.shownLine line text) ++ "---\n"

/-- The text of the excerpt of a source. -/
def excerpt (r : Rejection) (source : String) : String := r.excerptOf (r.shownLines source)

/-- The excerpt of a source, unless its lines are too many to count or its caret is too far to
    the right. -/
def excerpt? (o : Overflow) (r : Rejection) (source : String) : Option String := do
  let shown ← r.shownLines? o source
  if shown.all fun (text, line) => r.isPaddable line text then return r.excerptOf shown
  else none

end Rejection

end ShaderPack
