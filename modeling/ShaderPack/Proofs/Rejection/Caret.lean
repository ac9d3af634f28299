import ShaderPack.Proofs.Rejection.Excerpt

namespace ShaderPack.Rejection

open Text

/-!
# Carets — how far from the named column

The two marked rows of an excerpt begin alike, but for the numbers in them: that of the line in the
one and that of the column in the other.  A number takes at least three places and as many as it has
digits.  So the caret stands under the named column exactly if both numbers take the same places
(`caret_offset`); with the first column of the thousandth line it does not (`caret_astray`).
-/

variable {r : Rejection} {source : String} {text : List Char}

/-- The places that a number takes in a row. -/
def places (number : Nat) : Nat := max 3 (Nat.toDigits 10 number).length

theorem length_placed (number : Nat) : (placed number).length = places number := by
  rw [placed, places, List.length_append, List.length_replicate]
  omega

/-- The part of a row in front of its text. -/
theorem row_eq (lead : String) (number : Nat) (text : List Char) :
    row lead number text = row lead number [] ++ text := by
  rw [row, row, List.append_nil]

theorem length_row_nil (lead : String) (number : Nat) :
    (row lead number []).length = lead.length + places number + 2 := by
  have hcolon : (": ".toList).length = 2 := rfl
  simp only [row, List.length_append, length_placed, hcolon, String.length_toList, List.length_nil,
    Nat.add_zero]

/-! ### The marked rows taken apart -/

/-- The marked rows of an excerpt, one below the other, and the first ones that are.  In the upper
    one, the text of the named line stands behind a lead, and the character of the named column
    behind the front of the text; in the lower one, the caret stands behind a blank part. -/
structure Marks (r : Rejection) (source : String) (text : List Char) where
  before : List (List Char)
  lead : List Char
  front : List Char
  named : Char
  behind : List Char
  blank : List Char
  after : List (List Char)
  rows_eq : r.rows source = before ++ (lead ++ text) :: (blank ++ ['^']) :: after
  text_eq : text = front ++ named :: behind
  column_eq : front.length + 1 = r.column.toNat
  isMarked_before : ∀ row ∈ before, isMarked row = false
  isMarked_text : isMarked (lead ++ text) = true
  isMarked_caret : isMarked (blank ++ ['^']) = true
  notMem_blank : '^' ∉ blank

namespace Marks

/-- The offset of the character of the named column in its row. -/
def columnOffset (m : Marks r source text) : Nat := (m.lead ++ m.front).length

/-- The offset of the caret in its row. -/
def caretOffset (m : Marks r source text) : Nat := m.blank.length

end Marks

/-- The part of the row of a caret in front of it, if the column is one of the text. -/
def blankPart (r : Rejection) : List Char :=
  row ">>> " r.column.toNat (List.replicate (r.column.toNat - 1) ' ')

theorem row_caretText (h : r.column.toNat ≤ width text) :
    row ">>> " r.column.toNat (r.caretText text) = r.blankPart ++ ['^'] := by
  rw [caretText, Nat.min_eq_left (Nat.le_succ_of_le h), blankPart, row, row,
    List.append_assoc _ _ ['^']]

section

variable (hshown : (text, r.line.toNat) ∈ r.linesShown source)
  (hcolumn : r.column.toNat ≤ width text)

include hshown hcolumn

/-- There are marked rows if the named line has the named column. -/
theorem exists_marks (hpos : 1 ≤ r.column.toNat) (hle : r.column.toNat ≤ text.length) :
    Nonempty (Marks r source text) := by
  obtain ⟨before, after, hrows, hbefore, -⟩ := rows_named hshown
  have hlt : r.column.toNat - 1 < text.length := by omega
  have hblank : '^' ∉ r.blankPart := notMem_row (by decide) rfl (by decide) (by simp)
  rw [row_eq ">>> " r.line.toNat text, row_caretText hcolumn] at hrows
  exact ⟨{
    before, after
    blank := r.blankPart
    lead := row ">>> " r.line.toNat []
    front := text.take (r.column.toNat - 1)
    named := text[r.column.toNat - 1]
    behind := text.drop (r.column.toNat - 1 + 1)
    rows_eq := hrows
    text_eq := by rw [← List.drop_eq_getElem_cons hlt, List.take_append_drop]
    column_eq := by rw [List.length_take]; omega
    isMarked_before := hbefore
    isMarked_text := rfl
    isMarked_caret := rfl
    notMem_blank := hblank }⟩

/-- **The caret is as far to the right of the named column** as the number of the column takes more
    places than that of the line. -/
theorem Marks.offsets (m : Marks r source text) :
    m.caretOffset + places r.line.toNat = m.columnOffset + places r.column.toNat := by
  -- the marked rows begin with these two
  obtain ⟨before, after, hrows, hbefore, -⟩ := rows_named hshown
  have hmarked := congrArg (List.filter isMarked) (m.rows_eq.symm.trans hrows)
  simp only [List.filter_append, filter_isMarked_eq_nil m.isMarked_before,
    filter_isMarked_eq_nil hbefore, List.nil_append, List.filter_cons_of_pos m.isMarked_text,
    List.filter_cons_of_pos m.isMarked_caret, List.filter_cons_of_pos (isMarked_row _ _),
    List.cons.injEq] at hmarked
  obtain ⟨hnamed, hcaret, -⟩ := hmarked
  have hlead : m.lead = row ">>> " r.line.toNat [] :=
    List.append_cancel_right (hnamed.trans (row_eq _ _ _))
  have hblank : m.blank = r.blankPart :=
    List.append_cancel_right (hcaret.trans (row_caretText hcolumn))
  have hplace := m.column_eq
  rw [caretOffset, columnOffset, hlead, hblank, blankPart, row_eq, List.length_append,
    List.length_append, length_row_nil, length_row_nil, List.length_replicate]
  omega

end

/-- **The caret stands under the named column exactly if the numbers of line and column take the
    same places.**  This is so for every line that the source has and every column of its text, if
    that is ASCII: the text and the caret have marked rows, one below the other, and the caret
    is farther to the right by the places that the number of the column takes more, or farther to
    the left by those that it takes less.  These are the rows of the excerpt that is printed, if it
    is not given up. -/
theorem caret_offset (hline : 1 ≤ r.line.toNat)
    (htext : (lines source.toList)[r.line.toNat - 1]? = some text)
    (hascii : ∀ c ∈ text, c.toNat < 128) (hpos : 1 ≤ r.column.toNat)
    (hcolumn : r.column.toNat ≤ width text) :
    (∀ o printed, r.excerpt? o source = some printed →
      pieces '\n' printed.toList = r.rows source) ∧
    Nonempty (Marks r source text) ∧ ∀ m : Marks r source text,
      m.caretOffset + places r.line.toNat = m.columnOffset + places r.column.toNat ∧
      (m.caretOffset = m.columnOffset ↔ places r.line.toNat = places r.column.toNat) := by
  have hshown : (text, r.line.toNat) ∈ r.linesShown source :=
    mem_linesShown.mpr ⟨hline, htext, showsAt_line hline⟩
  have hle : r.column.toNat ≤ text.length := width_eq_length hascii ▸ hcolumn
  refine ⟨fun _ _ => pieces_of_printed, exists_marks hshown hcolumn hpos hle, fun m => ?_⟩
  have hoffsets := m.offsets hshown hcolumn
  exact ⟨hoffsets, by omega⟩

/-- The caret stands under the third column of a second line. -/
theorem caret_offset_second :
    (lines "a\nbcd\n".toList)[1]? = some "bcd".toList ∧
    (∀ c ∈ "bcd".toList, c.toNat < 128) ∧ 3 ≤ width "bcd".toList ∧
    (∃ printed, excerpt? .checked ⟨2, 3, ""⟩ "a\nbcd\n" = some printed ∧
      pieces '\n' printed.toList = rows ⟨2, 3, ""⟩ "a\nbcd\n") ∧
    Nonempty (Marks ⟨2, 3, ""⟩ "a\nbcd\n" "bcd".toList) ∧
    ∀ m : Marks ⟨2, 3, ""⟩ "a\nbcd\n" "bcd".toList, m.caretOffset = m.columnOffset := by
  have htext : (lines "a\nbcd\n".toList)[1]? = some "bcd".toList := by decide
  have hascii : ∀ c ∈ "bcd".toList, c.toNat < 128 := by simp
  have hcolumn : 3 ≤ width "bcd".toList := by decide
  have hplaces : places 2 = places 3 := by decide
  obtain ⟨hrows, hmarks, hoffsets⟩ :=
    caret_offset (r := ⟨2, 3, ""⟩) (by decide) htext hascii (by decide) hcolumn
  obtain ⟨printed, hprinted⟩ : ∃ printed, excerpt? .checked ⟨2, 3, ""⟩ "a\nbcd\n" = some printed :=
    Option.isSome_iff_exists.mp (by decide)
  exact ⟨htext, hascii, hcolumn, ⟨printed, hprinted, hrows _ _ hprinted⟩, hmarks,
    fun m => (hoffsets m).2.mpr hplaces⟩

/-- A thousand lines, of which the last one has one character and the others have none. -/
def thousandLines : String := .ofList (List.replicate 999 '\n' ++ ['a'])

/-- A rejection that names that character. -/
def thousandth : Rejection := ⟨1000, 1, ""⟩

/-- The line behind empty ones. -/
theorem getElem?_lines_replicate (count : Nat) (s : List Char) :
    (lines (List.replicate count '\n' ++ s))[count]? = (lines s)[0]? := by
  rw [lines_replicate, List.getElem?_append_right (by simp), List.length_replicate, Nat.sub_self]

/-- Empty lines count. -/
theorem length_lines_replicate (count : Nat) (s : List Char) :
    (lines (List.replicate count '\n' ++ s)).length = count + (lines s).length := by
  rw [lines_replicate, List.length_append, List.length_replicate]

/-- The caret does not stand under the first column of a thousandth line. -/
theorem caret_astray :
    (lines thousandLines.toList)[999]? = some ['a'] ∧ (∀ c ∈ ['a'], c.toNat < 128) ∧
    1 ≤ thousandth.column.toNat ∧ thousandth.column.toNat ≤ width ['a'] ∧
    (∃ printed, thousandth.excerpt? .checked thousandLines = some printed ∧
      pieces '\n' printed.toList = thousandth.rows thousandLines) ∧
    Nonempty (Marks thousandth thousandLines ['a']) ∧
    ∀ m : Marks thousandth thousandLines ['a'], m.caretOffset ≠ m.columnOffset := by
  have hlines : thousandLines.toList = List.replicate 999 '\n' ++ ['a'] := String.toList_ofList
  have htext : (lines thousandLines.toList)[999]? = some ['a'] :=
    hlines ▸ getElem?_lines_replicate 999 ['a']
  have hshown : (['a'], thousandth.line.toNat) ∈ thousandth.linesShown thousandLines :=
    mem_linesShown.mpr ⟨by decide, htext, showsAt_line (by decide)⟩
  have hcolumn : thousandth.column.toNat ≤ width ['a'] := by decide
  have hcount : ¬CountEnds .checked thousandth thousandLines := by
    rintro ⟨-, hmany, -⟩
    rw [hlines, length_lines_replicate] at hmany
    exact absurd hmany (by decide)
  have hcaret : ¬CaretEnds thousandth thousandLines := by
    rintro ⟨text, -, hwide⟩
    have hone : thousandth.column.toNat = 1 := rfl
    omega
  have hprinted := excerpt?_eq_some_iff.mpr ⟨⟨hcount, hcaret⟩, rfl⟩
  refine ⟨htext, by simp, by decide, hcolumn, ⟨_, hprinted, pieces_of_printed hprinted⟩,
    exists_marks hshown hcolumn (by decide) (by decide), fun m heq => ?_⟩
  have hoffsets := m.offsets hshown hcolumn
  have hplaces : places thousandth.line.toNat = 4 ∧ places thousandth.column.toNat = 3 := by decide
  omega

end ShaderPack.Rejection
