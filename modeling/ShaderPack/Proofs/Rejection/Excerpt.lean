import ShaderPack.Proofs.Rejection.Counting
import ShaderPack.Proofs.Rejection.Places
import ShaderPack.Proofs.Text.Lines

namespace ShaderPack.Rejection

open Text

/-!
# Excerpts — the lines that are shown

An excerpt is read row by row: `rows` are the pieces between its line feeds.  A line of the source
has one row, which tells its number and its text; the line that the rejection names has two marked
rows with an empty one on each side (`rowsFor`).

* `pieces_excerptOf` — the rows are those of the shown lines, between two rows in front and one
  behind;
* `excerpt?_eq_none_iff`, `excerpt?_eq_some_iff` — when there is no excerpt, and its text if there
  is;
* `rows_named`, `isMarked_rows` — the marked rows, and when there are none.

`excerpt_window` puts these together with the lines that are shown, and `excerpt_given_up` shows
two sources of which there is no excerpt.
-/

variable {r : Rejection} {o : Overflow} {source : String} {text : List Char} {line number : Nat}
  {shown : List (List Char × Nat)}

/-! ### Rows -/

/-- A number in at least three places. -/
def placed (number : Nat) : List Char :=
  List.replicate (3 - (Nat.toDigits 10 number).length) ' ' ++ Nat.toDigits 10 number

/-- A row of an excerpt: what leads it, a number and a text. -/
def row (lead : String) (number : Nat) (text : List Char) : List Char :=
  lead.toList ++ placed number ++ ": ".toList ++ text

/-- The caret under the named column of a text, at the latest behind its end. -/
def caretText (r : Rejection) (text : List Char) : List Char :=
  List.replicate (min r.column.toNat (width text + 1) - 1) ' ' ++ ['^']

/-- The rows that an excerpt has for a line of the source. -/
def rowsFor (r : Rejection) (line : Nat) (text : List Char) : List (List Char) :=
  if line = r.line.toNat then
    [[], row ">>> " line text, row ">>> " r.column.toNat (r.caretText text), []]
  else [row "    " line text]

/-- The rows of an excerpt.  Each of them ends, so the last piece is empty. -/
def rows (r : Rejection) (source : String) : List (List Char) :=
  pieces '\n' (r.excerpt source).toList

/-- The rows for these lines, between two rows in front and one behind. -/
def rowsOf (r : Rejection) (shown : List (List Char × Nat)) : List (List Char) :=
  ["Code:".toList, "---".toList] ++ shown.flatMap (fun p => r.rowsFor p.2 p.1) ++
    ["---".toList, []]

/-- A marked row. -/
def isMarked (row : List Char) : Bool := ">>>".toList.isPrefixOf row

theorem toList_padLeft (number : Nat) :
    (padLeft 3 (toString number)).toList = placed number := by
  have hdigits : (toString number).toList = Nat.toDigits 10 number := Nat.toList_repr
  rw [padLeft, String.toList_append, String.toList_ofList, ← String.length_toList, hdigits, placed]

theorem toList_numbered (lead : String) (number : Nat) (text : List Char) :
    (numbered lead number (.ofList text)).toList = row lead number text ++ ['\n'] := by
  simp only [numbered, row, String.toList_append, toList_padLeft, String.toList_ofList]
  rfl

theorem caret_eq (r : Rejection) (text : List Char) :
    r.caret text = .ofList (r.caretText text) := by
  rw [← String.toList_inj, String.toList_ofList, caret, padLeft, String.toList_append,
    String.toList_ofList, caretText]
  rfl

/-- What is shown for a line are its rows, each with a line feed behind it. -/
theorem toList_shownLine (r : Rejection) (line : Nat) (text : List Char) :
    (r.shownLine line text).toList = (r.rowsFor line text).flatMap (· ++ ['\n']) := by
  unfold shownLine rowsFor
  split
  · simp only [caret_eq, String.toList_append, toList_numbered, List.flatMap_cons,
      List.flatMap_nil, List.nil_append, List.append_nil, List.append_assoc]
    rfl
  · rw [toList_numbered, List.flatMap_cons, List.flatMap_nil, List.append_nil]

theorem notMem_placed {x : Char} (hdigit : x.isDigit = false) (hspace : x ≠ ' ') (number : Nat) :
    x ∉ placed number := by
  have hdigits : (toString number).toList = Nat.toDigits 10 number := Nat.toList_repr
  rw [placed, ← hdigits, List.mem_append, not_or]
  exact ⟨fun hmem => hspace (List.eq_of_mem_replicate hmem), notMem_toString hdigit number⟩

/-- What stands in a row stands in its lead or its text, or it belongs to the number. -/
theorem notMem_row {x : Char} {lead : String} (hlead : x ∉ lead.toList)
    (hdigit : x.isDigit = false) (hcolon : x ∉ ": ".toList) (htext : x ∉ text) :
    x ∉ row lead number text := by
  have hspace : x ≠ ' ' := fun h => hcolon (h ▸ by decide)
  have hnumber : x ∉ placed number := notMem_placed hdigit hspace number
  simp only [row, List.mem_append, not_or]
  exact ⟨⟨⟨hlead, hnumber⟩, hcolon⟩, htext⟩

theorem notMem_caretText (r : Rejection) (text : List Char) : '\n' ∉ r.caretText text := by
  simp [caretText]

/-- No row goes over a line feed. -/
theorem notMem_rowsFor (htext : '\n' ∉ text) : ∀ row ∈ r.rowsFor line text, '\n' ∉ row := by
  unfold rowsFor
  split
  · have hnamed : '\n' ∉ row ">>> " line text := notMem_row (by decide) rfl (by decide) htext
    have hcaret : '\n' ∉ row ">>> " r.column.toNat (r.caretText text) :=
      notMem_row (by decide) rfl (by decide) (r.notMem_caretText text)
    simp [hnamed, hcaret]
  · have hplain : '\n' ∉ row "    " line text := notMem_row (by decide) rfl (by decide) htext
    simp [hplain]

/-! ### The rows of an excerpt -/

/-- **The rows of an excerpt** are those of the lines that it shows. -/
theorem pieces_excerptOf (htexts : ∀ p ∈ shown, '\n' ∉ p.1) :
    pieces '\n' (r.excerptOf shown).toList = r.rowsOf shown := by
  let inner := shown.flatMap fun p => r.rowsFor p.2 p.1
  let ended := ["Code:".toList, "---".toList] ++ inner ++ ["---".toList]
  have htext : (r.excerptOf shown).toList = ended.flatMap (· ++ ['\n']) ++ [] := by
    have hfront : "Code:\n---\n".toList =
        ["Code:".toList, "---".toList].flatMap (· ++ ['\n']) := by decide
    have hbehind : "---\n".toList = ["---".toList].flatMap (· ++ ['\n']) := by decide
    simp only [ended, inner, excerptOf, String.toList_append, String.toList_join, List.flatMap_map,
      toList_shownLine, List.flatMap_append, List.flatMap_assoc, hfront, hbehind, List.append_nil]
  have hended : ∀ row ∈ ended, '\n' ∉ row := by
    simp only [ended, inner, List.forall_mem_append]
    refine ⟨⟨by decide, ?_⟩, by decide⟩
    intro row hrow
    obtain ⟨⟨text, line⟩, hshown, hrow⟩ := List.mem_flatMap.mp hrow
    exact notMem_rowsFor (htexts _ hshown) row hrow
  rw [htext, pieces_flatMap hended, pieces_nil, rowsOf]
  simp only [ended, inner, List.append_assoc]
  rfl

/-- No shown line goes over a line feed. -/
theorem notMem_of_mem_shownLines {p : List Char × Nat} (h : p ∈ r.shownLines source) :
    '\n' ∉ p.1 := by
  rw [shownLines_eq] at h
  obtain ⟨⟨text, place⟩, hshown, rfl⟩ := List.mem_map.mp h
  have hline : text ∈ lines source.toList :=
    List.mem_of_getElem? (mem_linesShown.mp hshown).2.1
  exact notMem_of_mem_lines hline

theorem rows_excerpt (r : Rejection) (source : String) :
    r.rows source = r.rowsOf (withNumbers (r.linesShown source)) := by
  rw [rows, excerpt, pieces_excerptOf fun _ => notMem_of_mem_shownLines, shownLines_eq]

/-! ### Excerpts that are given up -/

/-- The caret of a shown line is too far to the right. -/
def CaretEnds (r : Rejection) (source : String) : Prop :=
  ∃ text, (text, r.line.toNat) ∈ withNumbers (r.linesShown source) ∧
    2 ^ 16 - 1 < min r.column.toNat (width text + 1)

/-- Only the caret of the named line is padded. -/
theorem isPaddable_iff : r.isPaddable line text = true ↔
    (line = r.line.toNat → min r.column.toNat (width text + 1) ≤ 2 ^ 16 - 1) := by
  simp [isPaddable, caretPlace, widthLimit, imp_iff_not_or]

theorem all_isPaddable_iff :
    ((r.shownLines source).all fun p => r.isPaddable p.2 p.1) = true ↔ ¬CaretEnds r source := by
  simp only [List.all_eq_true, isPaddable_iff, shownLines_eq, CaretEnds, not_exists, not_and,
    Nat.not_lt, Prod.forall]
  constructor
  · intro hall text hshown
    exact hall text _ hshown rfl
  · rintro hall text line hshown rfl
    exact hall text hshown

/-- If the count is not given up, it depends on the caret whether there is an excerpt. -/
theorem excerpt?_of_not_countEnds (h : ¬CountEnds o r source) :
    r.excerpt? o source =
      if (r.shownLines source).all fun p => r.isPaddable p.2 p.1 then some (r.excerpt source)
      else none := by
  rw [excerpt?, shownLines?_eq, if_neg h]
  rfl

/-- **There is no excerpt** if the lines are too many to count or the caret is too far to the
    right. -/
theorem excerpt?_eq_none_iff :
    r.excerpt? o source = none ↔ CountEnds o r source ∨ r.CaretEnds source := by
  by_cases hcount : CountEnds o r source
  · rw [excerpt?, shownLines?_eq, if_pos hcount]
    exact iff_of_true rfl (.inl hcount)
  · rw [excerpt?_of_not_countEnds hcount, or_iff_right hcount, ite_eq_right_iff,
      all_isPaddable_iff]
    simp

/-- **Any other excerpt** has its text. -/
theorem excerpt?_eq_some_iff {printed : String} : r.excerpt? o source = some printed ↔
    (¬CountEnds o r source ∧ ¬r.CaretEnds source) ∧ printed = r.excerpt source := by
  constructor
  · intro h
    have hends : ¬(CountEnds o r source ∨ r.CaretEnds source) := fun hends => by
      rw [excerpt?_eq_none_iff.mpr hends] at h
      cases h
    rw [not_or] at hends
    rw [excerpt?_of_not_countEnds hends.1, if_pos (all_isPaddable_iff.mpr hends.2)] at h
    exact ⟨hends, (Option.some.inj h).symm⟩
  · rintro ⟨⟨hcount, hcaret⟩, rfl⟩
    rw [excerpt?_of_not_countEnds hcount, if_pos (all_isPaddable_iff.mpr hcaret)]

/-- What is printed are the rows. -/
theorem pieces_of_printed {printed : String} (h : r.excerpt? o source = some printed) :
    pieces '\n' printed.toList = r.rows source := by
  rw [(excerpt?_eq_some_iff.mp h).2, rows]

/-! ### Marked rows -/

theorem isMarked_row (number : Nat) (text : List Char) : isMarked (row ">>> " number text) = true :=
  rfl

theorem isMarked_plain (number : Nat) (text : List Char) :
    isMarked (row "    " number text) = false := rfl

theorem filter_isMarked_eq_nil {rows : List (List Char)} (h : ∀ row ∈ rows, isMarked row = false) :
    rows.filter isMarked = [] :=
  List.filter_eq_nil_iff.mpr fun row hrow => by rw [h row hrow]; decide

/-- A line that is not named has no marked row. -/
theorem isMarked_rowsFor (hline : line ≠ r.line.toNat) (text : List Char) :
    ∀ row ∈ r.rowsFor line text, isMarked row = false := by
  rw [rowsFor, if_neg hline]
  intro row hrow
  rw [List.mem_singleton.mp hrow]
  exact isMarked_plain line text

/-- Lines without the number of the named one have no marked row. -/
theorem isMarked_flatMap (h : ∀ p ∈ shown, numberAt p.2 ≠ r.line.toNat) :
    ∀ row ∈ (withNumbers shown).flatMap (fun p => r.rowsFor p.2 p.1), isMarked row = false := by
  intro row hrow
  obtain ⟨_, hnumbered, hrow⟩ := List.mem_flatMap.mp hrow
  obtain ⟨p, hmem, rfl⟩ := List.mem_map.mp hnumbered
  exact isMarked_rowsFor (h p hmem) p.1 row hrow

/-- **The named line has two marked rows**, one below the other, and no row before them is marked.
    Nor is any behind them, if the lines are counted. -/
theorem rows_named (h : (text, r.line.toNat) ∈ r.linesShown source) :
    ∃ before after, r.rows source =
        before ++ row ">>> " r.line.toNat text :: row ">>> " r.column.toNat (r.caretText text) ::
          after ∧
      (∀ row ∈ before, isMarked row = false) ∧
      (r.IsCounted source → ∀ row ∈ after, isMarked row = false) := by
  obtain ⟨front, behind, hshown⟩ := List.append_of_mem h
  have hincreasing := r.linesShown_increasing source
  rw [hshown, List.pairwise_append, List.pairwise_cons] at hincreasing
  obtain ⟨-, ⟨hbehind, -⟩, hfront⟩ := hincreasing
  have hle : r.line.toNat ≤ placeLimit := Nat.le_of_lt_succ r.line.toNat_lt
  have hnamed : r.rowsFor (numberAt r.line.toNat) text = [[], row ">>> " r.line.toNat text,
      row ">>> " r.column.toNat (r.caretText text), []] := by
    rw [numberAt_of_le hle]
    exact if_pos rfl
  refine ⟨["Code:".toList, "---".toList] ++
      (withNumbers front).flatMap (fun p => r.rowsFor p.2 p.1) ++ [[]],
    [[]] ++ (withNumbers behind).flatMap (fun p => r.rowsFor p.2 p.1) ++ ["---".toList, []],
    ?_, ?_, fun hcounted => ?_⟩
  · rw [rows_excerpt, rowsOf, hshown, withNumbers, List.map_append, List.map_cons,
      List.flatMap_append, List.flatMap_cons, hnamed]
    simp only [withNumbers, List.append_assoc, List.cons_append, List.nil_append]
  · -- the lines in front have smaller places, and these are their numbers
    simp only [List.forall_mem_append]
    refine ⟨⟨by decide, isMarked_flatMap fun p hp => ?_⟩, by decide⟩
    have hlt : p.2 < r.line.toNat := hfront p hp _ List.mem_cons_self
    rw [numberAt_of_le (by omega)]
    exact Nat.ne_of_lt hlt
  · -- those behind have larger places, which need not be their numbers
    simp only [List.forall_mem_append]
    refine ⟨⟨by decide, isMarked_flatMap fun p hp => ?_⟩, by decide⟩
    have hmem : p ∈ r.linesShown source :=
      hshown ▸ List.mem_append_right front (List.mem_cons_of_mem _ hp)
    rw [numberAt_of_le (place_le hcounted hmem)]
    exact Nat.ne_of_gt (hbehind p hp)

/-- Of ASCII characters, the width is their number. -/
theorem width_eq_length (h : ∀ c ∈ text, c.toNat < 128) : width text = text.length := by
  induction text with
  | nil => rfl
  | cons c text ih =>
    obtain ⟨hc, h⟩ := List.forall_mem_cons.mp h
    have hval : c.val ≤ 127 := UInt32.le_iff_toNat_le.mpr (Nat.le_of_lt_succ hc)
    rw [width_cons, List.length_cons, ih h, Char.utf8Size_eq_one_iff.mpr hval, Nat.add_comm]

end ShaderPack.Rejection
