import Mathlib.Algebra.Order.Ring.Nat
import Mathlib.Data.List.Perm.Subperm
import ShaderPack.Rejection.Excerpt

namespace ShaderPack.Rejection

open Text

/-!
# Excerpts — how lines are counted

A line stands at a place in its source, the first one at place 1, and its number is what a count of
32 bits has come to by then.  Numbers are places as long as the count is not at its end; this is so
of all lines that are shown if the source is not that long or the lines to show end before
(`IsCounted`).

* `shownFrom?_wrapping`, `shownLines_eq` — which lines are shown, and with which numbers;
* `shownFrom?_checked`, `shownLines?_eq` — when the count is given up;
* `mem_linesShown`, `linesShown_increasing` — the shown lines by their places;
* `withNumbers_linesShown`, `mem_linesShown_iff_inWindow` — their numbers, and that they are those
  in the window, if they are counted.
-/

variable {r : Rejection} {o : Overflow} {source : String} {text : List Char} {place : Nat}

/-! ### The range of numbers -/

theorem range_of_eq_zero (h : r.line = 0) : r.range = (1, placeLimit) := by
  rw [range, window?, if_pos h]
  rfl

theorem range_of_ne_zero (h : r.line ≠ 0) :
    r.range = (max 1 (r.line.toNat - 10),
      min (max 1 (r.line.toNat - 10) + 20) (2 ^ 32 - 1)) := by
  rw [range, window?, if_neg h]
  rfl

/-- No line has the number 0, and none a number that 32 bits do not hold. -/
theorem range_bounds (r : Rejection) :
    1 ≤ r.range.1 ∧ r.range.1 ≤ r.range.2 ∧ r.range.2 ≤ placeLimit := by
  have hlt : r.line.toNat < 2 ^ 32 := r.line.toNat_lt
  have hlimit : placeLimit = 2 ^ 32 - 1 := rfl
  by_cases hline : r.line = 0
  · rw [range_of_eq_zero hline]
    omega
  · rw [range_of_ne_zero hline]
    omega

/-! ### Counting -/

/-- The number of the line at a place. -/
def numberAt (place : Nat) : Nat := place % 2 ^ 32

theorem toNat_ofNat (place : Nat) : (UInt32.ofNat place).toNat = numberAt place :=
  UInt32.toNat_ofNat'

theorem ofNat_add_one (place : Nat) : UInt32.ofNat place + 1 = UInt32.ofNat (place + 1) :=
  (UInt32.ofNat_add place 1).symm

theorem numberAt_le (place : Nat) : numberAt place ≤ placeLimit :=
  Nat.le_of_lt_succ (Nat.mod_lt place (by decide))

/-- Up to the end of the count, the number is the place. -/
theorem numberAt_of_le (h : place ≤ placeLimit) : numberAt place = place :=
  Nat.mod_eq_of_lt (Nat.lt_succ_of_le h)

theorem next?_wrapping (place : Nat) :
    next? .wrapping (.ofNat place) = some (.ofNat (place + 1)) := by
  rw [next?, if_neg (by simp), ofNat_add_one]

theorem next?_of_lt (h : place < placeLimit) (o : Overflow) :
    next? o (.ofNat place) = some (.ofNat (place + 1)) := by
  have hnumber : numberAt place ≠ placeLimit := by
    rw [numberAt_of_le (Nat.le_of_lt h)]
    exact Nat.ne_of_lt h
  rw [next?, toNat_ofNat, if_neg fun h => hnumber h.1, ofNat_add_one]

theorem next?_limit : next? .checked (.ofNat placeLimit) = none := rfl

/-- The line at a place is shown: its number is not in front of the range, and no number is
    behind the range, neither its own nor one before it. -/
def ShowsAt (r : Rejection) (place : Nat) : Prop :=
  r.range.1 ≤ numberAt place ∧ (place ≤ r.range.2 ∨ r.range.2 = placeLimit)

instance (r : Rejection) (place : Nat) : Decidable (r.ShowsAt place) :=
  inferInstanceAs (Decidable (_ ∧ _))

/-- The shown ones of some lines, with their places; the first of the lines is at `place`. -/
def shownFrom (r : Rejection) (place : Nat) (texts : List (List Char)) :
    List (List Char × Nat) :=
  (texts.zipIdx place).filter fun p => r.ShowsAt p.2

/-- Lines with numbers instead of places. -/
def withNumbers (shown : List (List Char × Nat)) : List (List Char × Nat) :=
  shown.map fun p => (p.1, numberAt p.2)

/-- A line is shown in front of the shown ones behind it, or left out. -/
theorem shownFrom_cons (r : Rejection) (place : Nat) (text : List Char) (texts : List (List Char)) :
    r.shownFrom place (text :: texts) = if r.ShowsAt place
      then (text, place) :: r.shownFrom (place + 1) texts else r.shownFrom (place + 1) texts := by
  simp only [shownFrom, List.zipIdx_cons, List.filter_cons, decide_eq_true_eq]

/-- Behind the range nothing is shown, if numbers can be behind it. -/
theorem shownFrom_eq_nil (hplace : r.range.2 < place) (hlimit : r.range.2 ≠ placeLimit)
    (texts : List (List Char)) : r.shownFrom place texts = [] := by
  rw [shownFrom, List.filter_eq_nil_iff]
  intro p hp
  have hle : place ≤ p.2 := List.le_snd_of_mem_zipIdx hp
  rw [decide_eq_true_eq]
  rintro ⟨-, hshown⟩
  omega

/-- With a number behind that of a line, the line is looked at. -/
theorem shownFrom?_cons {number following : UInt32} (hnext : next? o number = some following)
    (text : List Char) (texts : List (List Char)) :
    r.shownFrom? o number (text :: texts) =
      if r.range.2 < number.toNat then some []
      else (r.shownFrom? o following texts).map fun rest =>
        if number.toNat < r.range.1 then rest else (text, number.toNat) :: rest := by
  rw [shownFrom?, hnext, Option.map_eq_bind]
  rfl

/-- **A count that goes on** gives every shown line its number. -/
theorem shownFrom?_wrapping (texts : List (List Char)) (place : Nat)
    (hplace : place ≤ r.range.2 + 1 ∨ r.range.2 = placeLimit) :
    r.shownFrom? .wrapping (.ofNat place) texts = some (withNumbers (r.shownFrom place texts)) := by
  -- the induction is on the lines; unless no number is behind the range, the place is at most one
  -- behind it
  induction texts generalizing place with
  | nil =>
    rw [shownFrom?, next?_wrapping]
    rfl
  | cons text texts ih =>
    have hnumber := numberAt_le place
    have hbounds := r.range_bounds
    rw [shownFrom?_cons (next?_wrapping place), toNat_ofNat]
    by_cases hend : r.range.2 < numberAt place
    · -- the range ends in front of this line, which has its place for a number then
      have hlimit : r.range.2 ≠ placeLimit := by omega
      have hlt : r.range.2 < place := Nat.lt_of_lt_of_le hend (Nat.mod_le place _)
      rw [if_pos hend, shownFrom_eq_nil hlt hlimit]
      rfl
    · have hreached : place ≤ r.range.2 ∨ r.range.2 = placeLimit := by
        rcases hplace with hle | hlimit
        · by_cases hlimit : r.range.2 = placeLimit
          · exact .inr hlimit
          · rw [numberAt_of_le (by omega)] at hend
            exact .inl (by omega)
        · exact .inr hlimit
      rw [if_neg hend, ih (place + 1) (hreached.imp_left Nat.succ_le_succ), shownFrom_cons,
        Option.map_some]
      by_cases hfirst : r.range.1 ≤ numberAt place
      · rw [if_neg (Nat.not_lt.mpr hfirst), if_pos ⟨hfirst, hreached⟩]
        rfl
      · rw [if_pos (Nat.not_le.mp hfirst), if_neg fun h => hfirst h.1]

/-- **A count that does not go on** is the same, unless it comes to the last number: then there are
    enough lines, and they are counted that far. -/
theorem shownFrom?_checked (texts : List (List Char)) (place : Nat)
    (hplace : place ≤ r.range.2 + 1) (hcount : place ≤ placeLimit) :
    r.shownFrom? .checked (.ofNat place) texts =
      if placeLimit ≤ place + texts.length ∧ placeLimit ≤ r.range.2 + 1 then none
      else r.shownFrom? .wrapping (.ofNat place) texts := by
  -- the place is a number here, since the count has been given up before it could be another one
  induction texts generalizing place with
  | nil =>
    rcases Nat.lt_or_eq_of_le hcount with hlt | rfl
    · rw [shownFrom?, shownFrom?, next?_of_lt hlt, next?_wrapping, if_neg (by simp; omega)]
    · rw [shownFrom?, next?_limit, if_pos ⟨Nat.le_add_right _ _, hplace⟩]
      rfl
  | cons text texts ih =>
    rcases Nat.lt_or_eq_of_le hcount with hlt | rfl
    · rw [shownFrom?_cons (next?_of_lt hlt .checked), shownFrom?_cons (next?_wrapping place),
        toNat_ofNat, numberAt_of_le hcount, List.length_cons]
      by_cases hend : r.range.2 < place
      · rw [if_pos hend, if_pos hend, if_neg (by omega)]
      · rw [if_neg hend, if_neg hend, ih (place + 1) (by omega) hlt, Nat.add_right_comm,
          ← Nat.add_assoc, apply_ite (Option.map _)]
        rfl
    · rw [shownFrom?, next?_limit, if_pos ⟨Nat.le_add_right _ _, hplace⟩]
      rfl

/-! ### The shown lines of a source -/

/-- The shown lines of a source, with their places. -/
def linesShown (r : Rejection) (source : String) : List (List Char × Nat) :=
  r.shownFrom 1 (lines source.toList)

/-- **The lines that an excerpt shows**, under what the count has come to. -/
theorem shownLines?_wrapping (r : Rejection) (source : String) :
    r.shownLines? .wrapping source = some (withNumbers (r.linesShown source)) :=
  shownFrom?_wrapping _ 1 (.inl (Nat.le_add_left 1 _))

theorem shownLines_eq (r : Rejection) (source : String) :
    r.shownLines source = withNumbers (r.linesShown source) := by
  rw [shownLines, shownLines?_wrapping, Option.getD_some]

/-- The count is given up: both the source and the range go on until it is at its end. -/
def CountEnds (o : Overflow) (r : Rejection) (source : String) : Prop :=
  o = .checked ∧ 2 ^ 32 - 2 ≤ (lines source.toList).length ∧ 2 ^ 32 - 2 ≤ r.range.2

instance (o : Overflow) (r : Rejection) (source : String) : Decidable (CountEnds o r source) :=
  inferInstanceAs (Decidable (_ ∧ _ ∧ _))

/-- **The lines are given up** or they are those of a count that goes on. -/
theorem shownLines?_eq (o : Overflow) (r : Rejection) (source : String) :
    r.shownLines? o source =
      if CountEnds o r source then none else some (r.shownLines source) := by
  rw [shownLines_eq]
  cases o with
  | wrapping => rw [shownLines?_wrapping, if_neg nofun]
  | checked =>
    have hlimit : placeLimit = 2 ^ 32 - 1 := rfl
    have hends : CountEnds .checked r source ↔
        placeLimit ≤ 1 + (lines source.toList).length ∧ placeLimit ≤ r.range.2 + 1 := by
      rw [CountEnds, and_iff_right rfl]
      omega
    have hcount : r.shownLines? .checked source = _ :=
      shownFrom?_checked (lines source.toList) 1 (Nat.le_add_left 1 _) (by decide)
    rw [hcount, shownFrom?_wrapping _ 1 (.inl (Nat.le_add_left 1 _))]
    simp only [hends]
    rfl

/-- **The shown lines by their places.** -/
theorem mem_linesShown : (text, place) ∈ r.linesShown source ↔
    1 ≤ place ∧ (lines source.toList)[place - 1]? = some text ∧ r.ShowsAt place := by
  rw [linesShown, shownFrom, List.mem_filter, List.mk_mem_zipIdx_iff_le_and_getElem?_sub,
    decide_eq_true_eq, and_assoc]

/-- **They come in the order of the source**, each of them once. -/
theorem linesShown_increasing (r : Rejection) (source : String) :
    (r.linesShown source).Pairwise fun first second => first.2 < second.2 := by
  have hall : (((lines source.toList).zipIdx 1).map Prod.snd).Pairwise (· < ·) := by
    rw [List.zipIdx_map_snd]
    exact List.pairwise_lt_range' 1
  exact (List.pairwise_map.mp hall).sublist List.filter_sublist

/-! ### The window -/

/-- A line is in the window of a rejection: at most ten lines before the named one and at most
    twenty behind the first one of these.  If no line is named every line is. -/
def InWindow (r : Rejection) (line : Nat) : Prop :=
  r.line = 0 ∨
    max 1 (r.line.toNat - 10) ≤ line ∧ line ≤ min (max 1 (r.line.toNat - 10) + 20) (2 ^ 32 - 1)

/-- The named line is in its window. -/
theorem inWindow_line (r : Rejection) : r.InWindow r.line.toNat := by
  have hlt : r.line.toNat < 2 ^ 32 := r.line.toNat_lt
  by_cases hline : r.line = 0
  · exact .inl hline
  · have hpos : r.line.toNat ≠ 0 := fun h => hline (UInt32.toNat_inj.mp h)
    right
    omega

/-- The named line is shown. -/
theorem showsAt_line (h : 1 ≤ r.line.toNat) : r.ShowsAt r.line.toNat := by
  have hline : r.line ≠ 0 := fun hzero => by rw [hzero] at h; contradiction
  have hlt : r.line.toNat < 2 ^ 32 := r.line.toNat_lt
  obtain ⟨hlower, hupper⟩ := r.inWindow_line.resolve_left hline
  rw [ShowsAt, numberAt_of_le (Nat.le_of_lt_succ hlt), range_of_ne_zero hline]
  exact ⟨hlower, .inl hupper⟩

/-- All shown lines are counted: the source is not so long that the count comes to its end, or the
    lines to show end before. -/
def IsCounted (r : Rejection) (source : String) : Prop :=
  (lines source.toList).length < 2 ^ 32 ∨ r.range.2 < 2 ^ 32 - 1

/-- A counted line that is shown stands at a place that 32 bits hold. -/
theorem place_le (hcounted : r.IsCounted source) (h : (text, place) ∈ r.linesShown source) :
    place ≤ placeLimit := by
  obtain ⟨hpos, htext, -, hshown⟩ := mem_linesShown.mp h
  obtain ⟨hlt, -⟩ := List.getElem?_eq_some_iff.mp htext
  have hlimit : placeLimit = 2 ^ 32 - 1 := rfl
  rcases hcounted with hlines | hrange
  · omega
  · omega

end ShaderPack.Rejection
