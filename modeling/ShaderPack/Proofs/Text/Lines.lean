import ShaderPack.Proofs.Text.Division
import ShaderPack.Text.Lines

namespace ShaderPack.Text

/-!
# Lines — taken off a text one by one

`lines` divides a text at its line feeds and then looks at the last piece, which is a line only
if something stands in it.  Read from the front, a text begins with a line that ends, or it is
one line that does not end, or it is empty (`lines_induction`); what `lines` does with each of
these is said by `lines_append_cons`, `lines_of_notMem` and `lines_nil`.
-/

variable {s line : List Char}

/-- The last piece is kept as it is, or left out if it is empty. -/
theorem lines_eq {parts : List (List Char)} {last : List Char}
    (h : pieces '\n' s = parts ++ [last]) :
    lines s = parts.map dropReturn ++ if last = [] then [] else [last] := by
  simp only [lines, h, List.getLast?_concat, List.dropLast_concat]
  cases last with
  | nil => rw [if_pos rfl, List.append_nil]
  | cons c last => rw [if_neg (List.cons_ne_nil c last)]

/-- A text that does not end is one line and keeps its carriage returns. -/
theorem lines_of_notMem (h : '\n' ∉ s) (hne : s ≠ []) : lines s = [s] := by
  have hpieces : pieces '\n' s = [] ++ [s] := pieces_of_notMem h
  rw [lines_eq hpieces, if_neg hne]
  rfl

/-- A line that ends is given without its ending, and the lines of the text behind it follow. -/
theorem lines_append_cons (h : '\n' ∉ s) (t : List Char) :
    lines (s ++ '\n' :: t) = dropReturn s :: lines t := by
  have hparts := (List.dropLast_concat_getLast (pieces_ne_nil '\n' t)).symm
  generalize (pieces '\n' t).dropLast = parts, (pieces '\n' t).getLast _ = last at hparts
  have hpieces : pieces '\n' (s ++ '\n' :: t) = (s :: parts) ++ [last] := by
    rw [pieces_append_cons h, hparts, List.cons_append]
  rw [lines_eq hpieces, lines_eq hparts, List.map_cons, List.cons_append]

/-- Line feeds in front of a text are empty lines. -/
theorem lines_replicate (count : Nat) (s : List Char) :
    lines (List.replicate count '\n' ++ s) = List.replicate count [] ++ lines s := by
  induction count with
  | zero => rfl
  | succ count ih =>
    have hempty := lines_append_cons (List.not_mem_nil (a := '\n')) (List.replicate count '\n' ++ s)
    rw [List.nil_append, ih] at hempty
    exact hempty

/-- A text is empty, or a line that does not end, or goes on behind a line that does. -/
theorem lines_induction {P : List Char → Prop} (nil : P [])
    (last : ∀ s : List Char, '\n' ∉ s → s ≠ [] → P s)
    (line : ∀ s t : List Char, '\n' ∉ s → P t → P (s ++ '\n' :: t)) (s : List Char) : P s := by
  induction hlen : s.length using Nat.strongRecOn generalizing s with
  | _ len ih =>
    by_cases hended : '\n' ∈ s
    · obtain ⟨front, rest, rfl, hfront⟩ := List.eq_append_cons_of_mem hended
      have hless : rest.length < len := by
        simp only [← hlen, List.length_append, List.length_cons]
        omega
      exact line front rest hfront (ih rest.length hless rest rfl)
    · by_cases hempty : s = []
      · exact hempty ▸ nil
      · exact last s hended hempty

theorem dropReturn_subset (line : List Char) : dropReturn line ⊆ line := by
  unfold dropReturn
  split
  · exact line.dropLast_subset
  · exact List.Subset.refl line

/-- No line goes over a line feed. -/
theorem notMem_of_mem_lines (h : line ∈ lines s) : '\n' ∉ line := by
  induction s using lines_induction with
  | nil => cases h
  | last s hs hne =>
    rw [lines_of_notMem hs hne, List.mem_singleton] at h
    exact h ▸ hs
  | line front rest hfront ih =>
    rw [lines_append_cons hfront, List.mem_cons] at h
    rcases h with rfl | h
    · exact fun hmem => hfront (dropReturn_subset front hmem)
    · exact ih h

-- an empty line counts, a text behind the last line feed as well, and both endings are left out
example : lines "a\r\n\nb\r".toList = ["a".toList, [], "b\r".toList] := by decide

end ShaderPack.Text
