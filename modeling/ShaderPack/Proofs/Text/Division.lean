import ShaderPack.Proofs.Text.Occurrences
import ShaderPack.Proofs.Text.Words

namespace ShaderPack.Text

/-!
# Dividing a text — the pieces between occurrences

`pieces` divides a text at a character and `divide` at a pattern, whose occurrences are found
from the left and without overlap.  So the number of occurrences is the number of pieces behind
one (`occurrences`).

* `pieces_append_cons` — a character behind a text without it ends a piece;
* `divide_append` — so does a closed pattern;
* `exists_first` — and wherever a pattern occurs, there is a first occurrence to divide at.
-/

variable {pattern s : List Char} {x : Char}

/-! ### At a character -/

/-- The text up to the first occurrence of a character is what stands in front of it. -/
theorem takeWhile_append_cons (hx : x ∉ s) (t : List Char) :
    (s ++ x :: t).takeWhile (· != x) = s := by
  have hcut : cutAt? x (s ++ x :: t) = some (s, t) := cutAt?_append_cons hx t
  unfold cutAt? at hcut
  split at hcut
  · cases hcut
  · exact congrArg Prod.fst (Option.some.inj hcut)

theorem takeWhile_of_notMem (hx : x ∉ s) : s.takeWhile (· != x) = s := by
  have hs : ∀ c ∈ s, (c != x) = true := fun c hc => by simpa using ne_of_mem_of_not_mem hc hx
  rw [← List.append_nil s, List.takeWhile_append_of_pos hs, List.takeWhile_nil]

/-- The first occurrence of a character divides a text in one way. -/
theorem append_cons_inj {s' t t' : List Char} (hs : x ∉ s) (hs' : x ∉ s')
    (h : s ++ x :: t = s' ++ x :: t') : s = s' ∧ t = t' := by
  have hcut : some (s, t) = some (s', t') := by
    rw [← cutAt?_append_cons hs, h, cutAt?_append_cons hs']
  exact Prod.mk.inj (Option.some.inj hcut)

theorem pieces_of_notMem (hx : x ∉ s) : pieces x s = [s] := by
  induction s with
  | nil => rfl
  | cons c s ih =>
    simp only [List.mem_cons, not_or] at hx
    rw [pieces_cons, if_neg (Ne.symm hx.1), ih hx.2]

/-- A character behind a text without it ends a piece. -/
theorem pieces_append_cons (hx : x ∉ s) (t : List Char) :
    pieces x (s ++ x :: t) = s :: pieces x t := by
  induction s with
  | nil => rw [List.nil_append, pieces_cons, if_pos rfl]
  | cons c s ih =>
    simp only [List.mem_cons, not_or] at hx
    rw [List.cons_append, pieces_cons, if_neg (Ne.symm hx.1), ih hx.2]

theorem pieces_ne_nil (x : Char) (s : List Char) : pieces x s ≠ [] := by
  by_cases hx : x ∈ s
  · obtain ⟨before, after, rfl, hbefore⟩ := List.eq_append_cons_of_mem hx
    rw [pieces_append_cons hbefore]
    exact List.cons_ne_nil _ _
  · rw [pieces_of_notMem hx]
    exact List.cons_ne_nil _ _

/-- Texts without a character are the pieces of the text in which it stands behind each of them. -/
theorem pieces_flatMap {texts : List (List Char)} (h : ∀ text ∈ texts, x ∉ text) (t : List Char) :
    pieces x (texts.flatMap (· ++ [x]) ++ t) = texts ++ pieces x t := by
  induction texts with
  | nil => rfl
  | cons text texts ih =>
    obtain ⟨htext, h⟩ := List.forall_mem_cons.mp h
    rw [List.flatMap_cons, List.append_assoc, List.append_assoc, List.singleton_append,
      pieces_append_cons htext, ih h, List.cons_append]

/-! ### At a pattern -/

/-- The pass of `divide`; `skip` counts the characters of an occurrence that are still to be
    passed over. -/
def divideFrom (pattern : List Char) : Nat → List Char → List Char × List (List Char)
  | _, [] => ([], [])
  | skip + 1, _ :: rest => divideFrom pattern skip rest
  | 0, c :: rest =>
    if pattern.isPrefixOf (c :: rest) then
      let (first, behind) := divideFrom pattern (pattern.length - 1) rest
      ([], first :: behind)
    else
      let (first, behind) := divideFrom pattern 0 rest
      (c :: first, behind)

/-- The text in front of the first occurrence of a pattern, and behind each occurrence the text
    up to the next one. -/
def divide (pattern s : List Char) : List Char × List (List Char) := divideFrom pattern 0 s

/-- Number of occurrences of a pattern. -/
def occurrences (pattern s : List Char) : Nat := (divide pattern s).2.length

/-- Passing over characters drops them. -/
theorem divideFrom_skip (pattern : List Char) (skip : Nat) (s : List Char) :
    divideFrom pattern skip s = divide pattern (s.drop skip) := by
  induction s generalizing skip with
  | nil => simp [divide, divideFrom]
  | cons c s ih =>
    cases skip with
    | zero => rfl
    | succ skip => exact ih skip

/-- A pattern at the beginning begins a piece behind it. -/
theorem divide_pattern (hne : pattern ≠ []) (s : List Char) :
    divide pattern (pattern ++ s) = ([], (divide pattern s).1 :: (divide pattern s).2) := by
  obtain ⟨c, rest, rfl⟩ := List.exists_cons_of_ne_nil hne
  have hprefix : (c :: rest).isPrefixOf (c :: (rest ++ s)) = true := by
    rw [List.isPrefixOf_iff_prefix]
    exact List.prefix_append (c :: rest) s
  rw [List.cons_append, divide, divideFrom, if_pos hprefix, divideFrom_skip]
  simp

/-- Any other character is part of the first piece. -/
theorem divide_cons {c : Char} (h : ¬pattern <+: c :: s) :
    divide pattern (c :: s) = (c :: (divide pattern s).1, (divide pattern s).2) := by
  rw [divide, divideFrom, if_neg (mt List.isPrefixOf_iff_prefix.mp h)]
  rfl

theorem divide_of_free (h : ¬pattern <:+: s) : divide pattern s = (s, []) := by
  induction s with
  | nil => rfl
  | cons c s ih =>
    rw [List.infix_cons_iff, not_or] at h
    rw [divide_cons h.1, ih h.2]

/-- A closed pattern behind a text without it ends the first piece. -/
theorem divide_append (hclosed : Closed pattern) (hfree : ¬pattern <:+: s) (t : List Char) :
    divide pattern (s ++ (pattern ++ t)) = (s, (divide pattern t).1 :: (divide pattern t).2) := by
  induction s with
  | nil =>
    obtain ⟨lead, x, rfl, -⟩ := hclosed
    exact divide_pattern (by simp) t
  | cons c s ih =>
    rw [List.infix_cons_iff, not_or] at hfree
    have hprefix : ¬pattern <+: c :: (s ++ (pattern ++ t)) := by
      rw [← List.cons_append, hclosed.prefix_append_iff (List.cons_ne_nil c s)]
      exact hfree.1
    rw [List.cons_append, divide_cons hprefix, ih hfree.2]

/-- A text without the first character of the pattern belongs to the piece behind it. -/
theorem divide_of_notMem (hpattern : pattern.head? = some x) (hx : x ∉ s) (t : List Char) :
    divide pattern (s ++ t) = (s ++ (divide pattern t).1, (divide pattern t).2) := by
  induction s with
  | nil => rfl
  | cons c s ih =>
    simp only [List.mem_cons, not_or] at hx
    have hprefix : ¬pattern <+: c :: (s ++ t) := by
      obtain ⟨rest, rfl⟩ := List.head?_eq_some_iff.mp hpattern
      rw [List.cons_prefix_cons]
      exact fun h => hx.1 h.1
    rw [List.cons_append, divide_cons hprefix, ih hx.2]
    rfl

/-- The first piece begins the text. -/
theorem divide_fst_prefix (pattern s : List Char) : (divide pattern s).1 <+: s := by
  induction s with
  | nil => exact List.prefix_rfl
  | cons c s ih =>
    by_cases hprefix : pattern <+: c :: s
    · rw [divide, divideFrom, if_pos (List.isPrefixOf_iff_prefix.mpr hprefix)]
      exact List.nil_prefix
    · rw [divide_cons hprefix]
      exact List.cons_prefix_cons.mpr ⟨rfl, ih⟩

/-- Where a pattern occurs, it occurs for a first time. -/
theorem exists_first (hne : pattern ≠ []) (h : pattern <:+: s) :
    ∃ before after, s = before ++ (pattern ++ after) ∧ ¬pattern <:+: before := by
  induction s with
  | nil => exact absurd (List.infix_nil.mp h) hne
  | cons c s ih =>
    by_cases hprefix : pattern <+: c :: s
    · obtain ⟨after, hafter⟩ := hprefix
      exact ⟨[], after, hafter.symm, fun h => hne (List.infix_nil.mp h)⟩
    · obtain ⟨before, after, rfl, hfree⟩ := ih ((List.infix_cons_iff.mp h).resolve_left hprefix)
      refine ⟨c :: before, after, rfl, ?_⟩
      rw [List.infix_cons_iff, not_or]
      exact ⟨fun h => hprefix (h.trans (List.prefix_append (c :: before) _)), hfree⟩

end ShaderPack.Text
