import ShaderPack.Text.Basic

namespace ShaderPack.Text

/-!
# Byte offsets — between characters and inside them

Up to the end of a text every byte offset lies either between two of its characters or inside one
(`between_iff`).  Two divisions of a text are compared by the widths of their fronts alone
(`exists_between`), and from that follows what the rest of this file says:

* `not_inside_width` — no offset between characters lies inside one;
* `inside_succ_iff` — one byte further lies inside a character exactly where one of several bytes
  begins;
* `offset?_firstFrom` — a search yields the least offset at which the pattern occurs.
-/

variable {text pattern s s' t t' : List Char} {n : Nat}

/-! ### Divisions of a text -/

theorem eq_nil_of_width (h : width s = 0) : s = [] := by
  cases s with
  | nil => rfl
  | cons x s =>
    have := x.utf8Size_pos
    rw [width_cons] at h
    omega

/-- Of two divisions of a text, the one with the shorter front leaves what lies between them. -/
theorem exists_between (h : s ++ t = s' ++ t') (hle : width s ≤ width s') :
    ∃ between, s' = s ++ between ∧ t = between ++ t' := by
  rcases List.append_eq_append_iff.mp h with ⟨between, hs, ht⟩ | ⟨between, rfl, rfl⟩
  · exact ⟨between, hs, ht⟩
  · -- the fronts are equally wide, so nothing lies between them
    rw [width_append] at hle
    obtain rfl : between = [] := eq_nil_of_width (by omega)
    exact ⟨[], by simp, by simp⟩

/-- The offset lies between two characters, or at an end of the text. -/
def Between (text : List Char) (n : Nat) : Prop :=
  ∃ before after, text = before ++ after ∧ n = width before

/-- The offset lies inside the bytes of a character. -/
def Inside (text : List Char) (n : Nat) : Prop :=
  ∃ before x after, text = before ++ x :: after ∧ width before < n ∧ n < width before + x.utf8Size

theorem Between.le (h : Between text n) : n ≤ width text := by
  obtain ⟨before, after, rfl, rfl⟩ := h
  rw [width_append]
  omega

theorem Inside.lt (h : Inside text n) : n < width text := by
  obtain ⟨before, x, after, rfl, -, hn⟩ := h
  rw [width_append, width_cons]
  omega

/-- The offset behind the front of a text lies inside none of its characters. -/
theorem not_inside_width (before after : List Char) :
    ¬Inside (before ++ after) (width before) := by
  intro h
  obtain ⟨front, x, back, htext, hfront, hback⟩ := h
  obtain ⟨between, rfl, hx⟩ := exists_between htext.symm (Nat.le_of_lt hfront)
  rw [width_append] at hfront hback
  cases between with
  | nil =>
    rw [width_nil] at hfront
    omega
  | cons y between =>
    obtain ⟨rfl, -⟩ := List.cons.inj hx
    rw [width_cons] at hback
    omega

/-- Every offset up to the end of the text lies between characters or inside one. -/
theorem between_or_inside (h : n ≤ width text) : Between text n ∨ Inside text n := by
  induction text generalizing n with
  | nil => exact .inl ⟨[], [], rfl, Nat.le_zero.mp h⟩
  | cons x text ih =>
    rw [width_cons] at h
    by_cases hn : n < x.utf8Size
    · cases n with
      | zero => exact .inl ⟨[], x :: text, rfl, rfl⟩
      | succ n => exact .inr ⟨[], x, text, rfl, Nat.succ_pos n, by rw [width_nil]; omega⟩
    · rcases ih (n := n - x.utf8Size) (by omega) with
        ⟨before, after, rfl, hbefore⟩ | ⟨before, y, after, rfl, hfront, hback⟩
      · refine .inl ⟨x :: before, after, rfl, ?_⟩
        rw [width_cons]
        omega
      · refine .inr ⟨x :: before, y, after, rfl, ?_, ?_⟩
        · rw [width_cons]
          omega
        · rw [width_cons]
          omega

theorem between_iff : Between text n ↔ n ≤ width text ∧ ¬Inside text n := by
  constructor
  · intro h
    refine ⟨h.le, ?_⟩
    obtain ⟨before, after, rfl, rfl⟩ := h
    exact not_inside_width before after
  · rintro ⟨hle, hinside⟩
    exact (between_or_inside hle).resolve_right hinside

/-! ### Occurrences at an offset -/

/-- The pattern occurs in the text at a byte offset. -/
def OccursAt (text pattern : List Char) (n : Nat) : Prop :=
  ∃ before after, text = before ++ (pattern ++ after) ∧ n = width before

/-- Behind the front of a text a pattern occurs where it occurs in the rest. -/
theorem occursAt_append_iff (before rest : List Char) (hle : width before ≤ n) :
    OccursAt (before ++ rest) pattern n ↔ OccursAt rest pattern (n - width before) := by
  constructor
  · rintro ⟨front, after, htext, rfl⟩
    obtain ⟨between, rfl, rfl⟩ := exists_between htext hle
    refine ⟨between, after, rfl, ?_⟩
    rw [width_append]
    omega
  · rintro ⟨between, after, rfl, hn⟩
    refine ⟨before ++ between, after, by simp, ?_⟩
    rw [width_append]
    omega

/-- What occurs at an offset is what the text behind it begins with. -/
theorem head?_of_occursAt {before rest : List Char} {x : Char}
    (h : OccursAt (before ++ rest) [x] (width before)) : rest.head? = some x := by
  rw [occursAt_append_iff before rest (Nat.le_refl _), Nat.sub_self] at h
  obtain ⟨between, after, rfl, hbetween⟩ := h
  obtain rfl := eq_nil_of_width hbetween.symm
  rfl

/-- One byte behind an offset between characters lies inside a character exactly if one of several
    bytes begins at that offset. -/
theorem inside_succ_iff (h : Between text n) :
    Inside text (n + 1) ↔ ∃ x, OccursAt text [x] n ∧ 1 < x.utf8Size := by
  obtain ⟨before, after, rfl, rfl⟩ := h
  constructor
  · rintro ⟨front, x, back, htext, hfront, hback⟩
    obtain ⟨between, hbefore, hx⟩ := exists_between htext.symm (Nat.le_of_lt_succ hfront)
    cases between with
    | nil =>
      obtain rfl : before = front := by rw [hbefore, List.append_nil]
      exact ⟨x, ⟨before, back, by rw [htext]; rfl, rfl⟩, by omega⟩
    | cons y between =>
      obtain ⟨rfl, -⟩ := List.cons.inj hx
      rw [hbefore, width_append, width_cons] at hback
      omega
  · rintro ⟨x, ⟨front, back, htext, hwidth⟩, hsize⟩
    exact ⟨front, x, back, htext, by omega, by omega⟩

/-- What a search from `pos` on is to answer: the least offset at which the pattern occurs, or that
    there is none. -/
def FirstFrom (text pattern : List Char) (pos : Nat) : Option Nat → Prop
  | some n => (pos ≤ n ∧ OccursAt text pattern n) ∧
      ∀ m, pos ≤ m → OccursAt text pattern m → n ≤ m
  | none => ∀ m, pos ≤ m → ¬OccursAt text pattern m

/-- A pattern that occurs is found there or before. -/
theorem offset?_le (before after : List Char) (start : Nat) :
    ∃ found, offset? pattern start (before ++ (pattern ++ after)) = some found ∧
      found ≤ start + width before := by
  induction before generalizing start with
  | nil =>
    refine ⟨start, ?_, Nat.le_add_right _ _⟩
    rw [List.nil_append]
    cases htext : pattern ++ after with
    | nil =>
      obtain ⟨rfl, -⟩ := List.append_eq_nil_iff.mp htext
      rfl
    | cons c rest =>
      rw [offset?, if_pos (List.isPrefixOf_iff_prefix.mpr ⟨after, htext⟩)]
  | cons c before ih =>
    rw [List.cons_append, offset?]
    split
    · exact ⟨start, rfl, Nat.le_add_right _ _⟩
    · obtain ⟨found, hfound, hle⟩ := ih (start + c.utf8Size)
      refine ⟨found, hfound, ?_⟩
      rw [width_cons]
      omega

/-- **A search yields the least offset** at which the pattern occurs in what is left of a text. -/
theorem offset?_firstFrom (before rest pattern : List Char) :
    FirstFrom (before ++ rest) pattern (width before) (offset? pattern (width before) rest) := by
  -- an occurrence from there on is one in the rest, so it is found there or before
  have hle (m : Nat) (hm : width before ≤ m) (hoccurs : OccursAt (before ++ rest) pattern m) :
      ∃ found, offset? pattern (width before) rest = some found ∧ found ≤ m := by
    rw [occursAt_append_iff before rest hm] at hoccurs
    obtain ⟨between, after, rfl, hbetween⟩ := hoccurs
    obtain ⟨found, hfound, hle⟩ := offset?_le between after (width before)
    exact ⟨found, hfound, by omega⟩
  cases hfind : offset? pattern (width before) rest with
  | none =>
    intro m hm hoccurs
    obtain ⟨found, hfound, -⟩ := hle m hm hoccurs
    cases hfind.symm.trans hfound
  | some n =>
    obtain ⟨between, after, hrest, hn⟩ := offset?_eq_some hfind
    refine ⟨⟨by omega, ?_⟩, fun m hm hoccurs => ?_⟩
    · rw [occursAt_append_iff before rest (by omega)]
      exact ⟨between, after, by rw [hrest, List.append_assoc], by omega⟩
    · obtain ⟨found, hfound, hfoundLe⟩ := hle m hm hoccurs
      obtain rfl := Option.some.inj (hfind.symm.trans hfound)
      exact hfoundLe

end ShaderPack.Text
