import ShaderPack.Text.Cursor

namespace ShaderPack.Text

/-!
# Occurrences of a pattern — where they can lie

An occurrence of a pattern is an infix of the text.  Where texts are put together, a pattern
might also occur across the seam; the lemmas here say when it does not:

* `infix_append_cons_iff` — a character that is no part of the pattern keeps occurrences on
  its two sides;
* `Clear` — no occurrence begins in the front of a text, whatever comes behind that front;
* `Cursor.cut?_eq` — a pattern whose last character stands only there is found at its first
  occurrence, which is the one behind any text without the pattern;
* `Cursor.cut?_encloses` — so what such patterns enclose is cut out, whatever stands around it.
-/

variable {pattern : List Char} {x : Char}

/-! ### Seams -/

/-- A pattern at the beginning of a text ends before a character that is no part of it. -/
theorem prefix_append_cons_iff (hx : x ∉ pattern) (s t : List Char) :
    pattern <+: s ++ x :: t ↔ pattern <+: s := by
  induction s generalizing pattern with
  | nil =>
    cases pattern with
    | nil => simp
    | cons d pattern =>
      have hne : d ≠ x := by rintro rfl; simp at hx
      simp [List.cons_prefix_cons, hne]
  | cons c s ih =>
    cases pattern with
    | nil => simp
    | cons d pattern =>
      have hx' : x ∉ pattern := fun h => hx (List.mem_cons_of_mem d h)
      rw [List.cons_append, List.cons_prefix_cons, List.cons_prefix_cons, ih hx']

/-- An occurrence lies before or behind a character that is no part of the pattern. -/
theorem infix_append_cons_iff (hx : x ∉ pattern) (s t : List Char) :
    pattern <:+: s ++ x :: t ↔ pattern <:+: s ∨ pattern <:+: t := by
  induction s with
  | nil =>
    have hprefix : pattern <+: x :: t ↔ pattern <+: [] := prefix_append_cons_iff hx [] t
    rw [List.nil_append, List.infix_cons_iff, hprefix, List.prefix_nil, List.infix_nil]
  | cons c s ih =>
    have hprefix : pattern <+: c :: (s ++ x :: t) ↔ pattern <+: c :: s :=
      prefix_append_cons_iff hx (c :: s) t
    rw [List.cons_append, List.infix_cons_iff, hprefix, ih, List.infix_cons_iff, or_assoc]

/-- No occurrence of the pattern begins in `front`, whatever text comes behind it. -/
def Clear (pattern front : List Char) : Prop :=
  ∀ s, pattern <:+: front ++ s → pattern <:+: s

namespace Clear

theorem nil : Clear pattern [] := fun _ h => h

theorem append {s t : List Char} (hs : Clear pattern s) (ht : Clear pattern t) :
    Clear pattern (s ++ t) := by
  intro u h
  rw [List.append_assoc] at h
  exact ht u (hs (t ++ u) h)

/-- A text without the pattern is clear once a character follows that is no part of it. -/
theorem of_free {s : List Char} (hs : ¬pattern <:+: s) (hx : x ∉ pattern) :
    Clear pattern (s ++ [x]) := by
  intro t h
  rw [List.append_assoc, List.singleton_append, infix_append_cons_iff hx] at h
  exact h.resolve_left hs

/-- A text without the first character of the pattern is clear. -/
theorem of_notMem {s : List Char} (hpattern : pattern.head? = some x) (hs : x ∉ s) :
    Clear pattern s := by
  obtain ⟨rest, rfl⟩ := List.head?_eq_some_iff.mp hpattern
  intro t h
  induction s with
  | nil => exact h
  | cons c s ih =>
    simp only [List.mem_cons, not_or] at hs
    obtain ⟨hc, hs⟩ := hs
    rw [List.cons_append, List.infix_cons_iff, List.cons_prefix_cons] at h
    exact ih hs (h.resolve_left fun h => hc h.1)

/-- A clear text holds no occurrence. -/
theorem free {s : List Char} (hs : Clear pattern s) (hne : pattern ≠ []) :
    ¬pattern <:+: s := by
  intro h
  rw [← List.append_nil s] at h
  exact hne (List.infix_nil.mp (hs [] h))

end Clear

/-! ### The first occurrence -/

/-- The last character of the pattern stands nowhere else in it. -/
def Closed (pattern : List Char) : Prop :=
  ∃ lead x, pattern = lead ++ [x] ∧ x ∉ lead

/-- Two occurrences of a closed pattern do not overlap: one that begins in front of another
    has ended there. -/
theorem Closed.prefix_append_iff (h : Closed pattern) {s : List Char} (hs : s ≠ [])
    (t : List Char) : pattern <+: s ++ (pattern ++ t) ↔ pattern <+: s := by
  obtain ⟨lead, x, rfl, hx⟩ := h
  constructor
  · intro hprefix
    have hfront : s ++ lead <+: s ++ (lead ++ [x] ++ t) := by
      rw [← List.append_assoc, ← List.append_assoc]
      exact (List.prefix_append (s ++ lead) [x]).trans (List.prefix_append _ t)
    have hlong : lead ++ [x] <+: s ++ lead := by
      refine List.prefix_of_prefix_length_le hprefix hfront ?_
      have : 0 < s.length := List.length_pos_iff.mpr hs
      simp only [List.length_append, List.length_singleton]
      omega
    -- the last character would stand a second time in the lead, if not in `s`
    obtain ⟨u, hu⟩ := hlong
    rw [List.append_assoc, List.singleton_append] at hu
    rcases List.append_eq_append_iff.mp hu with ⟨a, hsa, hlead⟩ | ⟨a, hlead, ha⟩
    · cases a with
      | nil =>
        have hmem : x ∈ [] ++ lead := hlead ▸ List.mem_cons_self
        exact absurd hmem hx
      | cons c a =>
        obtain ⟨rfl, -⟩ := List.cons.inj hlead
        exact ⟨a, by simp [hsa]⟩
    · exact absurd (by simp [ha]) hx
  · intro hprefix
    exact hprefix.trans (List.prefix_append s _)

/-- A closed pattern is found behind a text without it. -/
theorem offset?_closed (h : Closed pattern) {before : List Char}
    (hfree : ¬pattern <:+: before) (start : Nat) (after : List Char) :
    offset? pattern start (before ++ (pattern ++ after)) = some (start + width before) := by
  induction before generalizing start with
  | nil =>
    obtain ⟨lead, x, rfl, -⟩ := h
    obtain ⟨c, rest, hrest⟩ : ∃ c rest, lead ++ [x] ++ after = c :: rest :=
      List.exists_cons_of_ne_nil (by simp)
    have hprefix : (lead ++ [x]).isPrefixOf (c :: rest) = true := by
      rw [← hrest, List.isPrefixOf_iff_prefix]
      exact List.prefix_append _ _
    rw [List.nil_append, hrest, offset?, if_pos hprefix]
    rfl
  | cons c before ih =>
    rw [List.infix_cons_iff, not_or] at hfree
    have hprefix : ¬pattern <+: c :: (before ++ (pattern ++ after)) := by
      rw [← List.cons_append, h.prefix_append_iff (List.cons_ne_nil c before)]
      exact hfree.1
    rw [List.cons_append, offset?, if_neg (mt List.isPrefixOf_iff_prefix.mp hprefix),
      ih hfree.2, width_cons, Nat.add_assoc]

/-- The text holds `inner` between the first opening and the first closing behind it. -/
def Encloses (opening closing inner s : List Char) : Prop :=
  ∃ before after, s = before ++ (opening ++ (inner ++ (closing ++ after))) ∧
    ¬opening <:+: before ∧ ¬closing <:+: inner

namespace Cursor

variable {c : Cursor} {pattern : String}

/-- A cut at a closed pattern yields the text in front of its first occurrence and stands
    behind it. -/
theorem cut?_eq (hc : c.OnBoundary) (h : Closed pattern.toList) {before after : List Char}
    (hrest : c.rest = before ++ (pattern.toList ++ after))
    (hfree : ¬pattern.toList <:+: before) :
    ∃ next, c.cut? pattern = some (some (before, next)) ∧ next.OnBoundary ∧
      next.rest = after := by
  have hfind : c.find? pattern = some (some (c.start + width before)) := by
    rw [find?, rest?_eq hc, hrest]
    exact congrArg some (offset?_closed h hfree c.start after)
  have hslice : c.sliceTo? (c.start + width before) = some before := sliceTo?_eq hc hrest rfl
  have hseek : c.seek (c.start + width before + width pattern.toList) = ⟨_, 0, after⟩ :=
    seek_eq hc (s := before ++ pattern.toList) (by simp [hrest])
      (by simp only [width_append]; omega)
  exact ⟨⟨_, 0, after⟩, by simp [cut?, hfind, hslice, hseek]; rfl, rfl, rfl⟩

/-- Two cuts at closed patterns yield what these enclose. -/
theorem cut?_encloses (hc : c.OnBoundary) {opening closing : String} {inner : List Char}
    (hopening : Closed opening.toList) (hclosing : Closed closing.toList)
    (h : Encloses opening.toList closing.toList inner c.rest) :
    ∃ before c₁ c₂, c.cut? opening = some (some (before, c₁)) ∧
      c₁.cut? closing = some (some (inner, c₂)) := by
  obtain ⟨before, after, hrest, hfirst, hinner⟩ := h
  obtain ⟨c₁, hopen, hc₁, hrest₁⟩ := cut?_eq hc hopening hrest hfirst
  obtain ⟨c₂, hclose, -, -⟩ := cut?_eq hc₁ hclosing hrest₁ hinner
  exact ⟨before, c₁, c₂, hopen, hclose⟩

/-- Nothing is cut where the pattern does not occur. -/
theorem cut?_eq_none (hc : c.OnBoundary) (hfree : ¬pattern.toList <:+: c.rest) :
    c.cut? pattern = some none := by
  rcases cut?_cases hc pattern with hnone | ⟨before, next, -, -, hrest⟩
  · exact hnone
  · exact absurd ⟨before, next.rest, hrest.symm⟩ hfree

end Cursor

end ShaderPack.Text
