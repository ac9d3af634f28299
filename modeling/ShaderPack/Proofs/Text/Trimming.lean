import ShaderPack.Proofs.Text.Words
import ShaderPack.Text.Blank

namespace ShaderPack.Text

/-!
# Trimming — what is taken away and what stays

Trimming takes white space from the ends of a text and stops at the first character that is
none: `trimStart_append`, `trimEnd_append` and `trimEnd_concat`.  The characters of words are
never white space, so a word keeps its ends (`Word.trimStart_append`, `Word.trimEnd_append`)
and a text without white space is found again between blanks (`trim_append`).
-/

/-! ### White space and the other classes -/

/-- Every ASCII blank is white space. -/
theorem isBlank_of_isSpace {c : Char} (h : isSpace c = true) : isBlank c = true := by
  simp only [isSpace, Bool.or_eq_true, decide_eq_true_eq] at h
  rcases h with (((rfl | rfl) | rfl) | rfl) | rfl <;> decide

/-- A character of a word stands between 48 and 122. -/
theorem toNat_of_isWord {c : Char} (h : isWord c = true) : 48 ≤ c.toNat ∧ c.toNat ≤ 122 := by
  rw [isWord, Char.isAlphanum, Bool.or_eq_true, Bool.or_eq_true, decide_eq_true_eq] at h
  have hupper (h : c.isUpper = true) : 65 ≤ c.toNat ∧ c.toNat ≤ 90 := of_decide_eq_true h
  have hlower (h : c.isLower = true) : 97 ≤ c.toNat ∧ c.toNat ≤ 122 :=
    ((Bool.and_eq_true _ _).mp h).imp of_decide_eq_true of_decide_eq_true
  have hdigit (h : c.isDigit = true) : 48 ≤ c.toNat ∧ c.toNat ≤ 57 :=
    ((Bool.and_eq_true _ _).mp h).imp of_decide_eq_true of_decide_eq_true
  have halpha (h : c.isAlpha = true) : c.isUpper = true ∨ c.isLower = true :=
    (Bool.or_eq_true _ _).mp h
  rcases h with (h | h) | rfl
  · rcases halpha h with h | h
    · have := hupper h
      omega
    · have := hlower h
      omega
  · have := hdigit h
    omega
  · decide

/-- A character of a word is no white space. -/
theorem isBlank_of_isWord {c : Char} (h : isWord c = true) : isBlank c = false := by
  obtain ⟨hlow, hhigh⟩ := toNat_of_isWord h
  simp only [isBlank, blankRanges, List.any_cons, List.any_nil, Bool.or_false,
    Bool.or_eq_false_iff, Bool.and_eq_false_iff, decide_eq_false_iff_not]
  omega

/-- A digit belongs to words. -/
theorem isWord_of_isDigit {c : Char} (h : c.isDigit = true) : isWord c = true := by
  simp [isWord, Char.isAlphanum, h]

theorem Blanks.isBlank (b : Blanks) : ∀ c ∈ b.text, Text.isBlank c = true := fun c hc =>
  isBlank_of_isSpace (b.blank c hc)

theorem Word.isBlank (w : Word) : ∀ c ∈ w.text, Text.isBlank c = false := fun c hc =>
  isBlank_of_isWord (w.word c hc)

/-! ### The ends of a text -/

variable {b s : List Char} {c : Char}

theorem trimStart_append (hb : ∀ c ∈ b, isBlank c = true) (s : List Char) :
    trimStart (b ++ s) = trimStart s :=
  List.dropWhile_append_of_pos hb

theorem trimStart_cons (hc : isBlank c = false) (s : List Char) :
    trimStart (c :: s) = c :: s := by
  simp [trimStart, hc]

theorem trimEnd_append (s : List Char) (hb : ∀ c ∈ b, isBlank c = true) :
    trimEnd (s ++ b) = trimEnd s := by
  rw [trimEnd, List.reverse_append, List.dropWhile_append_of_pos (by simpa using hb), trimEnd]

theorem trimEnd_concat (s : List Char) (hc : isBlank c = false) :
    trimEnd (s ++ [c]) = s ++ [c] := by
  simp [trimEnd, hc]

/-- White space is taken away only behind the last character that is none. -/
theorem trimEnd_append_cons (hc : isBlank c = false) (s t : List Char) :
    trimEnd (s ++ c :: t) = s ++ c :: trimEnd t := by
  have hreverse : (s ++ c :: t).reverse = t.reverse ++ c :: s.reverse := by simp
  rw [trimEnd, hreverse, Cursor.dropWhile_append_cons hc, trimEnd]
  simp

/-- A text that begins with something else than white space keeps its beginning. -/
theorem trimStart_of_ne_nil (hs : ∀ c ∈ s, isBlank c = false) (hne : s ≠ [])
    (t : List Char) : trimStart (s ++ t) = s ++ t := by
  obtain ⟨c, rest, rfl⟩ := List.exists_cons_of_ne_nil hne
  exact trimStart_cons (hs c List.mem_cons_self) (rest ++ t)

/-- A text that ends with something else than white space keeps its end. -/
theorem trimEnd_of_ne_nil (t : List Char) (hs : ∀ c ∈ s, isBlank c = false) (hne : s ≠ []) :
    trimEnd (t ++ s) = t ++ s := by
  have hlast := trimEnd_concat (t ++ s.dropLast) (hs _ (List.getLast_mem hne))
  rwa [List.append_assoc, List.dropLast_concat_getLast] at hlast

theorem Word.trimStart_append (w : Word) (s : List Char) : trimStart (w.text ++ s) = w.text ++ s :=
  trimStart_of_ne_nil w.isBlank w.nonempty s

theorem Word.trimEnd_append (s : List Char) (w : Word) : trimEnd (s ++ w.text) = s ++ w.text :=
  trimEnd_of_ne_nil s w.isBlank w.nonempty

/-- A text is what trimming leaves with white space behind it. -/
theorem exists_trimEnd (s : List Char) :
    ∃ b, (∀ c ∈ b, isBlank c = true) ∧ s = trimEnd s ++ b := by
  have hall : ∀ c ∈ s.reverse.takeWhile isBlank, isBlank c = true :=
    List.all_eq_true.mp List.all_takeWhile
  refine ⟨(s.reverse.takeWhile isBlank).reverse, fun c hc => hall c (List.mem_reverse.mp hc), ?_⟩
  rw [trimEnd, ← List.reverse_append, List.takeWhile_append_dropWhile, List.reverse_reverse]

/-- A text is what trimming leaves with white space around it. -/
theorem exists_trim (s : List Char) :
    ∃ b b', (∀ c ∈ b, isBlank c = true) ∧ (∀ c ∈ b', isBlank c = true) ∧
      s = b ++ trim s ++ b' := by
  obtain ⟨b', hb', hend⟩ := exists_trimEnd (trimStart s)
  refine ⟨s.takeWhile isBlank, b', List.all_eq_true.mp List.all_takeWhile, hb', ?_⟩
  rw [List.append_assoc, trim, ← hend, trimStart, List.takeWhile_append_dropWhile]

/-- Trimming stops at the first character that is no white space. -/
theorem trimStart_eq_cons (hc : isBlank c = false) {rest : List Char} :
    trimStart s = c :: rest ↔ ∃ b, (∀ d ∈ b, isBlank d = true) ∧ s = b ++ c :: rest := by
  constructor
  · intro h
    refine ⟨s.takeWhile isBlank, List.all_eq_true.mp List.all_takeWhile, ?_⟩
    rw [← h, trimStart, List.takeWhile_append_dropWhile]
  · rintro ⟨b, hb, rfl⟩
    rw [trimStart_append hb, trimStart_cons hc]

/-- What trimming leaves does not end with white space. -/
theorem isBlank_getLast_trimEnd (hc : (trimEnd s).getLast? = some c) : isBlank c = false := by
  have hfirst := List.head?_dropWhile_not isBlank s.reverse
  rw [trimEnd, List.getLast?_reverse] at hc
  rw [hc] at hfirst
  exact hfirst

/-- Trimming leaves a part of the text. -/
theorem prefix_trimEnd (s : List Char) : trimEnd s <+: s := by
  have h : s.reverse.dropWhile isBlank <:+ s.reverse := List.dropWhile_suffix isBlank
  rwa [← List.reverse_prefix, List.reverse_reverse] at h

theorem suffix_trimStart (s : List Char) : trimStart s <:+ s := List.dropWhile_suffix isBlank

theorem trim_subset (s : List Char) : trim s ⊆ s := fun _ h =>
  (suffix_trimStart s).subset ((prefix_trimEnd (trimStart s)).subset h)

/-- Only white space is taken away. -/
theorem mem_trimStart (hblank : isBlank c = false) (hc : c ∈ s) : c ∈ trimStart s := by
  rw [← List.takeWhile_append_dropWhile (p := isBlank) (l := s), List.mem_append] at hc
  refine hc.resolve_left fun hfront => ?_
  have hall := List.all_eq_true.mp List.all_takeWhile c hfront
  simp [hblank] at hall

theorem mem_trim (hblank : isBlank c = false) (hc : c ∈ s) : c ∈ trim s := by
  have hstart : c ∈ (trimStart s).reverse := List.mem_reverse.mpr (mem_trimStart hblank hc)
  exact List.mem_reverse.mpr (mem_trimStart hblank hstart)

/-- Trimming takes away the white space around a text without any. -/
theorem trim_append {b b' : List Char} (hb : ∀ c ∈ b, isBlank c = true)
    (hb' : ∀ c ∈ b', isBlank c = true) (hs : ∀ c ∈ s, isBlank c = false) (hne : s ≠ []) :
    trim (b ++ s ++ b') = s := by
  have hend : trimEnd s = s := trimEnd_of_ne_nil [] hs hne
  rw [trim, List.append_assoc, Text.trimStart_append hb, trimStart_of_ne_nil hs hne,
    Text.trimEnd_append s hb', hend]

end ShaderPack.Text
