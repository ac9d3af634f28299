import ShaderPack.Source.Directives
import ShaderPack.Text.Cursor

namespace ShaderPack.Text

open Source (afterLine)

/-!
# Words and blanks — what a cursor reads

A text is read word by word: `firstWord` is the word behind the blanks at its beginning and
`behindWord` the text behind that word and the blanks there.  Both pass over any `Blanks`,
and a `Word` that ends is read as it stands.

`Cursor.Faces` extends `Cursor.Ahead` by the text in between: the cursor stands in front of
`before`, which ends in front of `x`.  Reading then amounts to `firstWord` and `behindWord`
of `before` alone, whatever comes behind `x`.
-/

/-! ### Blanks and words -/

/-- A run of ASCII blanks; it may be empty. -/
structure Blanks where
  text : List Char
  blanks : text.all isSpace = true

/-- Blanks that keep two words apart. -/
structure Gap extends Blanks where
  nonempty : text ≠ []

/-- An identifier. -/
structure Word where
  text : List Char
  identifier : text.all isWord = true
  nonempty : text ≠ []

theorem Blanks.blank (b : Blanks) : ∀ c ∈ b.text, isSpace c = true := by
  have h := b.blanks
  rwa [List.all_eq_true] at h

theorem Word.word (w : Word) : ∀ c ∈ w.text, isWord c = true := by
  have h := w.identifier
  rwa [List.all_eq_true] at h

/-- The word at the beginning of a text, behind blanks; empty where the text goes on with
    something else. -/
def firstWord (s : List Char) : List Char := (s.dropWhile isSpace).takeWhile isWord

/-- The text behind its first word and the blanks there. -/
def behindWord (s : List Char) : List Char :=
  ((s.dropWhile isSpace).dropWhile isWord).dropWhile isSpace

/-- No word goes on at the beginning of the text. -/
def Stops (s : List Char) : Prop := ∀ c ∈ s.head?, isWord c = false

/-- A blank belongs to no word. -/
theorem isWord_of_isSpace {c : Char} (h : isSpace c = true) : isWord c = false := by
  simp only [isSpace, Bool.or_eq_true, decide_eq_true_eq] at h
  rcases h with (((rfl | rfl) | rfl) | rfl) | rfl <;> decide

/-- A character of a word is no blank. -/
theorem isSpace_of_isWord {c : Char} (h : isWord c = true) : isSpace c = false := by
  cases hspace : isSpace c with
  | false => rfl
  | true =>
    have hword : isWord c = false := isWord_of_isSpace hspace
    rw [h] at hword
    exact hword

theorem Stops.nil : Stops [] := by simp [Stops]

theorem Stops.cons {x : Char} (hx : isWord x = false) (s : List Char) : Stops (x :: s) := by
  intro c hc
  rw [List.head?_cons, Option.mem_some_iff] at hc
  exact hc ▸ hx

/-- A word ends in front of blanks if it ends behind them. -/
theorem Stops.blanks (b : Blanks) {s : List Char} (hs : Stops s) : Stops (b.text ++ s) := by
  cases htext : b.text with
  | nil => exact hs
  | cons c rest =>
    have hc : isSpace c = true := b.blank c (by simp [htext])
    exact Stops.cons (isWord_of_isSpace hc) _

/-- A word ends in front of a gap. -/
theorem Stops.gap (g : Gap) (s : List Char) : Stops (g.text ++ s) := by
  obtain ⟨c, rest, htext⟩ := List.exists_cons_of_ne_nil g.nonempty
  have hc : isSpace c = true := g.blank c (by simp [htext])
  rw [htext]
  exact Stops.cons (isWord_of_isSpace hc) _

theorem Stops.takeWhile {s : List Char} (hs : Stops s) : s.takeWhile isWord = [] := by
  cases s with
  | nil => rfl
  | cons c s => simp [hs c rfl]

theorem Stops.dropWhile {s : List Char} (hs : Stops s) : s.dropWhile isWord = s := by
  cases s with
  | nil => rfl
  | cons c s => simp [hs c rfl]

/-- Behind the word in front no word goes on. -/
theorem stops_dropWhile (s : List Char) : Stops (s.dropWhile isWord) := by
  intro c hc
  have hhead := List.head?_dropWhile_not isWord s
  rw [Option.mem_def.mp hc] at hhead
  simpa using hhead

/-- What holds of characters holds of those of the string made of them.  A literal is such a
    string, so a fact about it need not go through its bytes. -/
theorem of_chars {P : List Char → Prop} {s : List Char} (h : P s) :
    P (String.ofList s).toList := by
  rwa [String.toList_ofList]

/-- Leaving out a class once or twice is the same. -/
theorem dropWhile_dropWhile (p : Char → Bool) (s : List Char) :
    (s.dropWhile p).dropWhile p = s.dropWhile p := by
  induction s with
  | nil => rfl
  | cons c s ih => by_cases hc : p c = true <;> simp [hc, ih]

/-- Where a class is left out, no more of it is in front. -/
theorem takeWhile_dropWhile (p : Char → Bool) (s : List Char) :
    (s.dropWhile p).takeWhile p = [] := by
  induction s with
  | nil => rfl
  | cons x s ih => by_cases hx : p x = true <;> simp [hx, ih]

@[simp] theorem Blanks.dropWhile_append (b : Blanks) (s : List Char) :
    (b.text ++ s).dropWhile isSpace = s.dropWhile isSpace :=
  List.dropWhile_append_of_pos b.blank

@[simp] theorem Word.dropWhile_append (w : Word) (s : List Char) :
    (w.text ++ s).dropWhile isSpace = w.text ++ s := by
  obtain ⟨c, rest, htext⟩ := List.exists_cons_of_ne_nil w.nonempty
  have hc : isSpace c = false := isSpace_of_isWord (w.word c (by simp [htext]))
  simp [htext, hc]

@[simp] theorem firstWord_dropWhile (s : List Char) :
    firstWord (s.dropWhile isSpace) = firstWord s := by
  rw [firstWord, firstWord, dropWhile_dropWhile]

@[simp] theorem behindWord_dropWhile (s : List Char) :
    behindWord (s.dropWhile isSpace) = behindWord s := by
  rw [behindWord, behindWord, dropWhile_dropWhile]

/-- A word that ends is the first one. -/
theorem firstWord_word (w : Word) {s : List Char} (hs : Stops s) :
    firstWord (w.text ++ s) = w.text := by
  rw [firstWord, w.dropWhile_append, List.takeWhile_append_of_pos w.word, hs.takeWhile,
    List.append_nil]

/-- Behind a word that ends comes what is behind its blanks. -/
theorem behindWord_word (w : Word) {s : List Char} (hs : Stops s) :
    behindWord (w.text ++ s) = s.dropWhile isSpace := by
  rw [behindWord, w.dropWhile_append, List.dropWhile_append_of_pos w.word, hs.dropWhile]

/-- Behind a word the blanks are left out already. -/
theorem dropWhile_behindWord (s : List Char) : (behindWord s).dropWhile isSpace = behindWord s :=
  dropWhile_dropWhile isSpace _

/-- A text begins with blanks or with none. -/
theorem exists_blanks (s : List Char) : ∃ b : Blanks, s = b.text ++ s.dropWhile isSpace :=
  ⟨⟨s.takeWhile isSpace, List.all_takeWhile⟩, List.takeWhile_append_dropWhile.symm⟩

/-- A text with a word in front is that word, which ends there, with blanks and the text behind
    them. -/
theorem exists_word {s : List Char} (hfront : s.dropWhile isSpace = s) (hword : firstWord s ≠ []) :
    ∃ (w : Word) (b : Blanks), w.text = firstWord s ∧ s = w.text ++ (b.text ++ behindWord s) ∧
      Stops (b.text ++ behindWord s) := by
  obtain ⟨b, hb⟩ := exists_blanks (s.dropWhile isWord)
  have hbehind : b.text ++ behindWord s = s.dropWhile isWord := by
    rw [behindWord, hfront]
    exact hb.symm
  have hs : s = firstWord s ++ (b.text ++ behindWord s) := by
    rw [hbehind, firstWord, hfront, List.takeWhile_append_dropWhile]
  refine ⟨⟨firstWord s, List.all_takeWhile, hword⟩, b, rfl, hs, ?_⟩
  rw [hbehind]
  exact stops_dropWhile s

/-- Two words are kept apart by a gap. -/
theorem exists_gap {s : List Char} (hfront : s.dropWhile isSpace = s) (hword : firstWord s ≠ [])
    (hnext : firstWord (behindWord s) ≠ []) :
    ∃ (w : Word) (g : Gap), w.text = firstWord s ∧ s = w.text ++ (g.text ++ behindWord s) := by
  obtain ⟨w, b, hw, hs, hstops⟩ := exists_word hfront hword
  have hgap : b.text ≠ [] := by
    intro hnil
    rw [hnil, List.nil_append] at hstops
    exact hnext (by rw [firstWord, dropWhile_behindWord, hstops.takeWhile])
  exact ⟨w, ⟨b, hgap⟩, hw, hs⟩

/-- A character that is neither blank nor part of a word ends the first word. -/
theorem firstWord_append_cons {x : Char} (hspace : isSpace x = false) (hword : isWord x = false)
    (s t : List Char) : firstWord (s ++ x :: t) = firstWord s := by
  rw [firstWord, Cursor.dropWhile_append_cons hspace, Cursor.takeWhile_append_cons hword,
    firstWord]

theorem behindWord_append_cons {x : Char} (hspace : isSpace x = false) (hword : isWord x = false)
    (s t : List Char) : behindWord (s ++ x :: t) = behindWord s ++ x :: t := by
  rw [behindWord, Cursor.dropWhile_append_cons hspace, Cursor.dropWhile_append_cons hword,
    Cursor.dropWhile_append_cons hspace, behindWord]

/-- Whether a text begins with some characters of a class is seen in its leading part of that
    class. -/
theorem prefix_takeWhile_iff {p : Char → Bool} {lead : List Char}
    (hlead : ∀ c ∈ lead, p c = true) (s : List Char) :
    lead <+: s.takeWhile p ↔ lead <+: s := by
  constructor
  · intro h
    exact h.trans (List.takeWhile_prefix p)
  · rintro ⟨t, rfl⟩
    rw [List.takeWhile_append_of_pos hlead]
    exact List.prefix_append _ _

/-- Behind a word, a text begins with a word exactly if its next word does. -/
theorem prefix_firstWord_behindWord {lead : List Char} (hlead : ∀ c ∈ lead, isWord c = true)
    (s : List Char) : lead <+: firstWord (behindWord s) ↔ lead <+: behindWord s := by
  rw [firstWord, dropWhile_behindWord, prefix_takeWhile_iff hlead]

/-! ### The first occurrence of a character -/

/-- A character is found in front of its first occurrence. -/
theorem offset?_append_cons {x : Char} {before : List Char} (hx : x ∉ before) (start : Nat)
    (after : List Char) :
    offset? [x] start (before ++ x :: after) = some (start + width before) := by
  induction before generalizing start with
  | nil => simp [offset?]
  | cons c before ih =>
    simp only [List.mem_cons, not_or] at hx
    obtain ⟨hc, hx⟩ := hx
    rw [List.cons_append, offset?, if_neg (by simpa using hc), ih hx, width_cons, Nat.add_assoc]

/-- A character that does not occur is not found. -/
theorem offset?_eq_none {x : Char} {s : List Char} (hx : x ∉ s) (start : Nat) :
    offset? [x] start s = none := by
  induction s generalizing start with
  | nil => rfl
  | cons c s ih =>
    simp only [List.mem_cons, not_or] at hx
    obtain ⟨hc, hx⟩ := hx
    rw [offset?, if_neg (by simpa using hc), ih hx]

/-- A text is cut at the first occurrence of a character. -/
theorem cutAt?_append_cons {x : Char} {s : List Char} (hx : x ∉ s) (t : List Char) :
    cutAt? x (s ++ x :: t) = some (s, t) := by
  have hs : ∀ c ∈ s, (c != x) = true := fun c hc => by
    simpa using fun h : c = x => hx (h ▸ hc)
  have hdrop : (s ++ x :: t).dropWhile (· != x) = x :: t := by
    rw [List.dropWhile_append_of_pos hs]
    simp
  have htake : (s ++ x :: t).takeWhile (· != x) = s := by
    rw [List.takeWhile_append_of_pos hs]
    simp
  rw [cutAt?, hdrop, htake]

/-- A text is not cut at a character that does not occur. -/
theorem cutAt?_eq_none {x : Char} {s : List Char} (hx : x ∉ s) : cutAt? x s = none := by
  have hdrop : (s ++ []).dropWhile (· != x) = [] :=
    List.dropWhile_append_of_pos fun c hc => by simpa using ne_of_mem_of_not_mem hc hx
  rw [List.append_nil] at hdrop
  rw [cutAt?, hdrop]

/-- A cut answers with what stands around the first occurrence, or there is none. -/
theorem cutAt?_cases (x : Char) (s : List Char) :
    (x ∉ s ∧ cutAt? x s = none) ∨
      ∃ before after, s = before ++ x :: after ∧ x ∉ before ∧
        cutAt? x s = some (before, after) := by
  by_cases hx : x ∈ s
  · obtain ⟨before, after, rfl, hbefore⟩ := List.eq_append_cons_of_mem hx
    exact .inr ⟨before, after, rfl, hbefore, cutAt?_append_cons hbefore after⟩
  · exact .inl ⟨hx, cutAt?_eq_none hx⟩

/-- A text is cut at the first occurrence. -/
theorem cutAt?_eq_some {x : Char} {s before after : List Char} :
    cutAt? x s = some (before, after) ↔ s = before ++ x :: after ∧ x ∉ before := by
  constructor
  · intro h
    rcases cutAt?_cases x s with ⟨-, hnone⟩ | ⟨before', after', hs, hbefore, hsome⟩
    · rw [hnone] at h
      cases h
    · rw [hsome] at h
      cases h
      exact ⟨hs, hbefore⟩
  · rintro ⟨rfl, hbefore⟩
    exact cutAt?_append_cons hbefore after

/-! ### Lines -/

/-- A text is what comes behind the line feed in front of it. -/
theorem afterLine_append {line : List Char} (hline : '\n' ∉ line) (s : List Char) :
    afterLine (line ++ '\n' :: s) = s := by
  have hdrop : (line ++ '\n' :: s).dropWhile (· != '\n') = '\n' :: s := by
    rw [List.dropWhile_append_of_pos (by intro c hc; simpa using ne_of_mem_of_not_mem hc hline)]
    simp
  rw [afterLine, hdrop, List.drop_one, List.tail_cons]

/-- Behind the last line there is nothing. -/
theorem afterLine_eq_nil {line : List Char} (hline : '\n' ∉ line) : afterLine line = [] := by
  have hdrop : (line ++ []).dropWhile (· != '\n') = [] := by
    rw [List.dropWhile_append_of_pos (by intro c hc; simpa using ne_of_mem_of_not_mem hc hline)]
    rfl
  rw [afterLine, ← List.append_nil line, hdrop]
  rfl

/-- The text behind a line goes on with what is put behind it, unless there is none. -/
theorem afterLine_append_of_ne_nil {s : List Char} (h : afterLine s ≠ []) (more : List Char) :
    afterLine (s ++ more) = afterLine s ++ more := by
  by_cases hended : '\n' ∈ s
  · obtain ⟨line, rest, rfl, hline⟩ := List.eq_append_cons_of_mem hended
    rw [List.append_assoc, List.cons_append, afterLine_append hline, afterLine_append hline]
  · exact absurd (afterLine_eq_nil hended) h

/-- The text from the next line on, without the blanks there; empty in the last line. -/
def nextLine (s : List Char) : List Char :=
  ((s.dropWhile (· != '\n')).drop 1).dropWhile isSpace

theorem nextLine_eq (s : List Char) : nextLine s = (afterLine s).dropWhile isSpace := rfl

/-- A line ends at its line feed. -/
theorem nextLine_append {line : List Char} (hline : '\n' ∉ line) (s : List Char) :
    nextLine (line ++ '\n' :: s) = s.dropWhile isSpace := by
  rw [nextLine_eq, afterLine_append hline]

theorem nextLine_eq_nil {line : List Char} (hline : '\n' ∉ line) : nextLine line = [] := by
  rw [nextLine_eq, afterLine_eq_nil hline]
  rfl

/-! ### A cursor in front of a text -/

namespace Cursor

/-- The next line is found from between two characters. -/
theorem skipLine?_eq {c : Cursor} (h : c.OnBoundary) :
    ∃ next, c.skipLine? = some next ∧ next.OnBoundary ∧ next.rest = nextLine c.rest := by
  by_cases hx : '\n' ∈ c.rest
  · obtain ⟨line, rest, hrest, hline⟩ := List.eq_append_cons_of_mem hx
    have hfind : c.find? "\n" = some (some (c.start + width line)) := by
      simp [find?, rest?_eq h, hrest, offset?_append_cons hline]
    have hseek : c.seek (c.start + width line + 1) = ⟨c.start + width line + 1, 0, rest⟩ :=
      seek_eq h (s := line ++ ['\n']) (by simp [hrest]) (by simp [Char.utf8Size]; omega)
    refine ⟨⟨c.start + width line + 1 + width (rest.takeWhile isSpace), 0,
      rest.dropWhile isSpace⟩, ?_, rfl, ?_⟩
    · simp [skipLine?, hfind, hseek, skipSpace?, skipWhile?_eq]
    · rw [hrest, nextLine_append hline]
  · have hfind : c.find? "\n" = some none := by
      simp [find?, rest?_eq h, offset?_eq_none hx]
    refine ⟨⟨c.start + width c.rest, 0, []⟩, ?_, rfl, (nextLine_eq_nil hx).symm⟩
    simp [skipLine?, hfind, toEnd_eq h, skipSpace?, skipWhile?_eq]

/-- The cursor can read, and in front of it stands `before`, which ends in front of `x` at
    offset `stop`; `after` comes behind. -/
structure Faces (c : Cursor) (before : List Char) (x : Char) (after : List Char)
    (stop : Nat) : Prop where
  onBoundary : c.OnBoundary
  rest_eq : c.rest = before ++ x :: after
  stop_eq : stop = c.start + width before

namespace Faces

variable {c : Cursor} {before : List Char} {x : Char} {after : List Char} {stop : Nat}

/-- What is in front of the cursor has the character ahead. -/
theorem ahead (h : c.Faces before x after stop) : c.Ahead x after stop :=
  ⟨h.onBoundary, before, h.rest_eq, h.stop_eq.symm⟩

/-- The text before the character is cut out whole. -/
theorem sliceTo? (h : c.Faces before x after stop) : c.sliceTo? stop = some before :=
  sliceTo?_eq h.onBoundary h.rest_eq h.stop_eq

/-- The character is cut out with the text before it. -/
theorem sliceTo?_through (h : c.Faces before x after stop) :
    c.sliceTo? (stop + x.utf8Size) = some (before ++ [x]) := by
  refine sliceTo?_eq h.onBoundary (t := after) (by simp [h.rest_eq]) ?_
  simp only [h.stop_eq, width_append, width_cons, width_nil]
  omega

/-- Moving over a class moves over its characters in the text before the character. -/
theorem skipWhile? (h : c.Faces before x after stop) {p : Char → Bool} (hx : p x = false) :
    ∃ next, c.skipWhile? p = some next ∧ next.Faces (before.dropWhile p) x after stop := by
  refine ⟨_, skipWhile?_eq p h.onBoundary, rfl, ?_, ?_⟩
  · rw [h.rest_eq, dropWhile_append_cons hx]
  · have hwidth : width (before.takeWhile p) + width (before.dropWhile p) = width before := by
      rw [← width_append, List.takeWhile_append_dropWhile]
    simp only [h.rest_eq, takeWhile_append_cons hx, h.stop_eq]
    omega

/-- A word is read off the text before the character. -/
theorem nextWord? (h : c.Faces before x after stop) (hspace : isSpace x = false)
    (hword : isWord x = false) :
    ∃ next, c.nextWord? = some (firstWord before, next) ∧
      next.Faces (behindWord before) x after stop := by
  obtain ⟨c₁, h₁, hf₁⟩ := h.skipWhile? hspace
  obtain ⟨c₂, h₂, hf₂⟩ := hf₁.skipWhile? hword
  obtain ⟨c₃, h₃, hf₃⟩ := hf₂.skipWhile? hspace
  have hfirst : c₁.rest.takeWhile isWord = firstWord before := by
    rw [hf₁.rest_eq, takeWhile_append_cons hword, firstWord]
  refine ⟨c₃, ?_, hf₃⟩
  simp [Cursor.nextWord?, skipSpace?, h₁, h₂, h₃, rest?_eq hf₁.onBoundary, hfirst]

/-- A step over a character of one byte drops it. -/
theorem bump {y : Char} (h : c.Faces (y :: before) x after stop) (hsize : y.utf8Size = 1) :
    c.bump.Faces before x after stop := by
  have hbump : c.bump = ⟨c.pos + 1, 0, before ++ x :: after⟩ :=
    seek_eq h.onBoundary (s := [y]) (by simp [h.rest_eq]) (by simp [h.onBoundary.pos_eq, hsize])
  rw [hbump]
  refine ⟨rfl, rfl, ?_⟩
  simp only [h.stop_eq, width_cons, h.onBoundary.pos_eq, hsize]
  omega

/-- The first occurrence of a character is found, and the cursor faces the text before it. -/
theorem of_notMem (h : c.OnBoundary) (hrest : c.rest = before ++ x :: after)
    (hx : x ∉ before) {pattern : String} (hp : pattern.toList = [x]) :
    ∃ stop, c.find? pattern = some (some stop) ∧ c.Faces before x after stop := by
  refine ⟨c.start + width before, ?_, h, hrest, rfl⟩
  simp [find?, rest?_eq h, hrest, hp, offset?_append_cons hx]

/-- Behind the blanks the cursor faces the text before the first occurrence of a character. -/
theorem of_skipSpace (h : c.OnBoundary) (hrest : c.rest.dropWhile isSpace = before ++ x :: after)
    (hx : x ∉ before) {pattern : String} (hp : pattern.toList = [x]) :
    ∃ next stop, c.skipSpace? = some next ∧ next.isEmpty = false ∧
      next.find? pattern = some (some stop) ∧ next.Faces before x after stop := by
  have hskip : c.skipSpace? = _ := skipWhile?_eq isSpace h
  rw [hrest] at hskip
  obtain ⟨stop, hfind, hfaces⟩ :=
    of_notMem (onBoundary_mk (c.start + width (c.rest.takeWhile isSpace)) (before ++ x :: after))
      rfl hx hp
  exact ⟨_, stop, hskip, by simp [isEmpty], hfind, hfaces⟩

end Faces

end Cursor

end ShaderPack.Text
