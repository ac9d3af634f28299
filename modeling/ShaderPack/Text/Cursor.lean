import ShaderPack.Text.Basic

namespace ShaderPack.Text

/-!
# A forward-only cursor over a text

A cursor stands at a byte offset of a text and never moves back.  `seek` and `bump` count
bytes, so they can leave it inside a character that takes several bytes.  Reading text needs
a place between two characters: every reading operation (`rest?`, `sliceTo?`, `find?`,
`skipSpace?`, `nextWord?`, `skipLine?`) answers `none` where there is no such place, and
`sliceTo?` also when its end is none or lies outside the text.

`OnBoundary` says that the cursor stands between two characters.  From there reading
succeeds, and the lemmas below say what it yields in terms of the text that remains:

* `seek_eq` — a seek over whole characters drops them;
* `sliceTo?_eq` — a slice that ends between two characters is the text up to there;
* `find?_cases`, `cut?_cases` — a search finds an occurrence, or there is nothing to find;
* `Ahead` — a character stands ahead of the cursor; words and blanks are read before it, and
  slices and seeks that end at it succeed.
-/

/-- A place in a text: the byte offset `start` of the first character of `rest`, and how
    many bytes of that character are already passed. -/
structure Cursor where
  start : Nat
  skew : Nat
  rest : List Char
  deriving DecidableEq, Repr

namespace Cursor

/-- The cursor at the beginning of a text. -/
def ofList (s : List Char) : Cursor := ⟨0, 0, s⟩

/-- Offset in bytes from the beginning of the text. -/
def pos (c : Cursor) : Nat := c.start + c.skew

/-- The cursor stands between two characters, or at an end of the text. -/
def OnBoundary (c : Cursor) : Prop := c.skew = 0

instance (c : Cursor) : Decidable c.OnBoundary := inferInstanceAs (Decidable (c.skew = 0))

/-! ### Moving and looking -/

/-- Whether the whole text is passed. -/
def isEmpty (c : Cursor) : Bool := c.rest.isEmpty

/-- The byte at the cursor. -/
def peek (c : Cursor) : Option UInt8 :=
  match c.rest with
  | [] => none
  | char :: _ => (String.utf8EncodeChar char)[c.skew]?

/-- The place `bytes` bytes after the beginning of a text that begins at `start`, or the end
    of the text if it is shorter. -/
def settle (start bytes : Nat) : List Char → Cursor
  | [] => ⟨start, 0, []⟩
  | c :: rest =>
    if bytes < c.utf8Size then ⟨start, bytes, c :: rest⟩
    else settle (start + c.utf8Size) (bytes - c.utf8Size) rest

/-- Moves forward to an offset, at most to the end of the text; an offset already passed
    changes nothing. -/
def seek (c : Cursor) (target : Nat) : Cursor :=
  settle c.start (c.skew + (target - c.pos)) c.rest

/-- Moves forward by one byte. -/
def bump (c : Cursor) : Cursor := c.seek (c.pos + 1)

/-- Moves to the end of the text. -/
def toEnd (c : Cursor) : Cursor := c.seek (c.start + width c.rest)

/-! ### Reading -/

/-- The text from the cursor on. -/
def rest? (c : Cursor) : Option (List Char) :=
  if c.OnBoundary then some c.rest else none

/-- The text between the cursor and an offset; empty if the offset is already passed. -/
def sliceTo? (c : Cursor) (stop : Nat) : Option (List Char) := do
  let rest ← c.rest?
  let count ← charsIn? 0 rest (stop - c.pos)
  return rest.take count

/-- Offset of the next occurrence of a pattern: the outer answer is missing when the cursor
    cannot read, the inner one when nothing is found. -/
def find? (c : Cursor) (pattern : String) : Option (Option Nat) := do
  let rest ← c.rest?
  return offset? pattern.toList c.start rest

/-- The text before the next occurrence of a pattern and the cursor behind it; the inner
    answer is missing when nothing is found. -/
def cut? (c : Cursor) (pattern : String) : Option (Option (List Char × Cursor)) := do
  match ← c.find? pattern with
  | none => return none
  | some found =>
    let before ← c.sliceTo? found
    return some (before, c.seek (found + width pattern.toList))

/-- Moves over the characters of a class. -/
def skipWhile? (p : Char → Bool) (c : Cursor) : Option Cursor := do
  let rest ← c.rest?
  return ⟨c.start + width (rest.takeWhile p), 0, rest.dropWhile p⟩

/-- Moves over ASCII blanks. -/
def skipSpace? (c : Cursor) : Option Cursor := c.skipWhile? isSpace

/-- Reads an identifier with the blanks around it; the word is empty when the cursor is not
    in front of one. -/
def nextWord? (c : Cursor) : Option (List Char × Cursor) := do
  let c ← c.skipSpace?
  let rest ← c.rest?
  let c ← c.skipWhile? isWord
  let c ← c.skipSpace?
  return (rest.takeWhile isWord, c)

/-- Moves behind the next line feed, or to the end if there is none, and over the blanks
    there. -/
def skipLine? (c : Cursor) : Option Cursor := do
  match ← c.find? "\n" with
  | some eol => (c.seek (eol + 1)).skipSpace?
  | none => c.toEnd.skipSpace?

/-! ### Reading between two characters -/

@[simp] theorem onBoundary_ofList (s : List Char) : (ofList s).OnBoundary := rfl

@[simp] theorem onBoundary_mk (start : Nat) (s : List Char) :
    (Cursor.mk start 0 s).OnBoundary := rfl

/-- Between two characters the offset is that of the remaining text. -/
theorem OnBoundary.pos_eq {c : Cursor} (h : c.OnBoundary) : c.pos = c.start := by
  simp [pos, show c.skew = 0 from h]

theorem rest?_eq {c : Cursor} (h : c.OnBoundary) : c.rest? = some c.rest := by
  simp [rest?, h]

/-- Going over whole characters lands between two of them. -/
theorem settle_append (start : Nat) (s t : List Char) :
    settle start (width s) (s ++ t) = ⟨start + width s, 0, t⟩ := by
  induction s generalizing start with
  | nil =>
    cases t with
    | nil => rfl
    | cons c t => simp [settle, c.utf8Size_pos]
  | cons c s ih =>
    have : width (c :: s) - c.utf8Size = width s := by simp
    rw [List.cons_append, settle, if_neg (by simp), this, ih, width_cons]
    congr 1
    omega

/-- A seek over whole characters drops them. -/
theorem seek_eq {c : Cursor} (h : c.OnBoundary) {s t : List Char} (hs : c.rest = s ++ t)
    {target : Nat} (ht : target = c.start + width s) : c.seek target = ⟨target, 0, t⟩ := by
  have hskew : c.skew = 0 := h
  subst ht
  rw [seek, h.pos_eq, hskew, hs, ← settle_append]
  congr 1
  omega

/-- The end of the text is between two characters, and nothing remains. -/
theorem toEnd_eq {c : Cursor} (h : c.OnBoundary) :
    c.toEnd = ⟨c.start + width c.rest, 0, []⟩ :=
  seek_eq h (s := c.rest) (by simp) rfl

/-- A slice that ends between two characters is the text up to there. -/
theorem sliceTo?_eq {c : Cursor} (h : c.OnBoundary) {s t : List Char} (hs : c.rest = s ++ t)
    {stop : Nat} (hstop : stop = c.start + width s) : c.sliceTo? stop = some s := by
  have hcount : charsIn? 0 c.rest (stop - c.pos) = some s.length := by
    rw [h.pos_eq, hs, hstop, Nat.add_sub_cancel_left, charsIn?_append, Nat.zero_add]
  rw [sliceTo?, rest?_eq h]
  simp only [Option.bind_eq_bind, Option.bind_some, hcount]
  simp [hs]

/-- A search answers, and what it finds cuts the remaining text. -/
theorem find?_cases {c : Cursor} (h : c.OnBoundary) (pattern : String) :
    c.find? pattern = some none ∨
      ∃ before after, c.find? pattern = some (some (c.start + width before)) ∧
        c.rest = before ++ pattern.toList ++ after := by
  cases hfind : offset? pattern.toList c.start c.rest with
  | none => left; simp [find?, rest?_eq h, hfind]
  | some found =>
    obtain ⟨before, after, hs, hfound⟩ := offset?_eq_some hfind
    exact .inr ⟨before, after, by simp [find?, rest?_eq h, hfind, hfound], hs⟩

/-- A search answers. -/
theorem find?_isSome {c : Cursor} (h : c.OnBoundary) (pattern : String) :
    ∃ found, c.find? pattern = some found := by
  simp [find?, rest?_eq h]

/-- A cut answers, and what it finds splits the remaining text around the pattern. -/
theorem cut?_cases {c : Cursor} (h : c.OnBoundary) (pattern : String) :
    c.cut? pattern = some none ∨
      ∃ before next, c.cut? pattern = some (some (before, next)) ∧ next.OnBoundary ∧
        c.rest = before ++ pattern.toList ++ next.rest := by
  rcases find?_cases h pattern with hnone | ⟨before, after, hsome, hs⟩
  · left
    simp [cut?, hnone]
  · have hslice : c.sliceTo? (c.start + width before) = some before :=
      sliceTo?_eq h (by rw [hs, List.append_assoc]) rfl
    have hseek : c.seek (c.start + width before + width pattern.toList) = ⟨_, 0, after⟩ :=
      seek_eq h hs (by simp only [width_append]; omega)
    exact .inr ⟨before, ⟨_, 0, after⟩, by simp [cut?, hsome, hslice, hseek]; rfl, rfl, hs⟩

/-- Moving over a class succeeds and splits the remaining text. -/
theorem skipWhile?_eq (p : Char → Bool) {c : Cursor} (h : c.OnBoundary) :
    c.skipWhile? p =
      some ⟨c.start + width (c.rest.takeWhile p), 0, c.rest.dropWhile p⟩ := by
  simp [skipWhile?, rest?_eq h]

/-- Moving over blanks leaves an end of what remained. -/
theorem skipSpace?_eq {c : Cursor} (h : c.OnBoundary) :
    ∃ next, c.skipSpace? = some next ∧ next.OnBoundary ∧ next.rest <:+ c.rest :=
  ⟨_, skipWhile?_eq isSpace h, rfl, List.dropWhile_suffix _⟩

/-- A class ends at the latest in front of a character outside it. -/
theorem dropWhile_append_cons {p : Char → Bool} {x : Char} (hx : p x = false)
    (s t : List Char) : (s ++ x :: t).dropWhile p = s.dropWhile p ++ x :: t := by
  induction s with
  | nil => simp [hx]
  | cons d s ih => by_cases hd : p d <;> simp [hd, ih]

theorem takeWhile_append_cons {p : Char → Bool} {x : Char} (hx : p x = false)
    (s t : List Char) : (s ++ x :: t).takeWhile p = s.takeWhile p := by
  induction s with
  | nil => simp [hx]
  | cons d s ih => by_cases hd : p d <;> simp [hd, ih]

/-! ### A character ahead -/

/-- The cursor can read, and ahead of it stands `x` at offset `stop` with `after` behind. -/
def Ahead (c : Cursor) (x : Char) (after : List Char) (stop : Nat) : Prop :=
  c.OnBoundary ∧ ∃ before, c.rest = before ++ x :: after ∧ c.start + width before = stop

namespace Ahead

variable {c : Cursor} {x : Char} {after : List Char} {stop : Nat}

/-- A character that was found stands ahead. -/
theorem of_find? (h : c.OnBoundary) {pattern : String} (hp : pattern.toList = [x])
    (hfind : c.find? pattern = some (some stop)) : ∃ after, c.Ahead x after stop := by
  rcases find?_cases h pattern with hnone | ⟨before, after, hsome, hs⟩
  · simp [hnone] at hfind
  · rw [hsome] at hfind
    exact ⟨after, h, before, by simpa [hp] using hs, by simpa using hfind⟩

/-- The text before the character can be cut out. -/
theorem sliceTo? (h : c.Ahead x after stop) : ∃ s, c.sliceTo? stop = some s :=
  let ⟨hc, before, hs, hstop⟩ := h
  ⟨before, sliceTo?_eq hc hs hstop.symm⟩

/-- The text up to and with the character can be cut out. -/
theorem sliceTo?_through (h : c.Ahead x after stop) :
    ∃ s, c.sliceTo? (stop + x.utf8Size) = some s := by
  obtain ⟨hc, before, hs, hstop⟩ := h
  refine ⟨before ++ [x], sliceTo?_eq hc (t := after) (by simp [hs]) ?_⟩
  simp only [width_append, width_cons, width_nil]
  omega

/-- A seek to the character stands in front of it. -/
theorem seek (h : c.Ahead x after stop) : c.seek stop = ⟨stop, 0, x :: after⟩ :=
  let ⟨hc, _, hs, hstop⟩ := h
  seek_eq hc hs hstop.symm

/-- A seek behind the character leaves what follows it. -/
theorem seek_through (h : c.Ahead x after stop) :
    c.seek (stop + x.utf8Size) = ⟨stop + x.utf8Size, 0, after⟩ := by
  obtain ⟨hc, before, hs, hstop⟩ := h
  refine seek_eq hc (s := before ++ [x]) (by simp [hs]) ?_
  simp only [width_append, width_cons, width_nil]
  omega

/-- Moving over a class leaves a character outside it ahead. -/
theorem skipWhile? (h : c.Ahead x after stop) {p : Char → Bool} (hx : p x = false) :
    ∃ next, c.skipWhile? p = some next ∧ next.Ahead x after stop := by
  obtain ⟨hc, before, hs, hstop⟩ := h
  refine ⟨_, skipWhile?_eq p hc, rfl, before.dropWhile p, ?_, ?_⟩
  · simp [hs, dropWhile_append_cons hx]
  · have : width (before.takeWhile p) + width (before.dropWhile p) = width before := by
      rw [← width_append, List.takeWhile_append_dropWhile]
    simp only [hs, takeWhile_append_cons hx]
    omega

/-- Reading a word leaves a character that belongs to no word ahead. -/
theorem nextWord? (h : c.Ahead x after stop) (hspace : isSpace x = false)
    (hword : isWord x = false) :
    ∃ word next, c.nextWord? = some (word, next) ∧ next.Ahead x after stop := by
  obtain ⟨c₁, h₁, hc₁⟩ := h.skipWhile? hspace
  obtain ⟨c₂, h₂, hc₂⟩ := hc₁.skipWhile? hword
  obtain ⟨c₃, h₃, hc₃⟩ := hc₂.skipWhile? hspace
  exact ⟨c₁.rest.takeWhile isWord, c₃, by
    simp [Cursor.nextWord?, skipSpace?, h₁, h₂, h₃, rest?_eq hc₁.1], hc₃⟩

/-- A step over another character of one byte leaves the character ahead. -/
theorem bump (h : c.Ahead x after stop) {y : Char} (hy : c.rest.head? = some y) (hne : y ≠ x)
    (hsize : y.utf8Size = 1) : c.bump.Ahead x after stop := by
  obtain ⟨hc, before, hs, hstop⟩ := h
  cases before with
  | nil => simp [hs] at hy; exact absurd hy.symm hne
  | cons z before =>
    obtain rfl : z = y := by simpa [hs] using hy
    have hbump : c.bump = ⟨c.pos + 1, 0, before ++ x :: after⟩ :=
      seek_eq hc (s := [z]) (by simp [hs]) (by simp [hc.pos_eq, hsize])
    refine hbump ▸ ⟨rfl, before, rfl, ?_⟩
    simp only [width_cons] at hstop
    simp only [hc.pos_eq]
    omega

/-- The character and what follows it are the end of what remains. -/
theorem suffix (h : c.Ahead x after stop) : x :: after <:+ c.rest :=
  let ⟨_, before, hs, _⟩ := h
  ⟨before, hs.symm⟩

/-- The next line begins behind a character that stands ahead. -/
theorem skipLine? (h : c.Ahead x after stop) :
    ∃ next, (c.seek stop).skipLine? = some next ∧ next.OnBoundary ∧
      next.rest.length ≤ after.length := by
  rw [h.seek]
  rcases find?_cases (onBoundary_mk stop (x :: after)) "\n" with hnone | ⟨before, rest, hsome, hs⟩
  · exact ⟨⟨stop + width (x :: after), 0, []⟩, by
      simp [Cursor.skipLine?, hnone, toEnd_eq, skipSpace?, skipWhile?_eq], rfl, by simp⟩
  · have hseek : (Cursor.mk stop 0 (x :: after)).seek (stop + width before + 1) =
        ⟨stop + width before + 1, 0, rest⟩ :=
      seek_eq (onBoundary_mk _ _) hs (by simp [Char.utf8Size]; omega)
    refine ⟨⟨stop + width before + 1 + width (rest.takeWhile isSpace), 0,
      rest.dropWhile isSpace⟩, ?_, rfl, ?_⟩
    · simp [Cursor.skipLine?, hsome, hseek, skipSpace?, skipWhile?_eq]
    · have h₁ := (List.dropWhile_suffix (l := rest) isSpace).length_le
      have h₂ := congrArg List.length hs
      simp at h₂
      simp only
      omega

end Ahead

end Cursor

end ShaderPack.Text
