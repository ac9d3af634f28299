namespace ShaderPack.Text

/-!
# Text as characters, measured in UTF-8 bytes

A text is a `List Char` while it is being read; `String` is its form at the edge of the
library.  Lengths and offsets count the bytes of the UTF-8 form, so `width` is the measure
of everything here:

* `width_append` — widths add up along a text;
* `offset?` — the byte offset of the first occurrence of a pattern, with
  `offset?_eq_some` to cut the text there;
* `charsIn?` — how many characters fill a given number of bytes, if a character ends there.

`isSpace` and `isWord` are the two ASCII classes that declarations are made of.
-/

/-- The five ASCII blanks: space, tab, line feed, form feed and carriage return.
    The vertical tab is not one of them. -/
def isSpace (c : Char) : Bool :=
  c = ' ' || c = '\t' || c = '\n' || c = '\x0c' || c = '\r'

/-- The characters of an identifier: ASCII letters, digits and the underscore. -/
def isWord (c : Char) : Bool :=
  c.isAlphanum || c = '_'

/-- Number of bytes of a text in UTF-8. -/
def width (s : List Char) : Nat :=
  s.foldl (fun n c => n + c.utf8Size) 0

@[simp] theorem width_nil : width [] = 0 := rfl

@[simp] theorem width_cons (c : Char) (s : List Char) :
    width (c :: s) = c.utf8Size + width s := by
  have shift (n : Nat) (s : List Char) :
      s.foldl (fun n c => n + c.utf8Size) n = n + width s := by
    induction s generalizing n with
    | nil => rfl
    | cons d s ih =>
      rw [width, List.foldl_cons, List.foldl_cons, ih, ih (0 + d.utf8Size)]
      omega
  rw [width, List.foldl_cons, shift]
  omega

/-- Widths add up along a text. -/
@[simp] theorem width_append (s t : List Char) : width (s ++ t) = width s + width t := by
  induction s with
  | nil => simp
  | cons c s ih => simp only [List.cons_append, width_cons, ih, Nat.add_assoc]

/-! ### Pieces -/

/-- The text before and after the first `x`, if there is one. -/
def cutAt? (x : Char) (s : List Char) : Option (List Char × List Char) :=
  match s.dropWhile (· != x) with
  | [] => none
  | _ :: after => some (s.takeWhile (· != x), after)

/-- The pieces of a text between the occurrences of `x`; there is always at least one. -/
def pieces (x : Char) (s : List Char) : List (List Char) :=
  s.foldr (fun c parts =>
    if c = x then [] :: parts
    else match parts with
      | [] => [[c]]
      | part :: parts => (c :: part) :: parts) [[]]

@[simp] theorem pieces_nil (x : Char) : pieces x [] = [[]] := rfl

/-- A separator opens a piece, any other character is put in front of the first one. -/
theorem pieces_cons (x c : Char) (s : List Char) :
    pieces x (c :: s) = if c = x then [] :: pieces x s
      else match pieces x s with
        | [] => [[c]]
        | part :: parts => (c :: part) :: parts := rfl

/-- Whether a string begins with the given one. -/
def startsWith (lead s : String) : Bool :=
  lead.toList.isPrefixOf s.toList

/-- `s` pushed to the right with blanks until it is `size` characters long. -/
def padLeft (size : Nat) (s : String) : String :=
  String.ofList (List.replicate (size - s.length) ' ') ++ s

/-! ### Offsets of occurrences -/

/-- Byte offset of the first occurrence of `pattern`, where the text itself begins at byte
    `start`. -/
def offset? (pattern : List Char) (start : Nat) : List Char → Option Nat
  | [] => if pattern.isEmpty then some start else none
  | c :: rest =>
    if pattern.isPrefixOf (c :: rest) then some start
    else offset? pattern (start + c.utf8Size) rest

/-- A found offset cuts the text before an occurrence of the pattern. -/
theorem offset?_eq_some {pattern s : List Char} {start found : Nat}
    (h : offset? pattern start s = some found) :
    ∃ before after, s = before ++ pattern ++ after ∧ found = start + width before := by
  induction s generalizing start with
  | nil =>
    simp only [offset?, List.isEmpty_iff] at h
    split at h
    · next hp => exact ⟨[], [], by simp [hp], by simpa using h.symm⟩
    · simp at h
  | cons c rest ih =>
    simp only [offset?] at h
    split at h
    · next hp =>
      obtain ⟨after, hafter⟩ := List.isPrefixOf_iff_prefix.mp hp
      exact ⟨[], after, by simp [hafter], by simpa using h.symm⟩
    · obtain ⟨before, after, hs, hfound⟩ := ih h
      refine ⟨c :: before, after, by simp [hs], ?_⟩
      simp only [width_cons]
      omega

/-! ### Characters in a number of bytes -/

/-- How many characters fill exactly the given number of bytes, counted on top of `seen`;
    `none` if the text is shorter or a character straddles that point. -/
def charsIn? (seen : Nat) : List Char → Nat → Option Nat
  | _, 0 => some seen
  | [], _ + 1 => none
  | c :: rest, bytes + 1 =>
    if bytes + 1 < c.utf8Size then none
    else charsIn? (seen + 1) rest (bytes + 1 - c.utf8Size)

/-- The characters of a leading part fill exactly its width. -/
theorem charsIn?_append (seen : Nat) (s t : List Char) :
    charsIn? seen (s ++ t) (width s) = some (seen + s.length) := by
  induction s generalizing seen with
  | nil => simp [charsIn?]
  | cons c s ih =>
    have hc := c.utf8Size_pos
    obtain ⟨n, hn⟩ : ∃ n, width (c :: s) = n + 1 := ⟨width (c :: s) - 1, by
      simp only [width_cons]; omega⟩
    rw [hn, List.cons_append, charsIn?, ← hn, if_neg (by simp),
      show width (c :: s) - c.utf8Size = width s by simp, ih, List.length_cons]
    congr 1
    omega

end ShaderPack.Text
