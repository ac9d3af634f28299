import ShaderPack.Bytes
import ShaderPack.Proofs.Text.Slicing
import ShaderPack.Proofs.Text.Trimming

namespace ShaderPack.Text

/-!
# The cursor, byte by byte

A cursor over a text can be kept as nothing but a byte offset: it is moved by counting bytes, looks
at single bytes, and all text that it reads are slices from one offset to another.  The offset
`Stands` where a cursor does, and wherever that cursor can read, the slices asked for here lie
between characters and hold the same text, and the offset stands where the cursor does again.

* `Stands.seek` — moving by bytes, also into a character;
* `Stands.sliceTo`, `Stands.find`, `Stands.nextWord`, `Stands.skipLine` — reading;
* `length_takeWhile_utf8` — counting the bytes of an ASCII class is counting its characters,
  since characters of more than one byte begin with no ASCII byte.
-/

/-! ### ASCII classes -/

/-- A class of characters that holds ASCII characters only. -/
def IsAscii (p : Char → Bool) : Prop := ∀ x, p x = true → x.toNat < 128

theorem isAscii_isSpace : IsAscii isSpace := by
  intro x hx
  simp only [isSpace, Bool.or_eq_true, decide_eq_true_eq] at hx
  rcases hx with (((rfl | rfl) | rfl) | rfl) | rfl <;> decide

theorem isAscii_isWord : IsAscii isWord := by
  intro x hx
  have := toNat_of_isWord hx
  omega

/-- Whether a byte is an ASCII character of the class. -/
def asciiByte (p : Char → Bool) (b : UInt8) : Bool := b.toNat < 128 && p (.ofNat b.toNat)

/-- An ASCII character is its one byte. -/
theorem utf8EncodeChar_of_lt {x : Char} (hx : x.toNat < 128) :
    String.utf8EncodeChar x = [.ofNat x.toNat] := by
  have hval : x.val.toNat ≤ 127 := Nat.le_of_lt_succ hx
  rw [String.utf8EncodeChar.eq_1, if_pos hval]
  rfl

/-- Any other character begins with a byte that is no ASCII character. -/
theorem utf8EncodeChar_of_le {x : Char} (hx : 128 ≤ x.toNat) :
    ∃ first more, String.utf8EncodeChar x = first :: more ∧ 128 ≤ first.toNat := by
  have hval : ¬x.val.toNat ≤ 127 := Nat.not_le.mpr hx
  rw [String.utf8EncodeChar.eq_1, if_neg hval]
  split
  · refine ⟨_, _, rfl, ?_⟩
    rw [UInt8.toNat_ofNat']
    omega
  · split
    · refine ⟨_, _, rfl, ?_⟩
      rw [UInt8.toNat_ofNat']
      omega
    · refine ⟨_, _, rfl, ?_⟩
      rw [UInt8.toNat_ofNat']
      omega

/-- A character is of an ASCII class exactly if its first byte is. -/
theorem asciiByte_first {p : Char → Bool} (hp : IsAscii p) (x : Char) :
    ∃ first more, String.utf8EncodeChar x = first :: more ∧ asciiByte p first = p x := by
  by_cases hx : x.toNat < 128
  · have hbyte : (UInt8.ofNat x.toNat).toNat = x.toNat := by
      rw [UInt8.toNat_ofNat']
      omega
    refine ⟨_, _, utf8EncodeChar_of_lt hx, ?_⟩
    rw [asciiByte, hbyte, Char.ofNat_toNat, decide_eq_true hx, Bool.true_and]
  · obtain ⟨first, more, hbytes, hfirst⟩ := utf8EncodeChar_of_le (Nat.not_lt.mp hx)
    refine ⟨first, more, hbytes, ?_⟩
    rw [asciiByte, decide_eq_false (Nat.not_lt.mpr hfirst), Bool.false_and]
    exact (Bool.eq_false_iff.mpr fun h => hx (hp x h)).symm

theorem utf8_cons (x : Char) (s : List Char) :
    Bytes.utf8 (.ofList (x :: s)) = String.utf8EncodeChar x ++ Bytes.utf8 (.ofList s) := by
  simp [Bytes.utf8]

theorem utf8_append (s t : List Char) :
    Bytes.utf8 (.ofList (s ++ t)) = Bytes.utf8 (.ofList s) ++ Bytes.utf8 (.ofList t) := by
  simp [Bytes.utf8]

theorem length_utf8 (s : List Char) : (Bytes.utf8 (.ofList s)).length = width s := by
  induction s with
  | nil => rfl
  | cons x s ih => rw [utf8_cons, List.length_append, String.length_utf8EncodeChar, ih, width_cons]

/-- The bytes of an ASCII class in front of a text are the characters of that class. -/
theorem length_takeWhile_utf8 {p : Char → Bool} (hp : IsAscii p) (s : List Char) :
    ((Bytes.utf8 (.ofList s)).takeWhile (asciiByte p)).length = width (s.takeWhile p) := by
  induction s with
  | nil => rfl
  | cons x s ih =>
    obtain ⟨first, more, hbytes, hclass⟩ := asciiByte_first hp x
    rw [utf8_cons, hbytes, List.cons_append, List.takeWhile_cons, hclass, List.takeWhile_cons]
    cases hpx : p x with
    | false => rfl
    | true =>
      -- a character of the class is that one byte
      have hsingle := hbytes.symm.trans (utf8EncodeChar_of_lt (hp x hpx))
      obtain rfl : more = [] := List.tail_eq_of_cons_eq hsingle
      have hsize : x.utf8Size = 1 := by
        rw [← String.length_utf8EncodeChar, hbytes]
        rfl
      rw [if_pos rfl, if_pos rfl, List.nil_append, List.length_cons, ih, width_cons, hsize,
        Nat.add_comm]

/-! ### A cursor as a byte offset -/

namespace Bytewise

open Slicing (take)

/-- The text from an offset on. -/
def rest (text : List Char) (pos : Nat) : Slicing (List Char) := take text pos (width text)

/-- The text between two offsets; empty if the second one is already passed. -/
def sliceTo (text : List Char) (pos stop : Nat) : Slicing (List Char) :=
  take text pos (max stop pos)

/-- Whether the whole text is passed. -/
def isEmpty (text : List Char) (pos : Nat) : Bool := width text ≤ pos

/-- The byte at an offset. -/
def peek (text : List Char) (pos : Nat) : Option UInt8 := (Bytes.utf8 (.ofList text))[pos]?

/-- Moves forward to an offset, at most to the end of the text. -/
def seek (text : List Char) (pos target : Nat) : Nat := max pos (min target (width text))

/-- Moves forward by one byte. -/
def bump (text : List Char) (pos : Nat) : Nat := seek text pos (pos + 1)

/-- Offset of the next occurrence of a pattern. -/
def find (text : List Char) (pos : Nat) (pattern : String) : Slicing (Option Nat) := do
  let rest ← rest text pos
  return offset? pattern.toList pos rest

/-- Moves over the bytes of a class. -/
def skipWhile (p : UInt8 → Bool) (text : List Char) (pos : Nat) : Slicing Nat := do
  let rest ← rest text pos
  return pos + ((Bytes.utf8 (.ofList rest)).takeWhile p).length

/-- Moves over ASCII blanks. -/
def skipSpace (text : List Char) (pos : Nat) : Slicing Nat :=
  skipWhile (asciiByte isSpace) text pos

/-- Reads an identifier with the blanks around it. -/
def nextWord (text : List Char) (pos : Nat) : Slicing (List Char × Nat) := do
  let front ← skipSpace text pos
  let behind ← skipWhile (asciiByte isWord) text front
  let word ← take text front behind
  let pos ← skipSpace text behind
  return (word, pos)

/-- Moves behind the next line feed, or to the end if there is none, and over the blanks
    there. -/
def skipLine (text : List Char) (pos : Nat) : Slicing Nat := do
  match ← find text pos "\n" with
  | some eol => skipSpace text (seek text pos (eol + 1))
  | none => skipSpace text (seek text pos (width text))

/-- The text before the first occurrence of a pattern. -/
def before (text : List Char) (pattern : String) : Slicing (Option (List Char)) :=
  match offset? pattern.toList 0 text with
  | none => return none
  | some found => some <$> take text 0 found

/-- The text behind the first occurrence of a pattern. -/
def behind (text : List Char) (pattern : String) : Slicing (Option (List Char)) :=
  match offset? pattern.toList 0 text with
  | none => return none
  | some found => some <$> take text (found + width pattern.toList) (width text)

end Bytewise

/-! ### Where an offset and a cursor stand alike -/

variable {text part : List Char} {pos stop : Nat} {c next : Cursor} {p : Char → Bool}

/-- The offset stands in the text where the cursor does. -/
structure Stands (text : List Char) (pos : Nat) (c : Cursor) : Prop where
  text_eq : ∃ before, text = before ++ c.rest ∧ c.start = width before
  pos_eq : pos = c.pos
  inside : c.pos ≤ c.start + width c.rest

theorem stands_ofList (text : List Char) : Stands text 0 (.ofList text) :=
  ⟨⟨[], rfl, rfl⟩, rfl, Nat.zero_le _⟩

/-- What remains begins at the offset of the cursor. -/
theorem Stands.width_eq (h : Stands text pos c) : width text = c.start + width c.rest := by
  obtain ⟨before, htext, hstart⟩ := h.text_eq
  rw [htext, width_append, hstart]

/-- Settling drops whole characters, and goes as many bytes as there are. -/
theorem settle_spec (start bytes : Nat) (s : List Char) :
    ∃ passed, s = passed ++ (Cursor.settle start bytes s).rest ∧
      (Cursor.settle start bytes s).start = start + width passed ∧
      (Cursor.settle start bytes s).pos = start + min bytes (width s) := by
  induction s generalizing start bytes with
  | nil => exact ⟨[], rfl, rfl, by simp [Cursor.settle, Cursor.pos]⟩
  | cons x s ih =>
    rw [Cursor.settle]
    split
    · refine ⟨[], rfl, rfl, ?_⟩
      show start + bytes = _
      rw [width_cons]
      omega
    · obtain ⟨passed, hs, hstart, hpos⟩ := ih (start + x.utf8Size) (bytes - x.utf8Size)
      refine ⟨x :: passed, by rw [List.cons_append, ← hs], ?_, ?_⟩
      · rw [hstart, width_cons, Nat.add_assoc]
      · rw [hpos, width_cons]
        omega

/-- **Moving by bytes** comes to the same place, be it inside a character. -/
theorem Stands.seek (h : Stands text pos c) (target : Nat) :
    Stands text (Bytewise.seek text pos target) (c.seek target) := by
  have hwidth := h.width_eq
  obtain ⟨⟨before, htext, hstart⟩, hpos, hinside⟩ := h
  obtain ⟨passed, hrest, hstart', hpos'⟩ :=
    settle_spec c.start (c.skew + (target - c.pos)) c.rest
  have hseek : c.seek target = Cursor.settle c.start (c.skew + (target - c.pos)) c.rest := rfl
  rw [← hseek] at hrest hstart' hpos'
  have hskew : c.pos = c.start + c.skew := rfl
  have hrestWidth : width c.rest = width passed + width (c.seek target).rest := by
    rw [← width_append, ← hrest]
  refine ⟨⟨before ++ passed, ?_, ?_⟩, ?_, ?_⟩
  · rw [List.append_assoc, ← hrest, htext]
  · rw [width_append, hstart', hstart]
  · rw [Bytewise.seek, hwidth, hpos, hpos']
    omega
  · rw [hpos', hstart']
    omega

theorem Stands.bump (h : Stands text pos c) : Stands text (Bytewise.bump text pos) c.bump := by
  rw [Bytewise.bump, Cursor.bump, ← h.pos_eq]
  exact h.seek (pos + 1)

/-- A cursor that can read stands between two characters. -/
theorem rest?_eq_some (h : c.rest? = some part) : c.OnBoundary ∧ c.rest = part := by
  rw [Cursor.rest?] at h
  split at h
  · next hc => exact ⟨hc, Option.some.inj h⟩
  · cases h

theorem Stands.isEmpty_eq (h : Stands text pos c) (hc : c.OnBoundary) :
    Bytewise.isEmpty text pos = c.isEmpty := by
  rw [Bytewise.isEmpty, h.width_eq, h.pos_eq, hc.pos_eq, Cursor.isEmpty]
  cases c.rest with
  | nil => simp
  | cons x s =>
    have := x.utf8Size_pos
    simp only [width_cons, List.isEmpty_cons, decide_eq_false_iff_not]
    omega

/-- An ASCII byte at a cursor between two characters is the next character. -/
theorem Stands.peek_eq_some (h : Stands text pos c) (hc : c.OnBoundary) {y : Char}
    (hy : y.toNat < 128) :
    Bytewise.peek text pos = some (.ofNat y.toNat) ↔ c.rest.head? = some y := by
  obtain ⟨⟨before, htext, hstart⟩, hpos, -⟩ := h
  rw [Bytewise.peek, htext, utf8_append, hpos, hc.pos_eq, hstart, ← length_utf8,
    List.getElem?_append_right (Nat.le_refl _), Nat.sub_self]
  have hyByte : (UInt8.ofNat y.toNat).toNat = y.toNat := by
    rw [UInt8.toNat_ofNat']
    omega
  cases c.rest with
  | nil => simp [Bytes.utf8]
  | cons x s =>
    rw [utf8_cons, List.head?_cons, Option.some.injEq]
    by_cases hx : x.toNat < 128
    · have hxByte : (UInt8.ofNat x.toNat).toNat = x.toNat := by
        rw [UInt8.toNat_ofNat']
        omega
      rw [utf8EncodeChar_of_lt hx, List.singleton_append, List.getElem?_cons_zero,
        Option.some.injEq, ← UInt8.toNat_inj, hxByte, hyByte, Char.toNat_inj]
    · obtain ⟨first, more, hbytes, hfirst⟩ := utf8EncodeChar_of_le (Nat.not_lt.mp hx)
      rw [hbytes, List.cons_append, List.getElem?_cons_zero, Option.some.injEq,
        ← UInt8.toNat_inj, hyByte]
      refine iff_of_false (by omega) ?_
      rintro rfl
      exact hx hy

/-! ### Reading alike -/

/-- What remains can be taken up to the end of any part that it begins with. -/
theorem Stands.take (h : Stands text pos c) (hc : c.OnBoundary) {after : List Char}
    (hrest : c.rest = part ++ after) (hstop : stop = pos + width part) :
    (Slicing.take text pos stop).Yields (· = part) := by
  obtain ⟨⟨before, htext, hstart⟩, hpos, -⟩ := h
  refine Slicing.yields_take ⟨before, after, ?_, ?_, hstop⟩
  · rw [List.append_assoc, ← hrest, htext]
  · rw [hpos, hc.pos_eq, hstart]

theorem Stands.rest (h : Stands text pos c) (hrest : c.rest? = some part) :
    (Bytewise.rest text pos).Yields (· = part) := by
  obtain ⟨hc, rfl⟩ := rest?_eq_some hrest
  exact h.take hc (List.append_nil _).symm (by rw [h.width_eq, h.pos_eq, hc.pos_eq])

/-- **A slice** up to an offset. -/
theorem Stands.sliceTo (h : Stands text pos c) (hslice : c.sliceTo? stop = some part) :
    (Bytewise.sliceTo text pos stop).Yields (· = part) := by
  simp only [Cursor.sliceTo?, Option.bind_eq_bind, Option.bind_eq_some_iff] at hslice
  obtain ⟨rest, hrest, count, hcount, hpart⟩ := hslice
  obtain ⟨hc, rfl⟩ := rest?_eq_some hrest
  obtain ⟨front, back, hfront, hwidth, rfl⟩ := charsIn?_eq_some hcount
  obtain rfl : front = part := by simpa [hfront] using hpart
  refine h.take hc hfront ?_
  rw [hwidth, h.pos_eq]
  omega

/-- **A search** for a pattern. -/
theorem Stands.find (h : Stands text pos c) {pattern : String} {found : Option Nat}
    (hfind : c.find? pattern = some found) :
    (Bytewise.find text pos pattern).Yields (· = found) := by
  simp only [Cursor.find?, Option.bind_eq_bind, Option.bind_eq_some_iff] at hfind
  obtain ⟨rest, hrest, hfound⟩ := hfind
  refine (h.rest hrest).bind fun rest' hrest' => Slicing.yields_pure ?_
  obtain ⟨hc, -⟩ := rest?_eq_some hrest
  rw [hrest', h.pos_eq, hc.pos_eq]
  exact Option.some.inj hfound

/-- **Moving over an ASCII class** is counting its bytes. -/
theorem Stands.skipWhile (h : Stands text pos c) (hp : IsAscii p)
    (hskip : c.skipWhile? p = some next) :
    (Bytewise.skipWhile (asciiByte p) text pos).Yields (Stands text · next) := by
  simp only [Cursor.skipWhile?, Option.bind_eq_bind, Option.bind_eq_some_iff] at hskip
  obtain ⟨rest, hrest, hnext⟩ := hskip
  obtain rfl := Option.some.inj hnext
  refine (h.rest hrest).bind fun rest' hrest' => Slicing.yields_pure ?_
  obtain ⟨hc, rfl⟩ := rest?_eq_some hrest
  obtain ⟨⟨before, htext, hstart⟩, hpos, -⟩ := h
  rw [hrest', length_takeWhile_utf8 hp]
  refine ⟨⟨before ++ c.rest.takeWhile p, ?_, ?_⟩, ?_, Nat.le_add_right _ _⟩
  · rw [List.append_assoc, List.takeWhile_append_dropWhile, htext]
  · rw [width_append, hstart]
  · rw [hpos, hc.pos_eq]
    rfl

theorem Stands.skipSpace (h : Stands text pos c) (hskip : c.skipSpace? = some next) :
    (Bytewise.skipSpace text pos).Yields (Stands text · next) :=
  h.skipWhile isAscii_isSpace hskip

/-- **Reading a word.** -/
theorem Stands.nextWord (h : Stands text pos c) {word : List Char}
    (hword : c.nextWord? = some (word, next)) :
    (Bytewise.nextWord text pos).Yields fun found =>
      found.1 = word ∧ Stands text found.2 next := by
  simp only [Cursor.nextWord?, Option.bind_eq_bind, Option.bind_eq_some_iff] at hword
  obtain ⟨c₁, h₁, rest, hrest, c₂, h₂, c₃, h₃, heq⟩ := hword
  obtain ⟨rfl, rfl⟩ := Prod.mk.inj (Option.some.inj heq)
  obtain ⟨hc₁, rfl⟩ := rest?_eq_some hrest
  refine (h.skipSpace h₁).bind fun front hfront => ?_
  refine (hfront.skipWhile isAscii_isWord h₂).bind fun behind hbehind => ?_
  -- the word is the slice between the two offsets
  have hword : (Slicing.take text front behind).Yields (· = c₁.rest.takeWhile isWord) := by
    refine hfront.take hc₁ List.takeWhile_append_dropWhile.symm ?_
    obtain rfl : _ = c₂ := Option.some.inj ((Cursor.skipWhile?_eq isWord hc₁).symm.trans h₂)
    rw [hbehind.pos_eq, hfront.pos_eq, hc₁.pos_eq]
    rfl
  refine hword.bind fun word hword => ?_
  refine (hbehind.skipSpace h₃).bind fun pos hpos => ?_
  exact Slicing.yields_pure ⟨hword, hpos⟩

/-- **Moving to the next line.** -/
theorem Stands.skipLine (h : Stands text pos c) (hskip : c.skipLine? = some next) :
    (Bytewise.skipLine text pos).Yields (Stands text · next) := by
  simp only [Cursor.skipLine?, Option.bind_eq_bind, Option.bind_eq_some_iff] at hskip
  obtain ⟨found, hfind, hskip⟩ := hskip
  refine (h.find hfind).bind fun found' hfound => ?_
  subst hfound
  cases found' with
  | some eol => exact (h.seek (eol + 1)).skipSpace hskip
  | none =>
    rw [Cursor.toEnd, ← h.width_eq] at hskip
    exact (h.seek (width text)).skipSpace hskip

/-! ### Cutting at a pattern -/

/-- Where a text begins moves all offsets in it. -/
theorem offset?_add (pattern : List Char) (start n : Nat) (s : List Char) :
    offset? pattern (start + n) s = (offset? pattern n s).map (start + ·) := by
  induction s generalizing n with
  | nil =>
    rw [offset?, offset?]
    split <;> rfl
  | cons x s ih =>
    rw [offset?, offset?]
    split
    · rfl
    · rw [Nat.add_assoc, ih]

/-- A search between two characters looks through all that remains. -/
theorem find?_eq (hc : c.OnBoundary) (pattern : String) :
    c.find? pattern = some (offset? pattern.toList c.start c.rest) := by
  rw [Cursor.find?, Cursor.rest?_eq hc]
  rfl

/-- A cut answers with what stands around the first occurrence of the pattern, at the offset at
    which it is found wherever the text begins; or it is not found. -/
theorem cut?_found (hc : c.OnBoundary) (pattern : String) :
    (∀ start, offset? pattern.toList start c.rest = none) ∧ c.cut? pattern = some none ∨
      ∃ before after,
        (∀ start, offset? pattern.toList start c.rest = some (start + width before)) ∧
        c.rest = before ++ (pattern.toList ++ after) ∧
        c.cut? pattern =
          some (some (before, ⟨c.start + width before + width pattern.toList, 0, after⟩)) := by
  have hfind := find?_eq hc pattern
  have hoffset (start : Nat) := offset?_add pattern.toList start 0 c.rest
  simp only [Nat.add_zero] at hoffset
  cases h : offset? pattern.toList 0 c.rest with
  | none =>
    simp only [h, Option.map_none] at hoffset
    refine .inl ⟨hoffset, ?_⟩
    rw [Cursor.cut?, hfind, hoffset]
    rfl
  | some found =>
    obtain ⟨before, after, hrest, hfound⟩ := offset?_eq_some h
    rw [Nat.zero_add] at hfound
    rw [List.append_assoc] at hrest
    simp only [h, Option.map_some, hfound] at hoffset
    have hslice : c.sliceTo? (c.start + width before) = some before :=
      Cursor.sliceTo?_eq hc hrest rfl
    have hseek : c.seek (c.start + width before + width pattern.toList) = ⟨_, 0, after⟩ :=
      Cursor.seek_eq hc (s := before ++ pattern.toList) (by simp [hrest])
        (by simp only [width_append]; omega)
    refine .inr ⟨before, after, hoffset, hrest, ?_⟩
    simp only [Cursor.cut?, hfind, hoffset, hslice, hseek, Option.bind_eq_bind, Option.bind_some]
    rfl

/-- The text before a pattern is what a cut comes to. -/
theorem before_yields (hc : c.OnBoundary) (pattern : String) :
    (Bytewise.before c.rest pattern).Yields fun found =>
      found = none ∧ c.cut? pattern = some none ∨
        ∃ part next, found = some part ∧ c.cut? pattern = some (some (part, next)) := by
  rw [Bytewise.before]
  rcases cut?_found hc pattern with ⟨hnone, hcut⟩ | ⟨part, after, hfound, hrest, hcut⟩
  · rw [hnone]
    exact Slicing.yields_pure (.inl ⟨rfl, hcut⟩)
  · rw [hfound]
    refine (Slicing.yields_take (Slice.holds_front hrest (Nat.zero_add _))).map ?_
    rintro _ rfl
    exact .inr ⟨_, _, rfl, hcut⟩

/-- The text behind a pattern is what a cut leaves. -/
theorem behind_yields (hc : c.OnBoundary) (pattern : String) :
    (Bytewise.behind c.rest pattern).Yields fun found =>
      found = none ∧ c.cut? pattern = some none ∨
        ∃ part start after, found = some after ∧
          c.cut? pattern = some (some (part, ⟨start, 0, after⟩)) := by
  rw [Bytewise.behind]
  rcases cut?_found hc pattern with ⟨hnone, hcut⟩ | ⟨part, after, hfound, hrest, hcut⟩
  · rw [hnone]
    exact Slicing.yields_pure (.inl ⟨rfl, hcut⟩)
  · rw [hfound]
    have htext : c.rest = part ++ pattern.toList ++ after := by rw [List.append_assoc, hrest]
    have hstart : 0 + width part + width pattern.toList = width (part ++ pattern.toList) := by
      rw [width_append, Nat.zero_add]
    refine (Slicing.yields_take (Slice.holds_behind htext hstart)).map ?_
    rintro _ rfl
    exact .inr ⟨_, _, _, rfl, hcut⟩

end ShaderPack.Text
