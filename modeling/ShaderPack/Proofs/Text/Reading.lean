import ShaderPack.Proofs.Text.Runs

namespace ShaderPack.Text

/-!
# Reading words and lines

What a cursor reads is said here by offsets of its text alone.  `ReadsWord` is a word that is read
from one offset on up to another one, with the blanks around it; `ReadsLine` is the way to the next
line.  Both end in front of a byte that is no blank, or at the end of the text (`StopsAt`).

Words can be read one after another (`Cursor.nextWords?`).  `SpacedWords` are words with blanks
between them, and a tail behind:

* `SpacedWords.nextWords?` — as many readings recover these words in order and come to the tail;
* `Cursor.Ahead.nextWords?` — no number of readings goes past a character that is neither blank nor
  part of a word;
* `Cursor.reading_exact` — a single reading, many of them and the way to the next line, wherever a
  run of operations has come to between two characters.
-/

variable {text tail : List Char} {c next : Cursor} {pos : Nat}

/-! ### Words and lines by their offsets -/

/-- At the offset stands a byte that is no ASCII blank, or it is the end of the text. -/
def StopsAt (text : List Char) (pos : Nat) : Prop :=
  ∀ b ∈ (Bytes.utf8 (.ofList text))[pos]?, asciiByte isSpace b = false

/-- From `pos` up to `next` stands a word with blanks in front and behind. -/
structure ReadsWord (text : List Char) (pos : Nat) (front : Blanks) (word : List Char)
    (back : Blanks) (next : Nat) : Prop where
  holds : (Slice.mk text pos next).Holds (front.text ++ word ++ back.text)
  identifier : ∀ x ∈ word, isWord x = true
  /-- The word does not go on; and where it is empty, none begins. -/
  maximal : ∀ x, OccursAt text [x] (pos + width front.text + width word) → isWord x = false
  stops : StopsAt text next
  /-- Without a word only the blanks in front are passed. -/
  back_eq_nil : word = [] → back.text = []

/-- From `pos` on the next line that is not blank begins at `next`. -/
inductive ReadsLine (text : List Char) (pos next : Nat) : Prop
  /-- Behind the first line feed and the blanks there. -/
  | ended {line : List Char} {b : Blanks} (single : '\n' ∉ line)
    (holds : (Slice.mk text pos next).Holds (line ++ '\n' :: b.text)) (stops : StopsAt text next)
  /-- There is no further line feed, and all of the text is passed. -/
  | last {line : List Char} (single : '\n' ∉ line)
    (holds : (Slice.mk text pos next).Holds line) (eq_end : next = width text)

/-- A text that begins with no blank stops at its beginning. -/
theorem stopsAt_append {before rest : List Char} (h : ∀ x ∈ rest.head?, isSpace x = false) :
    StopsAt (before ++ rest) (width before) := by
  intro b hb
  rw [utf8_append, ← length_utf8, List.getElem?_append_right (Nat.le_refl _), Nat.sub_self] at hb
  cases rest with
  | nil => cases hb
  | cons x rest =>
    obtain ⟨first, more, hbytes, hfirst⟩ := asciiByte_first isAscii_isSpace x
    rw [utf8_cons, hbytes] at hb
    obtain rfl : first = b := Option.some.inj hb
    rw [hfirst]
    exact h x rfl

/-- Where blanks are left out, none is in front. -/
theorem isSpace_of_head? {s : List Char} (hs : s.dropWhile isSpace = s) :
    ∀ x ∈ s.head?, isSpace x = false := by
  intro x hx
  have hhead := List.head?_dropWhile_not isSpace s
  rw [hs, Option.mem_def.mp hx] at hhead
  exact hhead

/-! ### Words one after another -/

/-- Words, each with blanks in front of it or none, and a tail behind them.  No word goes on where
    the next one begins, so there are blanks between two words. -/
inductive SpacedWords (tail : List Char) : List Word → List Char → Prop
  | nil : SpacedWords tail [] tail
  | cons (b : Blanks) (w : Word) {words : List Word} {rest : List Char} (stops : Stops rest)
    (h : SpacedWords tail words rest) : SpacedWords tail (w :: words) (b.text ++ (w.text ++ rest))

namespace Cursor

/-- Reads words one after another, as many as asked for. -/
def nextWords? (c : Cursor) : Nat → Option (List (List Char) × Cursor)
  | 0 => some ([], c)
  | count + 1 => do
    let (word, next) ← c.nextWord?
    let (words, last) ← next.nextWords? count
    return (word :: words, last)

theorem nextWords?_succ {word : List Char} (h : c.nextWord? = some (word, next)) (count : Nat) :
    c.nextWords? (count + 1) = (next.nextWords? count).map fun (words, last) =>
      (word :: words, last) := by
  simp only [nextWords?, h, Option.bind_eq_bind, Option.bind_some]
  cases next.nextWords? count with
  | none => rfl
  | some found => rfl

theorem exists_nextWords? (hc : c.OnBoundary) (count : Nat) :
    ∃ words next, c.nextWords? count = some (words, next) := by
  induction count generalizing c with
  | zero => exact ⟨[], c, rfl⟩
  | succ count ih =>
    obtain ⟨front, back, c', hword, hmove, -⟩ := nextWord?_movesOver hc
    obtain ⟨words, last, hwords⟩ := ih hmove.back
    rw [nextWords?_succ hword, hwords]
    exact ⟨_, last, rfl⟩

/-- **Readings do not go past** a character that is neither blank nor part of a word. -/
theorem Ahead.nextWords? {x : Char} {after : List Char} {stop : Nat} (h : c.Ahead x after stop)
    (hspace : isSpace x = false) (hword : isWord x = false) {count : Nat}
    {words : List (List Char)} (hwords : c.nextWords? count = some (words, next)) :
    next.Ahead x after stop := by
  induction count generalizing c words with
  | zero =>
    obtain ⟨rfl, rfl⟩ := Prod.mk.inj (Option.some.inj hwords)
    exact h
  | succ count ih =>
    obtain ⟨word, c', hnext, hahead⟩ := h.nextWord? hspace hword
    rw [nextWords?_succ hnext] at hwords
    obtain ⟨⟨more, last⟩, hmore, hlast⟩ := Option.map_eq_some_iff.mp hwords
    obtain ⟨rfl, rfl⟩ := Prod.mk.inj hlast
    exact ih hahead hmore

end Cursor

/-- What stands behind the first word is what is read from there on. -/
theorem SpacedWords.dropWhile {words : List Word} {s : List Char} (h : SpacedWords tail words s) :
    ∃ b : Blanks, ∃ tail', tail = b.text ++ tail' ∧
      SpacedWords tail' words (s.dropWhile isSpace) := by
  cases h with
  | nil =>
    obtain ⟨b, hb⟩ := exists_blanks tail
    exact ⟨b, tail.dropWhile isSpace, hb, .nil⟩
  | @cons b w words rest stops h =>
    refine ⟨⟨[], rfl⟩, tail, rfl, ?_⟩
    rw [b.dropWhile_append, w.dropWhile_append]
    exact .cons ⟨[], rfl⟩ w stops h

/-- **Spaced words are recovered** in order, and what is left is the tail, perhaps without blanks in
    front. -/
theorem SpacedWords.nextWords? {words : List Word} (h : SpacedWords tail words c.rest)
    (hc : c.OnBoundary) :
    ∃ next, c.nextWords? words.length = some (words.map Word.text, next) ∧
      ∃ b : Blanks, tail = b.text ++ next.rest := by
  induction words generalizing c tail with
  | nil =>
    cases h
    exact ⟨c, rfl, ⟨[], rfl⟩, rfl⟩
  | cons w words ih =>
    obtain ⟨front, back, c', hword, hmove, hrest, -⟩ := Cursor.nextWord?_movesOver hc
    generalize hs : c.rest = s at h hword hrest
    cases h with
    | @cons b _ _ rest stops h =>
      rw [← firstWord_dropWhile, b.dropWhile_append, firstWord_dropWhile,
        firstWord_word w stops] at hword
      rw [← behindWord_dropWhile, b.dropWhile_append, behindWord_dropWhile,
        behindWord_word w stops] at hrest
      obtain ⟨b', tail', rfl, hlater⟩ := h.dropWhile
      rw [← hrest] at hlater
      obtain ⟨last, hlast, b'', htail⟩ := ih hlater hmove.back
      rw [List.length_cons, Cursor.nextWords?_succ hword, hlast]
      refine ⟨last, rfl, ⟨b'.text ++ b''.text, ?_⟩, ?_⟩
      · rw [List.all_append, b'.blanks, b''.blanks]
        rfl
      · rw [htail, List.append_assoc]

/-! ### Reading on a text -/

namespace Cursor

/-- A cursor in front of no blank stops there. -/
theorem On.stopsAt (h : c.On text) (hc : c.OnBoundary) (hrest : c.rest.dropWhile isSpace = c.rest) :
    StopsAt text c.pos := by
  obtain ⟨before, htext, hpos⟩ := h.exists_front hc
  rw [htext, hpos]
  exact stopsAt_append (isSpace_of_head? hrest)

theorem On.readsWord (h : c.On text) (hc : c.OnBoundary) :
    ∃ front word back next, c.nextWord? = some (word, next) ∧
      ReadsWord text c.pos front word back next.pos := by
  obtain ⟨front, back, next, hword, hmove, hrest, hstops, hnone⟩ := nextWord?_movesOver hc
  refine ⟨front, firstWord c.rest, back, next, hword, h.holds hmove, ?_, ?_, ?_, hnone⟩
  · exact List.all_eq_true.mp List.all_takeWhile
  · intro x hx
    obtain ⟨before, htext, hbefore⟩ := h.exists_front hc
    -- the text is divided behind the word
    have hsplit : text =
        (before ++ (front.text ++ firstWord c.rest)) ++ (back.text ++ next.rest) := by
      rw [htext, List.append_assoc, ← List.append_assoc _ back.text, ← hmove.rest_eq]
    have hpos : c.pos + width front.text + width (firstWord c.rest) =
        width (before ++ (front.text ++ firstWord c.rest)) := by
      rw [hbefore, width_append, width_append, Nat.add_assoc]
    rw [hsplit, hpos] at hx
    exact hstops x (head?_of_occursAt hx)
  · refine (h.movesOver hmove).stopsAt hmove.back ?_
    rw [hrest, dropWhile_behindWord]

theorem On.readsLine (h : c.On text) (hc : c.OnBoundary) :
    ∃ next, c.skipLine? = some next ∧ ReadsLine text c.pos next.pos := by
  by_cases hended : '\n' ∈ c.rest
  · obtain ⟨line, rest, hrest, hline⟩ := List.eq_append_cons_of_mem hended
    obtain ⟨b, next, hskip, hmove, hnext⟩ := h.skipLine?_ended hc hrest hline
    have hfront : next.rest.dropWhile isSpace = next.rest := by
      rw [hnext, dropWhile_dropWhile]
    exact ⟨next, hskip, .ended hline (h.holds hmove)
      ((h.movesOver hmove).stopsAt hmove.back hfront)⟩
  · obtain ⟨next, hskip, hmove, hnext⟩ := h.skipLine?_last hc hended
    refine ⟨next, hskip, .last hended (h.holds hmove) ?_⟩
    have hwidth := (h.movesOver hmove).stands.width_eq
    rw [hnext, width_nil] at hwidth
    rw [hmove.back.pos_eq, hwidth, Nat.add_zero]

/-- A character of the text that is not passed stands ahead. -/
theorem On.ahead (h : c.On text) (hc : c.OnBoundary) {x : Char} {stop : Nat}
    (hoccurs : OccursAt text [x] stop) (hle : c.pos ≤ stop) : ∃ after, c.Ahead x after stop := by
  obtain ⟨before, htext, hpos⟩ := h.exists_front hc
  rw [hpos] at hle
  rw [htext, occursAt_append_iff before c.rest hle] at hoccurs
  obtain ⟨between, after, hrest, hbetween⟩ := hoccurs
  rw [hc.pos_eq] at hpos
  exact ⟨after, hc, between, hrest, by omega⟩

/-- **Words and lines are read exactly.**  Wherever operations on a new cursor come to between two
    characters, and a seek comes to every such place,

    * a reading passes blanks, the word there as far as it goes, and blanks, which are none if there
      is no word, and stops at the end or in front of something else;
    * any number of readings is answered, and none of them goes past a character that is neither
      blank nor part of a word;
    * words with blanks between them are recovered in order by as many readings;
    * the next line is the one behind the first line feed and the blanks there, or the end. -/
theorem reading_exact {text : List Char} {ops : List Operation} {c : Cursor}
    (h : (ofList text).run? ops = some c) (hinside : ¬Inside text c.pos) :
    (∃ front word back next, c.nextWord? = some (word, next) ∧
      ReadsWord text c.pos front word back next.pos) ∧
    (∀ count, ∃ words next, c.nextWords? count = some (words, next) ∧
      ∀ x stop, OccursAt text [x] stop → c.pos ≤ stop → isSpace x = false → isWord x = false →
        next.pos ≤ stop) ∧
    (∀ tail words, SpacedWords tail words c.rest →
      ∃ next, c.nextWords? words.length = some (words.map Word.text, next) ∧
        ∃ b : Blanks, tail = b.text ++ next.rest) ∧
    ∃ next, c.skipLine? = some next ∧ ReadsLine text c.pos next.pos := by
  obtain ⟨hon, -⟩ := (on_ofList text).run? h
  have hc : c.OnBoundary := by rwa [hon.inside_iff, Decidable.not_not] at hinside
  refine ⟨hon.readsWord hc, ?_, fun tail words hwords => hwords.nextWords? hc, hon.readsLine hc⟩
  intro count
  obtain ⟨words, next, hwords⟩ := exists_nextWords? hc count
  refine ⟨words, next, hwords, fun x stop hoccurs hle hspace hword => ?_⟩
  obtain ⟨after, hahead⟩ := hon.ahead hc hoccurs hle
  obtain ⟨hback, before, -, hstop⟩ := hahead.nextWords? hspace hword hwords
  rw [hback.pos_eq]
  omega

/-- Two words and a semicolon stand behind a letter that belongs to no word. -/
theorem reading_behind_letter :
    (ofList "é a\n b;".toList).run? [.seek 2] = some ⟨2, 0, " a\n b;".toList⟩ ∧
      ¬Inside "é a\n b;".toList 2 ∧
      SpacedWords [';'] [⟨['a'], rfl, by decide⟩, ⟨['b'], rfl, by decide⟩] " a\n b;".toList ∧
    (∃ front word back next,
      (Cursor.mk 2 0 " a\n b;".toList).nextWord? = some (word, next) ∧
        ReadsWord "é a\n b;".toList 2 front word back next.pos) ∧
    (∃ next, (Cursor.mk 2 0 " a\n b;".toList).nextWords? 2 = some ([['a'], ['b']], next) ∧
      ∃ b : Blanks, [';'] = b.text ++ next.rest) ∧
    ∃ next, (Cursor.mk 2 0 " a\n b;".toList).skipLine? = some next ∧
      ReadsLine "é a\n b;".toList 2 next.pos := by
  have hrun : (ofList "é a\n b;".toList).run? [.seek 2] = some ⟨2, 0, " a\n b;".toList⟩ := by
    decide
  have hinside : ¬Inside "é a\n b;".toList 2 := not_inside_width ['é'] " a\n b;".toList
  have hwords : SpacedWords [';'] [⟨['a'], rfl, by decide⟩, ⟨['b'], rfl, by decide⟩]
      " a\n b;".toList :=
    .cons ⟨[' '], rfl⟩ _ (Stops.cons rfl _) (.cons ⟨['\n', ' '], rfl⟩ _ (Stops.cons rfl _) .nil)
  obtain ⟨hword, -, hspaced, hline⟩ := reading_exact hrun hinside
  exact ⟨hrun, hinside, hwords, hword, hspaced _ _ hwords, hline⟩

end Cursor

end ShaderPack.Text
