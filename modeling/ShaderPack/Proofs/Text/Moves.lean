import ShaderPack.Proofs.Text.Bytewise
import ShaderPack.Proofs.Text.Offsets
import ShaderPack.Proofs.Text.Words

namespace ShaderPack.Text.Cursor

/-!
# How a cursor moves

A cursor is `On` a text if what it has left is an end of the text and a character that it has
passed in part is the next one.  It moves in two ways only: by counting bytes (`On.seek`), which may
leave it inside a character, and over characters (`MovesOver`), which does not.  All reading moves
over characters:

* `skipWhile?_movesOver` — over those of a class;
* `nextWord?_movesOver` — over blanks, a word and blanks;
* `On.skipLine?_ended`, `On.skipLine?_last` — over a line and the blanks behind its line feed, or
  over all that is left.
-/

variable {text passed more : List Char} {c next last : Cursor} {pos : Nat}

/-! ### A cursor on a text -/

/-- The cursor is one on this text. -/
structure On (text : List Char) (c : Cursor) : Prop where
  stands : Stands text c.pos c
  /-- A character that is passed in part is the next one, and not passed as a whole. -/
  partly : ¬c.OnBoundary → ∃ x ∈ c.rest.head?, c.skew < x.utf8Size

theorem on_ofList (text : List Char) : (ofList text).On text :=
  ⟨stands_ofList text, fun h => absurd (onBoundary_ofList text) h⟩

/-- Where an offset stands as a cursor does that can read, the cursor is on the text. -/
theorem On.of_stands (h : Stands text pos c) (hc : c.OnBoundary) : c.On text :=
  ⟨h.pos_eq ▸ h, fun hnot => absurd hc hnot⟩

theorem On.pos_le (h : c.On text) : c.pos ≤ width text := by
  rw [h.stands.width_eq]
  exact h.stands.inside

/-- Between two characters what is left begins behind the front of the text that is as wide as the
    offset. -/
theorem On.exists_front (h : c.On text) (hc : c.OnBoundary) :
    ∃ before, text = before ++ c.rest ∧ c.pos = width before := by
  obtain ⟨before, htext, hstart⟩ := h.stands.text_eq
  exact ⟨before, htext, hc.pos_eq.trans hstart⟩

/-- A cursor cannot read exactly where its offset lies inside a character. -/
theorem On.inside_iff (h : c.On text) : Inside text c.pos ↔ ¬c.OnBoundary := by
  constructor
  · intro hinside hc
    obtain ⟨before, htext, hpos⟩ := h.exists_front hc
    rw [htext, hpos] at hinside
    exact not_inside_width before c.rest hinside
  · intro hc
    obtain ⟨before, htext, hstart⟩ := h.stands.text_eq
    obtain ⟨x, hx, hskew⟩ := h.partly hc
    obtain ⟨after, hrest⟩ := List.head?_eq_some_iff.mp hx
    have hpos : c.pos = width before + c.skew := by rw [pos, hstart]
    have hpositive : 0 < c.skew := Nat.pos_of_ne_zero hc
    exact ⟨before, x, after, by rw [htext, hrest], by omega, by omega⟩

theorem On.between_iff (h : c.On text) : Between text c.pos ↔ c.OnBoundary := by
  rw [Text.between_iff, h.inside_iff, Decidable.not_not]
  exact and_iff_right h.pos_le

/-! ### Counting bytes -/

/-- What is settled inside a character has not passed it as a whole. -/
theorem settle_partly (start bytes : Nat) (s : List Char)
    (h : ¬(settle start bytes s).OnBoundary) :
    ∃ x ∈ (settle start bytes s).rest.head?, (settle start bytes s).skew < x.utf8Size := by
  induction s generalizing start bytes with
  | nil => exact absurd rfl h
  | cons x s ih =>
    rw [settle] at h ⊢
    split at h
    · next hbytes =>
      rw [if_pos hbytes]
      exact ⟨x, rfl, hbytes⟩
    · next hbytes =>
      rw [if_neg hbytes]
      exact ih _ _ h

/-- A seek goes to an offset of the text, unless that is passed or behind the end. -/
theorem On.pos_seek (h : c.On text) (target : Nat) :
    (c.seek target).pos = max c.pos (min target (width text)) :=
  (h.stands.seek target).pos_eq.symm

theorem On.seek (h : c.On text) (target : Nat) : (c.seek target).On text := by
  have hstands := h.stands.seek target
  exact ⟨hstands.pos_eq ▸ hstands, settle_partly _ _ _⟩

/-! ### Moving over characters -/

/-- From one place between characters to another one, with this text in between. -/
structure MovesOver (c : Cursor) (passed : List Char) (next : Cursor) : Prop where
  front : c.OnBoundary
  back : next.OnBoundary
  rest_eq : c.rest = passed ++ next.rest
  start_eq : next.start = c.start + width passed

namespace MovesOver

theorem pos_eq (h : c.MovesOver passed next) : next.pos = c.pos + width passed := by
  rw [h.front.pos_eq, h.back.pos_eq, h.start_eq]

theorem trans (h : c.MovesOver passed next) (h' : next.MovesOver more last) :
    c.MovesOver (passed ++ more) last where
  front := h.front
  back := h'.back
  rest_eq := by rw [h.rest_eq, h'.rest_eq, List.append_assoc]
  start_eq := by rw [h'.start_eq, h.start_eq, width_append, Nat.add_assoc]

end MovesOver

theorem On.movesOver (h : c.On text) (hmove : c.MovesOver passed next) : next.On text := by
  obtain ⟨before, htext, hstart⟩ := h.stands.text_eq
  have hstands : Stands text next.pos next := by
    refine ⟨⟨before ++ passed, ?_, ?_⟩, rfl, ?_⟩
    · rw [htext, hmove.rest_eq, List.append_assoc]
    · rw [hmove.start_eq, hstart, width_append]
    · rw [hmove.back.pos_eq]
      exact Nat.le_add_right _ _
  exact .of_stands hstands hmove.back

/-- The text between the offsets of two cursors is the one that was moved over. -/
theorem On.holds (h : c.On text) (hmove : c.MovesOver passed next) :
    (Slice.mk text c.pos next.pos).Holds passed := by
  obtain ⟨before, htext, hpos⟩ := h.exists_front hmove.front
  refine ⟨before, next.rest, ?_, hpos, hmove.pos_eq⟩
  rw [htext, hmove.rest_eq, List.append_assoc]

/-- Where a cursor stands in a text is seen from what it has left. -/
theorem On.movesOver_of_rest (h : c.On text) (hc : c.OnBoundary) (hnext : Stands text pos next)
    (hback : next.OnBoundary) (hrest : c.rest = passed ++ next.rest) :
    c.MovesOver passed next := by
  have hwidth : width text = c.start + width c.rest := h.stands.width_eq
  have hwidth' : width text = next.start + width next.rest := hnext.width_eq
  refine ⟨hc, hback, hrest, ?_⟩
  rw [hrest, width_append] at hwidth
  omega

/-! ### Reading -/

theorem skipWhile?_movesOver (p : Char → Bool) (h : c.OnBoundary) :
    ∃ next, c.skipWhile? p = some next ∧ c.MovesOver (c.rest.takeWhile p) next ∧
      next.rest = c.rest.dropWhile p :=
  ⟨_, skipWhile?_eq p h, ⟨h, rfl, List.takeWhile_append_dropWhile.symm, rfl⟩, rfl⟩

/-- **Reading a word** moves over it and the blanks around it.  No word goes on behind it, and where
    there is no word, the blanks in front are all that is passed. -/
theorem nextWord?_movesOver (h : c.OnBoundary) :
    ∃ (front back : Blanks) (next : Cursor), c.nextWord? = some (firstWord c.rest, next) ∧
      c.MovesOver (front.text ++ firstWord c.rest ++ back.text) next ∧
      next.rest = behindWord c.rest ∧ Stops (back.text ++ next.rest) ∧
      (firstWord c.rest = [] → back.text = []) := by
  obtain ⟨c₁, h₁, hmove₁, hrest₁⟩ := skipWhile?_movesOver isSpace h
  obtain ⟨c₂, h₂, hmove₂, hrest₂⟩ := skipWhile?_movesOver isWord hmove₁.back
  obtain ⟨c₃, h₃, hmove₃, hrest₃⟩ := skipWhile?_movesOver isSpace hmove₂.back
  have hword : c₁.rest.takeWhile isWord = firstWord c.rest := by rw [hrest₁, firstWord]
  rw [hword] at hmove₂
  refine ⟨⟨_, List.all_takeWhile⟩, ⟨_, List.all_takeWhile⟩, c₃, ?_,
    (hmove₁.trans hmove₂).trans hmove₃, ?_, ?_, fun hnone => ?_⟩
  · simp [nextWord?, skipSpace?, h₁, h₂, h₃, rest?_eq hmove₁.back, hword]
  · rw [hrest₃, hrest₂, hrest₁, behindWord]
  · rw [← hmove₃.rest_eq, hrest₂]
    exact stops_dropWhile c₁.rest
  · -- without a word the second run of blanks begins where the first one has ended
    have hrest : c₂.rest = c.rest.dropWhile isSpace := by
      rw [← hrest₁, hmove₂.rest_eq, hnone, List.nil_append]
    show c₂.rest.takeWhile isSpace = []
    rw [hrest]
    exact takeWhile_dropWhile isSpace c.rest

/-- **The next line** begins behind the line feed that comes first, and the blanks there. -/
theorem On.skipLine?_ended (h : c.On text) (hc : c.OnBoundary) {line rest : List Char}
    (hrest : c.rest = line ++ '\n' :: rest) (hline : '\n' ∉ line) :
    ∃ (b : Blanks) (next : Cursor), c.skipLine? = some next ∧
      c.MovesOver (line ++ '\n' :: b.text) next ∧ next.rest = rest.dropWhile isSpace := by
  obtain ⟨next, hskip, hback, hnext⟩ := skipLine?_eq hc
  obtain ⟨-, pos, -, hstands⟩ := h.stands.skipLine hskip
  rw [hrest, nextLine_append hline] at hnext
  obtain ⟨b, hb⟩ := exists_blanks rest
  refine ⟨b, next, hskip, h.movesOver_of_rest hc hstands hback ?_, hnext⟩
  rw [hrest, hnext, List.append_assoc, List.cons_append, ← hb]

/-- In the last line it is the end of the text. -/
theorem On.skipLine?_last (h : c.On text) (hc : c.OnBoundary) (hline : '\n' ∉ c.rest) :
    ∃ next, c.skipLine? = some next ∧ c.MovesOver c.rest next ∧ next.rest = [] := by
  obtain ⟨next, hskip, hback, hnext⟩ := skipLine?_eq hc
  obtain ⟨-, pos, -, hstands⟩ := h.stands.skipLine hskip
  rw [nextLine_eq_nil hline] at hnext
  refine ⟨next, hskip, h.movesOver_of_rest hc hstands hback ?_, hnext⟩
  rw [hnext, List.append_nil]

theorem On.skipLine?_movesOver (h : c.On text) (hc : c.OnBoundary) :
    ∃ passed next, c.skipLine? = some next ∧ c.MovesOver passed next := by
  by_cases hended : '\n' ∈ c.rest
  · obtain ⟨line, rest, hrest, hline⟩ := List.eq_append_cons_of_mem hended
    obtain ⟨b, next, hskip, hmove, -⟩ := h.skipLine?_ended hc hrest hline
    exact ⟨_, next, hskip, hmove⟩
  · obtain ⟨next, hskip, hmove, -⟩ := h.skipLine?_last hc hended
    exact ⟨_, next, hskip, hmove⟩

end ShaderPack.Text.Cursor
