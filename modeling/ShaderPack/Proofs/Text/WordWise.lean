import ShaderPack.Proofs.Text.Replacement

namespace ShaderPack.Text

open Source (afterLine)

/-!
# Rewriting word by word

A rewriting is `WordWise` if each character that belongs to no word stays where it is and
keeps the texts on its two sides apart.  What a scan does with a text commutes with such a
rewriting: reading a word, passing over blanks or a line, cutting at a character.  Replacing a
word by a word is one, and so is one after another.
-/

variable {r q : List Char → List Char} {old new s : List Char} {x : Char}

/-- A text is a word or goes on behind a word, which may be empty, with another character. -/
theorem words_induction {P : List Char → Prop}
    (word : ∀ w : List Char, (∀ c ∈ w, isWord c = true) → P w)
    (behind : ∀ (w : List Char) (x : Char) (s : List Char),
      (∀ c ∈ w, isWord c = true) → isWord x = false → P s → P (w ++ x :: s))
    (s : List Char) : P s := by
  induction hlen : s.length using Nat.strongRecOn generalizing s with
  | _ len ih =>
    have hsplit : s.takeWhile isWord ++ s.dropWhile isWord = s := List.takeWhile_append_dropWhile
    have hword : ∀ c ∈ s.takeWhile isWord, isWord c = true :=
      List.all_eq_true.mp List.all_takeWhile
    have hstops := stops_dropWhile s
    generalize s.takeWhile isWord = w at hsplit hword
    generalize s.dropWhile isWord = rest at hsplit hstops
    subst hsplit
    cases rest with
    | nil =>
      rw [List.append_nil]
      exact word w hword
    | cons x rest =>
      have hless : rest.length < len := by
        simp only [← hlen, List.length_append, List.length_cons]
        omega
      exact behind w x rest hword (hstops x rfl) (ih rest.length hless rest rfl)

/-- A rewriting that looks at one word at a time. -/
structure WordWise (r : List Char → List Char) : Prop where
  append_cons : ∀ {x : Char}, isWord x = false → ∀ s t, r (s ++ x :: t) = r s ++ x :: r t
  word : ∀ {w : List Char}, (∀ c ∈ w, isWord c = true) → ∀ c ∈ r w, isWord c = true
  eq_nil_iff : ∀ s, r s = [] ↔ s = []

namespace WordWise

/-! ### Rewritings that are -/

theorem id : WordWise fun s => s := ⟨fun _ _ _ => rfl, fun h => h, fun _ => Iff.rfl⟩

theorem comp (hr : WordWise r) (hq : WordWise q) : WordWise fun s => q (r s) where
  append_cons hx s t := by rw [hr.append_cons hx, hq.append_cons hx]
  word h := hq.word (hr.word h)
  eq_nil_iff s := by rw [hq.eq_nil_iff, hr.eq_nil_iff]

theorem replaceAll (hold : old ≠ []) (hword : ∀ c ∈ old, isWord c = true) (hnew : new ≠ [])
    (hnewWord : ∀ c ∈ new, isWord c = true) : WordWise (replaceAll old new) where
  append_cons hx s t :=
    (replaced_replaceAll hold new s).append_cons hold
      (fun hmem => by simp [hword _ hmem] at hx) t
  word h c hc := ((replaced_replaceAll hold new _).mem hc).elim (h c) (hnewWord c)
  eq_nil_iff s := (replaced_replaceAll hold new s).eq_nil_iff hold hnew

/-! ### Taking a rewritten text apart -/

theorem nil (hr : WordWise r) : r [] = [] := (hr.eq_nil_iff []).mpr rfl

theorem cons (hr : WordWise r) (hx : isWord x = false) (s : List Char) :
    r (x :: s) = x :: r s := by
  have h := hr.append_cons hx [] s
  rwa [hr.nil] at h

/-- A word that ends is rewritten apart from what comes behind it. -/
theorem append (hr : WordWise r) (hs : Stops s) (w : List Char) : r (w ++ s) = r w ++ r s := by
  cases s with
  | nil => simp [hr.nil]
  | cons x s =>
    have hx : isWord x = false := hs x rfl
    rw [hr.append_cons hx, hr.cons hx]

theorem stops (hr : WordWise r) (hs : Stops s) : Stops (r s) := by
  cases s with
  | nil => rwa [hr.nil]
  | cons x s =>
    have hx : isWord x = false := hs x rfl
    rw [hr.cons hx]
    exact Stops.cons hx _

/-- The word in front and the text behind it are rewritten apart. -/
theorem eq_append (hr : WordWise r) (s : List Char) :
    r s = r (s.takeWhile isWord) ++ r (s.dropWhile isWord) := by
  rw [← hr.append (stops_dropWhile s), List.takeWhile_append_dropWhile]

theorem word_takeWhile (hr : WordWise r) (s : List Char) :
    ∀ c ∈ r (s.takeWhile isWord), isWord c = true :=
  hr.word (List.all_eq_true.mp List.all_takeWhile)

/-- A text begins with a character of no word if the rewritten text does. -/
theorem head?_iff (hr : WordWise r) (hx : isWord x = false) :
    (r s).head? = some x ↔ s.head? = some x := by
  constructor
  · intro h
    have hword := hr.word_takeWhile s
    rw [hr.eq_append s] at h
    cases hfirst : r (s.takeWhile isWord) with
    | cons c w =>
      -- the rewritten text begins with a word
      have hc : isWord c = true := hword c (by simp [hfirst])
      have hcx : c = x := by simpa [hfirst] using h
      simp [← hcx, hc] at hx
    | nil =>
      have hstops := stops_dropWhile s
      have hall : s.dropWhile isWord = s := by
        have hsplit : s.takeWhile isWord ++ s.dropWhile isWord = s :=
          List.takeWhile_append_dropWhile
        rwa [(hr.eq_nil_iff _).mp hfirst, List.nil_append] at hsplit
      rw [hall] at hstops
      rw [hfirst, List.nil_append, hall] at h
      cases s with
      | nil => simp [hr.nil] at h
      | cons y s => simpa [hr.cons (hstops y rfl)] using h
  · intro h
    obtain ⟨rest, rfl⟩ := List.head?_eq_some_iff.mp h
    rw [hr.cons hx, List.head?_cons]

/-- A character of no word stands in a rewritten text if it stands in the text. -/
theorem mem_iff (hr : WordWise r) (hx : isWord x = false) : x ∈ r s ↔ x ∈ s := by
  have hfree {w : List Char} (hw : ∀ c ∈ w, isWord c = true) : x ∉ w := fun h => by
    simp [hw x h] at hx
  induction s using words_induction with
  | word w hw => simp [hfree hw, hfree (hr.word hw)]
  | behind w y s hw hy ih => simp [hr.append_cons hy, hfree hw, hfree (hr.word hw), ih]

/-! ### Reading a rewritten text -/

/-- The word in front is rewritten by itself. -/
theorem takeWhile_isWord (hr : WordWise r) (s : List Char) :
    (r s).takeWhile isWord = r (s.takeWhile isWord) := by
  rw [hr.eq_append s, List.takeWhile_append_of_pos (hr.word_takeWhile s),
    (hr.stops (stops_dropWhile s)).takeWhile, List.append_nil]

theorem dropWhile_isWord (hr : WordWise r) (s : List Char) :
    (r s).dropWhile isWord = r (s.dropWhile isWord) := by
  rw [hr.eq_append s, List.dropWhile_append_of_pos (hr.word_takeWhile s),
    (hr.stops (stops_dropWhile s)).dropWhile]

/-- Blanks are passed over as before. -/
theorem dropWhile_isSpace (hr : WordWise r) (s : List Char) :
    (r s).dropWhile isSpace = r (s.dropWhile isSpace) := by
  induction s with
  | nil => simp [hr.nil]
  | cons c s ih =>
    by_cases hc : isSpace c = true
    · rw [hr.cons (isWord_of_isSpace hc), List.dropWhile_cons_of_pos hc,
        List.dropWhile_cons_of_pos hc, ih]
    · rw [List.dropWhile_cons_of_neg hc]
      -- a blank at the beginning would be one of the text itself
      cases hrest : r (c :: s) with
      | nil => rfl
      | cons d rest =>
        refine List.dropWhile_cons_of_neg fun hd => hc ?_
        have hhead : (c :: s).head? = some d :=
          (hr.head?_iff (isWord_of_isSpace hd)).mp (by rw [hrest, List.head?_cons])
        obtain rfl : c = d := by simpa using hhead
        exact hd

theorem firstWord_eq (hr : WordWise r) (s : List Char) : firstWord (r s) = r (firstWord s) := by
  rw [firstWord, hr.dropWhile_isSpace, hr.takeWhile_isWord, firstWord]

theorem behindWord_eq (hr : WordWise r) (s : List Char) : behindWord (r s) = r (behindWord s) := by
  rw [behindWord, hr.dropWhile_isSpace, hr.dropWhile_isWord, hr.dropWhile_isSpace, behindWord]

/-- A text is cut where it was cut. -/
theorem cutAt?_eq (hr : WordWise r) (hx : isWord x = false) (s : List Char) :
    cutAt? x (r s) = (cutAt? x s).map (Prod.map r r) := by
  rcases cutAt?_cases x s with ⟨hnone, hcut⟩ | ⟨before, after, rfl, hbefore, hcut⟩
  · rw [hcut, cutAt?_eq_none (mt (hr.mem_iff hx).mp hnone)]
    rfl
  · rw [hcut, hr.append_cons hx, cutAt?_append_cons (mt (hr.mem_iff hx).mp hbefore)]
    rfl

/-- A line is passed over as before. -/
theorem afterLine_eq (hr : WordWise r) (s : List Char) : afterLine (r s) = r (afterLine s) := by
  have hbreak : isWord '\n' = false := by decide
  by_cases hlines : '\n' ∈ s
  · obtain ⟨line, rest, rfl, hline⟩ := List.eq_append_cons_of_mem hlines
    rw [hr.append_cons hbreak, afterLine_append hline,
      afterLine_append (mt (hr.mem_iff hbreak).mp hline)]
  · rw [afterLine_eq_nil hlines, afterLine_eq_nil (mt (hr.mem_iff hbreak).mp hlines), hr.nil]

end WordWise

end ShaderPack.Text
