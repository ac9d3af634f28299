namespace ShaderPack.Text

/-!
# Replacing a word throughout a text

`replaceAll` goes through the text once, from left to right, and puts `new` wherever `old`
begins; what it has put is not looked at again.  `old` is not empty in any use.
-/

/-- The pass of `replaceAll`: `done` is the result so far in reverse and `skip` counts the
    characters of an occurrence that are still to be passed over. -/
def replaceFrom (old new : List Char) (done : List Char) : Nat → List Char → List Char
  | _, [] => done.reverse
  | skip + 1, _ :: rest => replaceFrom old new done skip rest
  | 0, c :: rest =>
    if old.isPrefixOf (c :: rest) then
      replaceFrom old new (new.reverse ++ done) (old.length - 1) rest
    else
      replaceFrom old new (c :: done) 0 rest

/-- The text with every occurrence of `old`, found from the left and without overlap,
    replaced by `new`. -/
def replaceAll (old new s : List Char) : List Char :=
  replaceFrom old new [] 0 s

/-- What is done stays in front of what the rest of the pass yields. -/
theorem replaceFrom_eq (old new done : List Char) (skip : Nat) (s : List Char) :
    replaceFrom old new done skip s = done.reverse ++ replaceFrom old new [] skip s := by
  induction s generalizing done skip with
  | nil => simp [replaceFrom]
  | cons c rest ih =>
    cases skip with
    | succ skip => simpa [replaceFrom] using ih done skip
    | zero =>
      simp only [replaceFrom]
      split
      · rw [ih, ih (new.reverse ++ [])]
        simp
      · rw [ih, ih [c]]
        simp

/-- Passing over characters drops them. -/
theorem replaceFrom_skip (old new : List Char) (skip : Nat) (s : List Char) :
    replaceFrom old new [] skip s = replaceAll old new (s.drop skip) := by
  induction s generalizing skip with
  | nil => simp [replaceAll, replaceFrom]
  | cons c rest ih =>
    cases skip with
    | zero => rfl
    | succ skip => simpa [replaceFrom] using ih skip

@[simp] theorem replaceAll_nil (old new : List Char) : replaceAll old new [] = [] := rfl

/-- The pass at a character: an occurrence is replaced as a whole, any other character is
    kept. -/
theorem replaceAll_cons (old new : List Char) (c : Char) (rest : List Char) :
    replaceAll old new (c :: rest) =
      if old.isPrefixOf (c :: rest) then
        new ++ replaceAll old new (rest.drop (old.length - 1))
      else c :: replaceAll old new rest := by
  simp only [replaceAll, replaceFrom]
  split
  · rw [replaceFrom_eq, replaceFrom_skip]
    simp [replaceAll]
  · rw [replaceFrom_eq]
    simp

end ShaderPack.Text
