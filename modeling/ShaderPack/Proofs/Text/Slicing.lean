import ShaderPack.Text.Basic

namespace ShaderPack.Text

/-!
# Slices of a text

A slice is asked for by two byte offsets, and there is one only if both lie in the text, between
two characters, and in order (`Slice.part?_eq_some`).  `Slicing` is work that keeps a list of all
slices it asks for and stops at the first one that is none; `Yields` says that there was no such
one, and what the work came to.

* `yields_take` — a slice along characters is one;
* `Slicing.Yields.bind` — work goes on from what the work before it yields.
-/

/-! ### Characters that fill a number of bytes -/

/-- Characters that fill a number of bytes are a leading part of that width. -/
theorem charsIn?_eq_some {seen count bytes : Nat} {s : List Char}
    (h : charsIn? seen s bytes = some count) :
    ∃ front back, s = front ++ back ∧ width front = bytes ∧ count = seen + front.length := by
  induction s generalizing seen bytes with
  | nil =>
    cases bytes with
    | zero => exact ⟨[], [], rfl, rfl, by simpa [charsIn?] using h.symm⟩
    | succ bytes => simp [charsIn?] at h
  | cons c rest ih =>
    cases bytes with
    | zero => exact ⟨[], c :: rest, rfl, rfl, by simpa [charsIn?] using h.symm⟩
    | succ bytes =>
      rw [charsIn?] at h
      split at h
      · cases h
      · next hfits =>
        obtain ⟨front, back, rfl, hwidth, hcount⟩ := ih h
        refine ⟨c :: front, back, rfl, ?_, ?_⟩
        · rw [width_cons]
          omega
        · rw [List.length_cons]
          omega

/-! ### Slices -/

/-- The part of a text from one byte offset to another. -/
structure Slice where
  text : List Char
  start : Nat
  stop : Nat
  deriving DecidableEq, Repr

namespace Slice

variable {s : Slice} {part : List Char}

/-- The slice lies in the text, between characters, and holds this part. -/
def Holds (s : Slice) (part : List Char) : Prop :=
  ∃ before after, s.text = before ++ part ++ after ∧ s.start = width before ∧
    s.stop = s.start + width part

/-- The slice lies in the text, between characters. -/
def Sound (s : Slice) : Prop := ∃ part, s.Holds part

/-- The text in a slice, if there is one. -/
def part? (s : Slice) : Option (List Char) := do
  let passed ← charsIn? 0 s.text s.start
  let count ← charsIn? 0 (s.text.drop passed) (s.stop - s.start)
  if s.start ≤ s.stop then return (s.text.drop passed).take count else none

theorem part?_eq_some : s.part? = some part ↔ s.Holds part := by
  obtain ⟨text, start, stop⟩ := s
  simp only [part?, Holds, Option.bind_eq_bind, Option.bind_eq_some_iff]
  constructor
  · intro h
    obtain ⟨passed, hpassed, count, hcount, h⟩ := h
    split at h
    · next hle =>
      obtain ⟨before, behind, rfl, rfl, rfl⟩ := charsIn?_eq_some hpassed
      rw [Nat.zero_add, List.drop_left] at hcount h
      obtain ⟨part', after, rfl, hwidth, rfl⟩ := charsIn?_eq_some hcount
      rw [Nat.zero_add, List.take_left] at h
      obtain rfl : part' = part := Option.some.inj h
      exact ⟨before, after, (List.append_assoc ..).symm, rfl, by omega⟩
    · cases h
  · intro h
    obtain ⟨before, after, rfl, rfl, rfl⟩ := h
    refine ⟨before.length, ?_, part.length, ?_, ?_⟩
    · rw [List.append_assoc, charsIn?_append, Nat.zero_add]
    · rw [List.append_assoc, List.drop_left, Nat.add_sub_cancel_left, charsIn?_append,
        Nat.zero_add]
    · rw [if_pos (Nat.le_add_right _ _), List.append_assoc, List.drop_left, List.take_left]
      rfl

/-- A slice that cuts a character is none. -/
example : (Slice.mk "é;".toList 1 3).part? = none := by decide

/-- The slice in front of what follows. -/
theorem holds_front {text after : List Char} {stop : Nat} (htext : text = part ++ after)
    (hstop : stop = width part) : (Slice.mk text 0 stop).Holds part :=
  ⟨[], after, htext, rfl, by rw [hstop, Nat.zero_add]⟩

/-- The slice behind what comes first. -/
theorem holds_behind {text before : List Char} {start : Nat} (htext : text = before ++ part)
    (hstart : start = width before) : (Slice.mk text start (width text)).Holds part :=
  ⟨before, [], by rw [List.append_nil, htext], hstart, by rw [htext, width_append, hstart]⟩

end Slice

/-! ### Work that takes slices -/

/-- Work with a list of all slices that it asks for; it stops without a value at one that is
    none. -/
structure Slicing (α : Type) where
  slices : List Slice
  value : Option α

namespace Slicing

variable {α β : Type} {m : Slicing α} {f : α → Slicing β} {P : α → Prop} {R : β → Prop}

instance : Monad Slicing where
  pure a := ⟨[], some a⟩
  bind m f :=
    match m.value with
    | none => ⟨m.slices, none⟩
    | some a => ⟨m.slices ++ (f a).slices, (f a).value⟩

/-- Asks for a slice. -/
def take (text : List Char) (start stop : Nat) : Slicing (List Char) :=
  ⟨[⟨text, start, stop⟩], (Slice.mk text start stop).part?⟩

/-- All slices that the work asks for lie in their texts, between characters, and it comes to a
    value with this property. -/
structure Yields (m : Slicing α) (P : α → Prop) : Prop where
  sound : ∀ slice ∈ m.slices, slice.Sound
  value : ∃ a, m.value = some a ∧ P a

theorem yields_pure {a : α} (h : P a) : (pure a : Slicing α).Yields P :=
  ⟨List.forall_mem_nil _, a, rfl, h⟩

/-- Work goes on from what the work before it yields. -/
theorem Yields.bind (hm : m.Yields P) (hf : ∀ a, P a → (f a).Yields R) : (m >>= f).Yields R := by
  obtain ⟨hsound, a, hvalue, ha⟩ := hm
  have hbind : m >>= f = ⟨m.slices ++ (f a).slices, (f a).value⟩ := by
    show (match m.value with | none => _ | some a => _) = _
    rw [hvalue]
  rw [hbind]
  exact ⟨List.forall_mem_append.mpr ⟨hsound, (hf a ha).sound⟩, (hf a ha).value⟩

theorem Yields.map {g : α → β} (hm : m.Yields P) (hg : ∀ a, P a → R (g a)) :
    (g <$> m).Yields R :=
  hm.bind fun a ha => yields_pure (hg a ha)

/-- A slice along characters is one. -/
theorem yields_take {text part : List Char} {start stop : Nat}
    (h : (Slice.mk text start stop).Holds part) : (take text start stop).Yields (· = part) :=
  ⟨List.forall_mem_singleton.mpr ⟨part, h⟩, part, Slice.part?_eq_some.mpr h, rfl⟩

end Slicing

end ShaderPack.Text
