import ShaderPack.Proofs.Text.Trimming
import ShaderPack.Recovery.ArraySize

namespace ShaderPack.Recovery

open Text

/-!
# Array sizes — reading what stands in brackets

A number is accepted with a sign in front or without one (`Numeral`), and an array size with any
white space around it (`AcceptedSize`).  `arraySize_eq_ok`: a size is read exactly where one of
these stands in front of the first closing bracket, and it is the value of the number.
`arraySize_eq_error`: everywhere else it is missing for one of three reasons (`Unreadable`), and
`arraySize_exact` says both in terms of the text in front of the bracket.

A `WrittenSize` is a size without a sign and with blanks around it, as it is written in a
declaration; `arraySize_text` says that it is accepted.
-/

/-! ### Numbers -/

/-- A number as it is accepted. -/
structure Numeral where
  signed : Bool
  digits : List Char
  decimal : digits.all Char.isDigit = true
  nonempty : digits ≠ []

namespace Numeral

def text (n : Numeral) : List Char := if n.signed then '+' :: n.digits else n.digits

def value (n : Numeral) : Nat := Decimal.value n.digits

theorem digit (n : Numeral) : ∀ c ∈ n.digits, c.isDigit = true := List.all_eq_true.mp n.decimal

/-- The characters of a number are its digits and perhaps a sign. -/
theorem mem_text (n : Numeral) {c : Char} (hc : c ∈ n.text) : c = '+' ∨ c.isDigit = true := by
  unfold text at hc
  split at hc
  · exact (List.mem_cons.mp hc).imp_right (n.digit c)
  · exact .inr (n.digit c hc)

theorem text_ne_nil (n : Numeral) : n.text ≠ [] := by
  unfold text
  split
  · exact List.cons_ne_nil _ _
  · exact n.nonempty

section

variable {b b' : List Char}

/-- A number with white space around it is made of nothing else. -/
theorem notMem_append (n : Numeral) (hb : ∀ c ∈ b, isBlank c = true)
    (hb' : ∀ c ∈ b', isBlank c = true) {x : Char} (hblank : isBlank x = false)
    (hdigit : x.isDigit = false) (hsign : x ≠ '+') : x ∉ b ++ n.text ++ b' := by
  intro h
  rw [List.mem_append, List.mem_append] at h
  rcases h with (h | h) | h
  · simp [hb x h] at hblank
  · simpa [hsign, hdigit] using n.mem_text h
  · simp [hb' x h] at hblank

/-- The white space around a number is taken away. -/
theorem trim_append (n : Numeral) (hb : ∀ c ∈ b, isBlank c = true)
    (hb' : ∀ c ∈ b', isBlank c = true) : trim (b ++ n.text ++ b') = n.text := by
  refine Text.trim_append hb hb' (fun c hc => ?_) n.text_ne_nil
  rcases n.mem_text hc with rfl | hdigit
  · decide
  · exact isBlank_of_isWord (isWord_of_isDigit hdigit)

end

/-- The digits of a number stand behind its sign. -/
theorem unsigned_text (n : Numeral) : Decimal.unsigned n.text = n.digits := by
  obtain ⟨signed, digits, hdecimal, hne⟩ := n
  cases signed with
  | true => rfl
  | false =>
    -- digits without a sign do not begin with one
    show Decimal.unsigned digits = digits
    unfold Decimal.unsigned
    split
    · next rest =>
      have hplus : '+'.isDigit = true := List.all_eq_true.mp hdecimal '+' List.mem_cons_self
      exact absurd hplus (by decide)
    · rfl

end Numeral

/-- What is read as a number is one, and its value is within the limit. -/
theorem parse?_eq_some {limit value : Nat} {s : List Char} :
    Decimal.parse? limit s = some value ↔
      ∃ n : Numeral, s = n.text ∧ n.value = value ∧ value ≤ limit := by
  constructor
  · intro h
    simp only [Decimal.parse?, Bool.or_eq_true, List.isEmpty_iff, Bool.not_eq_true'] at h
    split at h
    · cases h
    · next hdigits =>
      rw [not_or, Bool.not_eq_false] at hdigits
      split at h
      · next hlimit =>
        cases h
        refine ⟨⟨s.head? = some '+', Decimal.unsigned s, hdigits.2, hdigits.1⟩, ?_, rfl, hlimit⟩
        unfold Decimal.unsigned Numeral.text
        split
        · rfl
        · next hunsigned =>
          cases s with
          | nil => rfl
          | cons c rest =>
            have hc : c ≠ '+' := fun hc => hunsigned rest (hc ▸ rfl)
            simp [hc]
      · cases h
  · rintro ⟨n, rfl, rfl, hlimit⟩
    have hnonempty : n.digits.isEmpty = false := by simp [n.nonempty]
    simp only [Decimal.parse?, n.unsigned_text, hnonempty, n.decimal]
    exact if_pos hlimit

/-- What is read once it is trimmed is a number with white space around it. -/
theorem exists_of_parse?_trim {limit value : Nat} {s : List Char}
    (h : Decimal.parse? limit (trim s) = some value) :
    ∃ (b b' : List Char) (n : Numeral), (∀ c ∈ b, isBlank c = true) ∧
      (∀ c ∈ b', isBlank c = true) ∧ s = b ++ n.text ++ b' ∧ n.value = value ∧ value ≤ limit := by
  obtain ⟨n, hn, hvalue, hlimit⟩ := parse?_eq_some.mp h
  obtain ⟨b, b', hb, hb', hs⟩ := exists_trim s
  exact ⟨b, b', n, hb, hb', hn ▸ hs, hvalue, hlimit⟩

/-! ### Sizes that are accepted -/

/-- An array size as it is accepted between brackets. -/
structure AcceptedSize where
  before : List Char
  blankBefore : ∀ c ∈ before, isBlank c = true
  number : Numeral
  lower : 1 ≤ number.value
  upper : number.value ≤ 255
  after : List Char
  blankAfter : ∀ c ∈ after, isBlank c = true

namespace AcceptedSize

/-- The text between the brackets. -/
def text (a : AcceptedSize) : List Char := a.before ++ a.number.text ++ a.after

/-- The number of elements. -/
def size (a : AcceptedSize) : UInt8 := .ofNat a.number.value

theorem toNat_size (a : AcceptedSize) : a.size.toNat = a.number.value := by
  have hupper : a.number.value ≤ 255 := a.upper
  exact UInt8.toNat_ofNat_of_lt (by simp only [UInt8.size]; omega)

/-- The bracket behind a size is the first one. -/
theorem bracket_notMem (a : AcceptedSize) : ']' ∉ a.text :=
  a.number.notMem_append a.blankBefore a.blankAfter (by decide) (by decide) (by decide)

/-- The white space around a size is taken away. -/
theorem trim_text (a : AcceptedSize) : trim a.text = a.number.text :=
  a.number.trim_append a.blankBefore a.blankAfter

end AcceptedSize

/-- **A size is read exactly where an accepted one stands** in front of the first closing
    bracket. -/
theorem arraySize_eq_ok {text : List Char} {name : String} {size : UInt8} :
    arraySize text name = .ok size ↔
      ∃ (a : AcceptedSize) (behind : List Char), text = a.text ++ ']' :: behind ∧
        a.size = size := by
  constructor
  · intro h
    rcases cutAt?_cases ']' text with ⟨-, hcut⟩ | ⟨inside, behind, rfl, -, hcut⟩
    · simp [arraySize, hcut] at h
    · cases hparse : Decimal.parse? arraySizeLimit (trim inside) with
      | none => simp [arraySize, hcut, hparse] at h
      | some value =>
        simp only [arraySize, hcut, hparse] at h
        split at h
        · next hrange =>
          cases h
          obtain ⟨before, after, number, hbefore, hafter, rfl, rfl, -⟩ :=
            exists_of_parse?_trim hparse
          exact ⟨⟨before, hbefore, number, hrange.1, hrange.2, after, hafter⟩, behind, rfl, rfl⟩
        · cases h
  · rintro ⟨a, behind, rfl, rfl⟩
    have hlimit : a.number.value ≤ arraySizeLimit := Nat.le_trans a.upper (by decide)
    have hparse : Decimal.parse? arraySizeLimit (trim a.text) = some a.number.value :=
      parse?_eq_some.mpr ⟨a.number, a.trim_text, rfl, hlimit⟩
    rw [arraySize, cutAt?_append_cons a.bracket_notMem]
    simp only [hparse]
    exact if_pos ⟨a.lower, a.upper⟩

/-! ### Sizes that are not accepted -/

/-- Why no size can be read, by what stands in front of the first closing bracket. -/
inductive Unreadable (text : List Char) (name : String) : Malformed → Prop
  | openBracket (hopen : ']' ∉ text) : Unreadable text name (.openArraySize name)
  /-- It is no number, or one above the limit of numbers that are read at all. -/
  | notNumber {inside behind : List Char} (htext : text = inside ++ ']' :: behind)
    (hfirst : ']' ∉ inside)
    (hnumber : ∀ n : Numeral, trim inside = n.text → arraySizeLimit < n.value) :
    Unreadable text name (.arraySizeNotNumber (.ofList (trim inside)) name)
  /-- It is the number zero, or one above 255. -/
  | outOfRange {inside behind : List Char} (n : Numeral) (htext : text = inside ++ ']' :: behind)
    (hfirst : ']' ∉ inside) (hnumber : trim inside = n.text) (hlimit : n.value ≤ arraySizeLimit)
    (hrange : ¬(1 ≤ n.value ∧ n.value ≤ 255)) :
    Unreadable text name (.arraySizeOutOfRange n.value name)

/-- **A size cannot be read exactly for these reasons.** -/
theorem arraySize_eq_error {text : List Char} {name : String} {cause : Malformed} :
    arraySize text name = .error cause ↔ Unreadable text name cause := by
  constructor
  · intro h
    rcases cutAt?_cases ']' text with ⟨hopen, hcut⟩ | ⟨inside, behind, rfl, hfirst, hcut⟩
    · simp only [arraySize, hcut] at h
      cases h
      exact .openBracket hopen
    · simp only [arraySize, hcut] at h
      cases hparse : Decimal.parse? arraySizeLimit (trim inside) with
      | none =>
        simp only [hparse] at h
        cases h
        refine .notNumber rfl hfirst fun n hn => Nat.lt_of_not_le fun hlimit => ?_
        cases hparse.symm.trans (parse?_eq_some.mpr ⟨n, hn, rfl, hlimit⟩)
      | some value =>
        obtain ⟨n, hn, rfl, hlimit⟩ := parse?_eq_some.mp hparse
        simp only [hparse] at h
        split at h
        · cases h
        · next hrange =>
          cases h
          exact .outOfRange n rfl hfirst hn hlimit hrange
  · intro h
    cases h with
    | openBracket hopen => rw [arraySize, cutAt?_eq_none hopen]
    | @notNumber inside behind htext hfirst hnumber =>
      have hparse : Decimal.parse? arraySizeLimit (trim inside) = none := by
        cases hparse : Decimal.parse? arraySizeLimit (trim inside) with
        | none => rfl
        | some value =>
          obtain ⟨n, hn, rfl, hlimit⟩ := parse?_eq_some.mp hparse
          exact absurd (hnumber n hn) (Nat.not_lt.mpr hlimit)
      rw [htext, arraySize, cutAt?_append_cons hfirst]
      simp only [hparse]
    | @outOfRange inside behind n htext hfirst hnumber hlimit hrange =>
      have hparse : Decimal.parse? arraySizeLimit (trim inside) = some n.value :=
        parse?_eq_some.mpr ⟨n, hnumber, rfl, hlimit⟩
      rw [htext, arraySize, cutAt?_append_cons hfirst]
      simp only [hparse]
      exact if_neg hrange

/-- **What is accepted as an array size, and what is not.**  A size is read exactly if the text in
    front of the first closing bracket, without the white space around it, is a number from 1 to
    255, with a `+` in front or not; it is that number, so nothing is lost in the byte that holds
    it.  Otherwise the declaration is malformed: the bracket is missing, or there is no number in
    front of it that can be read, or that number is out of range. -/
theorem arraySize_exact (text : List Char) (name : String) :
    (∀ size : UInt8, arraySize text name = .ok size ↔
      ∃ (inside behind : List Char) (n : Numeral), text = inside ++ ']' :: behind ∧ ']' ∉ inside ∧
        trim inside = n.text ∧ n.value = size.toNat ∧ 1 ≤ n.value ∧ n.value ≤ 255) ∧
    ∀ cause, arraySize text name = .error cause ↔ Unreadable text name cause := by
  refine ⟨fun size => ⟨?_, ?_⟩, fun cause => arraySize_eq_error⟩
  · intro h
    obtain ⟨a, behind, rfl, rfl⟩ := arraySize_eq_ok.mp h
    exact ⟨a.text, behind, a.number, rfl, a.bracket_notMem, a.trim_text, a.toNat_size.symm,
      a.lower, a.upper⟩
  · rintro ⟨inside, behind, n, rfl, -, htrim, hvalue, hlower, hupper⟩
    obtain ⟨before, after, hbefore, hafter, hinside⟩ := exists_trim inside
    refine arraySize_eq_ok.mpr ⟨⟨before, hbefore, n, hlower, hupper, after, hafter⟩, behind, ?_, ?_⟩
    · rw [hinside, htrim]
      rfl
    · exact UInt8.toNat_inj.mp ((AcceptedSize.toNat_size _).trans hvalue)

-- zeros in front are free, and the white space around a number need not be ASCII
example : (arraySize "\u3000+00255 ]".toList "u").toOption = some 255 := by decide

/-! ### Sizes as they are written -/

/-- An array size as it is written between brackets. -/
structure WrittenSize where
  before : Blanks
  digits : List Char
  decimal : digits.all Char.isDigit = true
  nonempty : digits ≠ []
  lower : 1 ≤ Decimal.value digits
  upper : Decimal.value digits ≤ 255
  after : Blanks

namespace WrittenSize

theorem digit (w : WrittenSize) : ∀ c ∈ w.digits, c.isDigit = true := by
  have h := w.decimal
  rwa [List.all_eq_true] at h

/-- The text between the brackets. -/
def text (w : WrittenSize) : List Char := w.before.text ++ w.digits ++ w.after.text

/-- The number of elements. -/
def size (w : WrittenSize) : UInt8 := .ofNat (Decimal.value w.digits)

/-- A character that is neither digit nor blank is not part of an array size. -/
theorem notMem_text (w : WrittenSize) {x : Char} (hdigit : x.isDigit = false)
    (hspace : isSpace x = false) : x ∉ w.text := by
  intro hx
  simp only [text, List.mem_append] at hx
  rcases hx with (hx | hx) | hx
  · simp [w.before.blank x hx] at hspace
  · simp [w.digit x hx] at hdigit
  · simp [w.after.blank x hx] at hspace

/-- A written size is an accepted one. -/
def accepted (w : WrittenSize) : AcceptedSize where
  before := w.before.text
  blankBefore := w.before.isBlank
  number := ⟨false, w.digits, w.decimal, w.nonempty⟩
  lower := w.lower
  upper := w.upper
  after := w.after.text
  blankAfter := w.after.isBlank

/-- **A written size is read as its value.** -/
theorem arraySize_text (w : WrittenSize) (more : List Char) (name : String) :
    arraySize (w.text ++ ']' :: more) name = .ok w.size :=
  arraySize_eq_ok.mpr ⟨w.accepted, more, rfl, rfl⟩

end WrittenSize

end ShaderPack.Recovery
