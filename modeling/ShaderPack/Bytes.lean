namespace ShaderPack

/-!
# Bytes

Numbers and text as bytes: numbers of a fixed width with the lowest byte first, text in
UTF-8.  Reading a text gives back what was written (`decode?_utf8`), and nothing but the form
of a text is read as that text (`utf8_of_decode?`).
-/

/-- A string of bytes. -/
abbrev Bytes := List UInt8

namespace Bytes

/-! ### Numbers -/

/-- The lowest `width` bytes of a number, the lowest one first. -/
def littleEndian : (width n : Nat) → Bytes
  | 0, _ => []
  | width + 1, n => UInt8.ofNat n :: littleEndian width (n / 256)

/-- The number whose lowest byte comes first. -/
def ofLittleEndian : Bytes → Nat
  | [] => 0
  | b :: rest => b.toNat + 256 * ofLittleEndian rest

@[simp] theorem length_littleEndian (width n : Nat) :
    (littleEndian width n).length = width := by
  induction width generalizing n with
  | zero => rfl
  | succ width ih => simp [littleEndian, ih]

/-! ### Text -/

/-- A text in UTF-8. -/
def utf8 (s : String) : Bytes := s.toList.flatMap String.utf8EncodeChar

/-- The text whose UTF-8 form the bytes are. -/
def decode? (bytes : Bytes) : Option String := String.fromUTF8? bytes.toByteArray

theorem toByteArray_utf8 (s : String) : (utf8 s).toByteArray = s.toByteArray := by
  conv => rhs; rw [← String.ofList_toList (s := s), String.toByteArray_ofList]
  rfl

/-- Text is read back. -/
theorem decode?_utf8 (s : String) : decode? (utf8 s) = some s := by
  have h : (utf8 s).toByteArray.IsValidUTF8 := toByteArray_utf8 s ▸ s.isValidUTF8
  simp only [decode?, String.fromUTF8?, dif_pos h, Option.some.injEq]
  exact String.toByteArray_inj.mp (toByteArray_utf8 s)

/-- Nothing but the UTF-8 form of a text is read as that text. -/
theorem utf8_of_decode? {bytes : Bytes} {s : String} (h : decode? bytes = some s) :
    utf8 s = bytes := by
  simp only [decode?, String.fromUTF8?] at h
  split at h
  · next hvalid =>
    have hs : (utf8 s).toByteArray = bytes.toByteArray := by
      rw [toByteArray_utf8, ← Option.some.inj h]
      rfl
    have := congrArg (·.data.toList) hs
    simpa using this
  · simp at h

end Bytes

end ShaderPack
