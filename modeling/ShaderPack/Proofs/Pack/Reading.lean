import ShaderPack.Pack.Decode
import ShaderPack.Pack.Encode
import ShaderPack.Proofs.Bytes
import ShaderPack.Proofs.Sequence

namespace ShaderPack.Pack

open Bytes (littleEndian utf8)

/-!
# Packed shaders — what a reading accepts

A reading is described by the byte strings that it accepts: `Reads m form` says that `m`
yields a value exactly where a byte string of the `form` of that value comes next, and that
it passes over this string and no further.  One lemma for each way to build a reading makes
the form of a long reading a matter of its parts:

* `reads_take`, `reads_number` — the leaves;
* `Reads.bind` — one reading after another accepts one form after another;
* `reads_readRecord` — so a record is read off exactly the bytes that the packed form has
  for it.

`Reader.Within` is the invariant of positions: no reading leaves the bytes, and one that
ends too early says where, inside them.
-/

variable {α β : Type}

/-! ### Forms -/

/-- The reader `r` comes to `r'` by passing over `bytes`. -/
def Reader.Passes (r : Reader) (bytes : Bytes) (r' : Reader) : Prop :=
  r.rest = bytes ++ r'.rest ∧ r'.offset = r.offset + bytes.length

theorem Reader.passes_nil {r r' : Reader} : r.Passes [] r' ↔ r = r' := by
  obtain ⟨offset, rest⟩ := r
  obtain ⟨offset', rest'⟩ := r'
  simp only [Reader.Passes, List.nil_append, List.length_nil, Nat.add_zero, Reader.mk.injEq]
  constructor
  · intro h
    obtain ⟨hrest, hoffset⟩ := h
    exact ⟨hoffset.symm, hrest⟩
  · intro h
    obtain ⟨hoffset, hrest⟩ := h
    exact ⟨hrest, hoffset.symm⟩

/-- Passing over two strings is passing over the one and then the other. -/
theorem Reader.passes_append {r r'' : Reader} {x y : Bytes} :
    r.Passes (x ++ y) r'' ↔ ∃ r', r.Passes x r' ∧ r'.Passes y r'' := by
  constructor
  · intro h
    obtain ⟨hrest, hoffset⟩ := h
    refine ⟨⟨r.offset + x.length, y ++ r''.rest⟩, ⟨?_, rfl⟩, rfl, ?_⟩
    · rw [hrest, List.append_assoc]
    · rw [hoffset, List.length_append, Nat.add_assoc]
  · intro h
    obtain ⟨r', ⟨hrest, hoffset⟩, hrest', hoffset'⟩ := h
    refine ⟨?_, ?_⟩
    · rw [hrest, hrest', List.append_assoc]
    · rw [hoffset', hoffset, List.length_append, Nat.add_assoc]

/-- An offset among the bytes that a reader has before it, or at their end. -/
def Reader.Within (r : Reader) (offset : Nat) : Prop :=
  r.offset ≤ offset ∧ offset ≤ r.offset + r.rest.length

/-- Bytes that are passed over do not take a reader out of its bytes. -/
theorem Reader.Passes.within {r r' : Reader} {bytes : Bytes} (h : r.Passes bytes r')
    {offset : Nat} (ho : r'.Within offset) : r.Within offset := by
  obtain ⟨hrest, hoffset⟩ := h
  obtain ⟨hlow, hhigh⟩ := ho
  rw [Reader.Within, hrest, List.length_append]
  omega

/-- **What a reading accepts.** It yields a value exactly where bytes of the form of this
    value come next, and passes over them; if the bytes end too early, it says where it
    stands inside them. -/
structure Reads (m : Reading α) (form : α → Bytes → Prop) : Prop where
  eq_ok : ∀ r a r', m r = .ok (a, r') ↔ ∃ bytes, form a bytes ∧ r.Passes bytes r'
  within : ∀ r field offset, m r = .error (.truncated field offset) → r.Within offset

/-- A reading accepts equal forms. -/
theorem Reads.congr {m : Reading α} {form form' : α → Bytes → Prop} (hm : Reads m form)
    (h : ∀ a bytes, form a bytes ↔ form' a bytes) : Reads m form' := by
  refine ⟨fun r a r' => ?_, hm.within⟩
  rw [hm.eq_ok r a r']
  simp only [h]

/-- Yielding a value takes no bytes. -/
theorem reads_pure (a : α) : Reads (pure a) fun b bytes => b = a ∧ bytes = [] := by
  refine ⟨fun r b r' => ?_, fun r field offset h => by cases h⟩
  show Except.ok (a, r) = Except.ok (b, r') ↔ _
  constructor
  · rintro ⟨⟩
    exact ⟨[], ⟨rfl, rfl⟩, Reader.passes_nil.mpr rfl⟩
  · intro h
    obtain ⟨_, ⟨rfl, rfl⟩, h⟩ := h
    rw [Reader.passes_nil.mp h]

/-- A fault that is no truncation accepts nothing. -/
theorem reads_throw {fault : ReadFault} (h : ∀ field offset, fault ≠ .truncated field offset) :
    Reads (throw fault : Reading α) fun _ _ => False := by
  refine ⟨fun r a r' => ?_, fun r field offset hfault => ?_⟩
  · show Except.error fault = Except.ok (a, r') ↔ _
    simp
  · have hfault : Except.error fault = Except.error (.truncated field offset) := hfault
    exact absurd (Except.error.inj hfault) (h field offset)

/-- A value that must be there takes no bytes. -/
theorem reads_require (fault : ReadFault)
    (hfault : ∀ field offset, fault ≠ .truncated field offset) (value : Option α) :
    Reads (require fault value) fun a bytes => value = some a ∧ bytes = [] := by
  cases value with
  | none => exact (reads_throw hfault).congr (by simp)
  | some a => exact (reads_pure a).congr (by simp [eq_comm])

/-- Two readings yield what the second one yields behind the first. -/
theorem bind_eq_ok {m : Reading α} {f : α → Reading β} {r r'' : Reader} {b : β} :
    (m >>= f) r = .ok (b, r'') ↔ ∃ a r', m r = .ok (a, r') ∧ f a r' = .ok (b, r'') := by
  have hbind : (m >>= f) r = (m r >>= fun out => f out.1 out.2) := rfl
  rw [hbind, sequence_eq_ok, Prod.exists]

/-- Two readings fail where the first one does, or the second one behind it. -/
theorem bind_eq_error {m : Reading α} {f : α → Reading β} {r : Reader} {fault : ReadFault} :
    (m >>= f) r = .error fault ↔
      m r = .error fault ∨ ∃ a r', m r = .ok (a, r') ∧ f a r' = .error fault := by
  have hbind : (m >>= f) r = (m r >>= fun out => f out.1 out.2) := rfl
  rw [hbind, sequence_eq_error, Prod.exists]

/-- One reading after another accepts one form after another. -/
theorem Reads.bind {m : Reading α} {f : α → Reading β} {form : α → Bytes → Prop}
    {form' : α → β → Bytes → Prop} (hm : Reads m form) (hf : ∀ a, Reads (f a) (form' a)) :
    Reads (m >>= f) fun b bytes =>
      ∃ a x y, form a x ∧ form' a b y ∧ bytes = x ++ y := by
  refine ⟨fun r b r'' => ?_, fun r field offset h => ?_⟩
  · -- the first reading passes over `x` and the second one over `y` behind it
    rw [bind_eq_ok]
    constructor
    · intro h
      obtain ⟨a, r', ha, hb⟩ := h
      obtain ⟨x, hx, hpass⟩ := (hm.eq_ok r a r').mp ha
      obtain ⟨y, hy, hpass'⟩ := ((hf a).eq_ok r' b r'').mp hb
      exact ⟨x ++ y, ⟨a, x, y, hx, hy, rfl⟩, Reader.passes_append.mpr ⟨r', hpass, hpass'⟩⟩
    · intro h
      obtain ⟨_, ⟨a, x, y, hx, hy, rfl⟩, hpass⟩ := h
      obtain ⟨r', hpass, hpass'⟩ := Reader.passes_append.mp hpass
      exact ⟨a, r', (hm.eq_ok r a r').mpr ⟨x, hx, hpass⟩,
        ((hf a).eq_ok r' b r'').mpr ⟨y, hy, hpass'⟩⟩
  · rcases bind_eq_error.mp h with hr | ⟨a, r', hr, h⟩
    · exact hm.within r field offset hr
    · obtain ⟨x, -, hpass⟩ := (hm.eq_ok r a r').mp hr
      exact hpass.within ((hf a).within r' field offset h)

/-! ### Fields -/

/-- Taking bytes accepts any bytes of that number. -/
theorem reads_take (field : Field) (count : Nat) :
    Reads (take field count) fun taken bytes => taken = bytes ∧ bytes.length = count := by
  refine ⟨fun r taken r' => ?_, fun r field' offset h => ?_⟩
  · simp only [take]
    by_cases hlen : (r.rest.take count).length = count
    · rw [if_pos hlen]
      constructor
      · rintro ⟨⟩
        refine ⟨_, ⟨rfl, hlen⟩, ?_, ?_⟩
        · rw [List.take_append_drop]
        · rw [hlen]
      · intro h
        obtain ⟨_, ⟨rfl, rfl⟩, hrest, hoffset⟩ := h
        obtain ⟨offset', rest'⟩ := r'
        simp only at hrest hoffset
        rw [hrest, List.take_left, List.drop_left, hoffset]
    · rw [if_neg hlen]
      constructor
      · intro h
        cases h
      · intro h
        obtain ⟨_, ⟨-, rfl⟩, hrest, -⟩ := h
        rw [hrest, List.take_left] at hlen
        exact absurd rfl hlen
  · simp only [take] at h
    split at h
    · cases h
    · obtain ⟨⟨rfl⟩, rfl⟩ : field = field' ∧ r.offset = offset := by simpa using h
      exact ⟨Nat.le_refl _, Nat.le_add_right _ _⟩

/-- A number is read off its own bytes. -/
theorem reads_number (field : Field) (width : Nat) :
    Reads (number field width) fun n bytes => n < 256 ^ width ∧ bytes = littleEndian width n := by
  refine ((reads_take field width).bind fun bytes =>
    reads_pure (Bytes.ofLittleEndian bytes)).congr fun n bytes => ?_
  constructor
  · -- the bytes that were taken are the ones that their number is written as
    intro h
    obtain ⟨taken, _, _, ⟨rfl, rfl⟩, ⟨rfl, rfl⟩, rfl⟩ := h
    rw [List.append_nil]
    exact ⟨Bytes.ofLittleEndian_lt taken, (Bytes.littleEndian_ofLittleEndian taken).symm⟩
  · intro h
    obtain ⟨hn, rfl⟩ := h
    exact ⟨_, _, [], ⟨rfl, Bytes.length_littleEndian width n⟩,
      ⟨(Bytes.ofLittleEndian_littleEndian hn).symm, rfl⟩, (List.append_nil _).symm⟩

theorem reads_byte (field : Field) : Reads (byte field) fun v bytes => bytes = [v] := by
  refine ((reads_number field 1).bind fun n => reads_pure (UInt8.ofNat n)).congr
    fun v bytes => ?_
  constructor
  · intro h
    obtain ⟨n, _, _, ⟨-, rfl⟩, ⟨rfl, rfl⟩, rfl⟩ := h
    rfl
  · rintro rfl
    refine ⟨v.toNat, _, [], ⟨v.toNat_lt, rfl⟩, ⟨UInt8.ofNat_toNat.symm, rfl⟩, ?_⟩
    simp [littleEndian]

theorem reads_word (field : Field) :
    Reads (word field) fun v bytes => bytes = littleEndian 2 v.toNat := by
  refine ((reads_number field 2).bind fun n => reads_pure (UInt16.ofNat n)).congr
    fun v bytes => ?_
  constructor
  · intro h
    obtain ⟨n, _, _, ⟨hn, rfl⟩, ⟨rfl, rfl⟩, rfl⟩ := h
    rw [UInt16.toNat_ofNat_of_lt' hn, List.append_nil]
  · rintro rfl
    exact ⟨v.toNat, _, [], ⟨v.toNat_lt, rfl⟩, ⟨UInt16.ofNat_toNat.symm, rfl⟩,
      (List.append_nil _).symm⟩

/-- A text is read off its length and its own bytes. -/
theorem reads_readText (lengthField textField : Field) (width : Nat) (fault : ReadFault)
    (hfault : ∀ field offset, fault ≠ .truncated field offset) :
    Reads (readText lengthField textField width fault) fun text bytes =>
      (utf8 text).length < 256 ^ width ∧
        bytes = littleEndian width (utf8 text).length ++ utf8 text := by
  refine ((reads_number lengthField width).bind fun length =>
    (reads_take textField length).bind fun taken =>
    reads_require fault hfault (Bytes.decode? taken)).congr fun text bytes => ?_
  constructor
  · intro h
    obtain ⟨_, _, _, ⟨hlen, rfl⟩, ⟨taken, _, _, ⟨rfl, rfl⟩, ⟨htext, rfl⟩, rfl⟩, rfl⟩ := h
    obtain rfl := Bytes.utf8_of_decode? htext
    rw [List.append_nil]
    exact ⟨hlen, rfl⟩
  · intro h
    obtain ⟨hlen, rfl⟩ := h
    exact ⟨_, _, _, ⟨hlen, rfl⟩, ⟨_, _, [], ⟨rfl, rfl⟩, ⟨Bytes.decode?_utf8 text, rfl⟩,
      (List.append_nil _).symm⟩, rfl⟩

/-! ### Records -/

theorem reads_readName (index : Nat) :
    Reads (readName index) fun name bytes => (utf8 name).length ≤ maxName ∧
      bytes = littleEndian 1 (utf8 name).length ++ utf8 name := by
  refine (reads_readText .nameLength .name 1 (.nameNotText index) (by simp)).congr
    fun name bytes => ?_
  rw [← Nat.lt_succ_iff]
  rfl

theorem reads_readKind (name : String) :
    Reads (readKind name) fun kind bytes => kind ≠ .unknown ∧ bytes = [kind.wire] := by
  refine ((reads_byte .kind).bind fun value =>
    reads_require (.unknownKind name value) (by simp) (Kind.ofWire? value)).congr
    fun kind bytes => ?_
  constructor
  · intro h
    obtain ⟨value, _, _, rfl, ⟨hvalue, rfl⟩, rfl⟩ := h
    obtain ⟨hknown, rfl⟩ := Kind.ofWire?_eq_some.mp hvalue
    exact ⟨hknown, rfl⟩
  · intro h
    obtain ⟨hknown, rfl⟩ := h
    exact ⟨kind.wire, _, [], rfl, ⟨Kind.ofWire?_eq_some.mpr ⟨hknown, rfl⟩, rfl⟩, rfl⟩

theorem reads_readTexture :
    Reads readTexture fun t bytes => bytes = [t.component, t.dimension, t.format] := by
  refine ((reads_byte .textureComponent).bind fun component =>
    (reads_byte .textureDimension).bind fun dimension =>
    (reads_byte .textureFormat).bind fun format =>
    reads_pure ({ component, dimension, format } : TextureInfo)).congr fun t bytes => ?_
  constructor
  · rintro ⟨component, _, _, rfl, ⟨dimension, _, _, rfl, ⟨format, _, _, rfl, ⟨rfl, rfl⟩, rfl⟩,
      rfl⟩, rfl⟩
    rfl
  · rintro rfl
    exact ⟨t.component, _, _, rfl, ⟨t.dimension, _, _, rfl, ⟨t.format, _, [], rfl, ⟨rfl, rfl⟩,
      rfl⟩, rfl⟩, rfl⟩

/-- **A record is read off its own bytes**, and only a record of a known kind with a name
    that fits is ever read. -/
theorem reads_readRecord (index : Nat) :
    Reads (readRecord index) fun b bytes =>
      nameFits b = true ∧ b.isKnown = true ∧ bytes = record b := by
  refine ((reads_readName index).bind fun name => (reads_readKind name).bind fun kind =>
    (reads_byte .size).bind fun size => (reads_word .register).bind fun register =>
    (reads_word .registers).bind fun registers => reads_readTexture.bind fun texture =>
    reads_pure ({ name, kind, size, register, registers, texture } : Binding)).congr
    fun b bytes => ?_
  constructor
  · rintro ⟨name, _, _, ⟨hname, rfl⟩, ⟨kind, _, _, ⟨hkind, rfl⟩, ⟨size, _, _, rfl,
      ⟨register, _, _, rfl, ⟨registers, _, _, rfl, ⟨texture, _, _, rfl, ⟨rfl, rfl⟩, rfl⟩, rfl⟩,
      rfl⟩, rfl⟩, rfl⟩, rfl⟩
    refine ⟨by simpa [nameFits] using hname, by simpa [Binding.isKnown] using hkind, ?_⟩
    simp [record]
  · intro h
    obtain ⟨hname, hknown, rfl⟩ := h
    have hname' : (utf8 b.name).length ≤ maxName := by simpa [nameFits] using hname
    have hkind : b.kind ≠ .unknown := by simpa [Binding.isKnown] using hknown
    refine ⟨b.name, _, _, ⟨hname', rfl⟩, ⟨b.kind, _, _, ⟨hkind, rfl⟩, ⟨b.size, _, _, rfl,
      ⟨b.register, _, _, rfl, ⟨b.registers, _, _, rfl, ⟨b.texture, _, [], rfl, ⟨rfl, rfl⟩, rfl⟩,
      rfl⟩, rfl⟩, rfl⟩, rfl⟩, ?_⟩
    simp [record]

end ShaderPack.Pack
