import Mathlib.Algebra.BigOperators.Group.List.Basic
import ShaderPack.Proofs.Pack.RoundTrip

namespace ShaderPack

open Bytes (littleEndian utf8)

/-!
# Packed shaders — where everything stands

A shader is packed exactly within three limits, and a refusal names the first limit that it exceeds
(`PackedShader.Refused`): the number of bindings, then the length of the source, then the first name
that is too long.  What it is packed to is `LaidOut`: every field stands at an offset that the
bindings in front of it determine, and each number is read back there as it is in the table.

* `Bytes.StandsAt` — a piece of bytes at an offset; `standsAt_append` takes pieces apart;
* `Pack.recordAt_record` — the fields of a record, at their offsets from its beginning;
* `PackedShader.encode_offsets` — the limits, the refusals and the offsets.
-/

namespace Bytes

variable {bytes x y piece : Bytes} {offset : Nat}

/-! ### Pieces at an offset -/

/-- The bytes from an offset on, as many as said. -/
def part (bytes : Bytes) (offset count : Nat) : Bytes := (bytes.drop offset).take count

/-- The number that stands at an offset. -/
def numberAt (bytes : Bytes) (offset width : Nat) : Nat := ofLittleEndian (bytes.part offset width)

/-- The piece stands in the bytes, at the offset. -/
def StandsAt (bytes : Bytes) (offset : Nat) (piece : Bytes) : Prop :=
  ∃ front behind, bytes = front ++ (piece ++ behind) ∧ front.length = offset

/-- A piece made of two stands where the one does and the other behind it. -/
theorem StandsAt.append (h : StandsAt bytes offset (x ++ y)) :
    StandsAt bytes offset x ∧ StandsAt bytes (offset + x.length) y := by
  obtain ⟨front, behind, rfl, rfl⟩ := h
  refine ⟨⟨front, y ++ behind, by simp, rfl⟩, ⟨front ++ x, behind, by simp, ?_⟩⟩
  exact List.length_append

theorem StandsAt.part_eq (h : StandsAt bytes offset piece) :
    bytes.part offset piece.length = piece := by
  obtain ⟨front, behind, rfl, rfl⟩ := h
  rw [part, List.drop_left, List.take_left]

/-- A number that fits its width is read back where it stands. -/
theorem StandsAt.numberAt_eq {width n : Nat} (h : StandsAt bytes offset (littleEndian width n))
    (hn : n < 256 ^ width) : bytes.numberAt offset width = n := by
  have hpart := h.part_eq
  rw [length_littleEndian] at hpart
  rw [numberAt, hpart, ofLittleEndian_littleEndian hn]

end Bytes

namespace Pack

variable {bytes : Bytes} {offset : Nat} {b : Binding}

/-! ### Records -/

/-- Number of bytes of a record. -/
def recordSize (b : Binding) : Nat := 10 + (utf8 b.name).length

/-- Where the record of a binding begins, by the bindings in front of it. -/
def recordStart (bindings : List Binding) (index : Nat) : Nat :=
  2 + ((bindings.take index).map recordSize).sum

/-- The fields of a record that begins at an offset. -/
structure RecordAt (bytes : Bytes) (offset : Nat) (b : Binding) : Prop where
  nameLength : bytes.numberAt offset 1 = (utf8 b.name).length
  name : bytes.part (offset + 1) (utf8 b.name).length = utf8 b.name
  kindAndSize : bytes.part (offset + 1 + (utf8 b.name).length) 2 = [b.kind.wire, b.size]
  register : bytes.numberAt (offset + 3 + (utf8 b.name).length) 2 = b.register.toNat
  registers : bytes.numberAt (offset + 5 + (utf8 b.name).length) 2 = b.registers.toNat
  texture : bytes.part (offset + 7 + (utf8 b.name).length) 3 =
    [b.texture.component, b.texture.dimension, b.texture.format]

theorem length_record (b : Binding) : (record b).length = recordSize b := by
  simp only [record, recordSize, List.length_append, Bytes.length_littleEndian, List.length_cons,
    List.length_nil]
  omega

theorem length_records (bindings : List Binding) :
    (bindings.flatMap record).length = (bindings.map recordSize).sum := by
  rw [List.length_flatMap]
  exact congrArg List.sum (List.map_congr_left fun b _ => length_record b)

/-- **The fields of a record** stand behind one another. -/
theorem recordAt_record (h : Bytes.StandsAt bytes offset (record b))
    (hname : (utf8 b.name).length ≤ maxName) : RecordAt bytes offset b := by
  obtain ⟨h, htexture⟩ := h.append
  obtain ⟨h, hregisters⟩ := h.append
  obtain ⟨h, hregister⟩ := h.append
  obtain ⟨h, hkind⟩ := h.append
  obtain ⟨hlength, hname'⟩ := h.append
  simp only [List.length_append, Bytes.length_littleEndian, List.length_cons, List.length_nil,
    Nat.zero_add] at htexture hregisters hregister hkind hname'
  have hword (n : UInt16) : n.toNat < 256 ^ 2 := n.toNat_lt
  refine ⟨hlength.numberAt_eq (Nat.lt_succ_of_le hname), hname'.part_eq, ?_, ?_, ?_, ?_⟩
  · rw [Nat.add_assoc]
    exact hkind.part_eq
  · rw [show offset + 3 + (utf8 b.name).length = offset + (1 + (utf8 b.name).length + 2) by omega]
    exact hregister.numberAt_eq (hword _)
  · rw [show offset + 5 + (utf8 b.name).length = offset + (1 + (utf8 b.name).length + 2 + 2) by
      omega]
    exact hregisters.numberAt_eq (hword _)
  · rw [show offset + 7 + (utf8 b.name).length = offset + (1 + (utf8 b.name).length + 2 + 2 + 2) by
      omega]
    exact htexture.part_eq

end Pack

namespace PackedShader

open Pack

variable {p : PackedShader} {bytes : Bytes}

/-! ### Whole shaders -/

/-- Why a shader is not packed, the first cause in the order in which they are looked for. -/
inductive Refused (p : PackedShader) : Failure → Prop
  /-- There are too many bindings. -/
  | bindings (hcount : 65535 < p.bindings.length) :
    Refused p (.unwritten (toString p.bindings.length ++ " uniforms exceed the blob limit"))
  /-- The bindings are not too many, but the source is too long. -/
  | source (hcount : p.bindings.length ≤ 65535) (hsource : 2 ^ 32 ≤ (utf8 p.source).length) :
    Refused p (.unwritten
      ("source of " ++ toString (utf8 p.source).length ++ " bytes exceeds the blob limit"))
  /-- A name is too long, and none in front of it is. -/
  | name {before after : List Binding} {b : Binding} (hcount : p.bindings.length ≤ 65535)
      (hsource : (utf8 p.source).length < 2 ^ 32)
      (hsplit : p.bindings.toList = before ++ b :: after)
      (hbefore : ∀ c ∈ before, (utf8 c.name).length ≤ 255) (hname : 255 < (utf8 b.name).length) :
    Refused p (.unwritten ("uniform name '" ++ b.name ++ "' is longer than 255 bytes"))

/-- The bytes of a packed shader, field by field. -/
structure LaidOut (p : PackedShader) (bytes : Bytes) : Prop where
  length : bytes.length =
    2 + (p.bindings.toList.map recordSize).sum + 4 + (utf8 p.source).length + 1
  count : bytes.numberAt 0 2 = p.bindings.length
  record : ∀ index b, p.bindings.get? index = some b →
    RecordAt bytes (recordStart p.bindings.toList index) b
  sourceLength : bytes.numberAt (recordStart p.bindings.toList p.bindings.length) 4 =
    (utf8 p.source).length
  source : bytes.part (recordStart p.bindings.toList p.bindings.length + 4)
    (utf8 p.source).length = utf8 p.source
  terminator : bytes.getLast? = some 0

/-- The name that is found is too long, and none in front of it is. -/
theorem find?_tooLong {bindings : List Binding} {b : Binding} :
    bindings.find? (fun b => !nameFits b) = some b ↔ 255 < (utf8 b.name).length ∧
      ∃ before after, bindings = before ++ b :: after ∧
        ∀ c ∈ before, (utf8 c.name).length ≤ 255 := by
  have hfits (b : Binding) : (!!nameFits b) = true ↔ (utf8 b.name).length ≤ 255 := by
    rw [Bool.not_not]
    exact decide_eq_true_iff
  have hlong : (!nameFits b) = true ↔ 255 < (utf8 b.name).length := by
    rw [← Nat.not_le, ← hfits, Bool.not_not, Bool.not_eq_true, Bool.not_eq_true']
  rw [List.find?_eq_some_iff_append, hlong]
  simp only [hfits]

/-- What is found to be wrong is the first cause. -/
theorem fault?_eq_some {failure : Failure} :
    (∃ fault, p.fault? = some fault ∧ fault.failure = failure) ↔ p.Refused failure := by
  have hlimit : (utf8 p.source).length ≤ maxSource ↔ (utf8 p.source).length < 2 ^ 32 :=
    Nat.lt_succ_iff.symm
  constructor
  · rintro ⟨fault, hfault, rfl⟩
    unfold fault? at hfault
    split at hfault
    · next hcount =>
      cases hfault
      exact .bindings hcount
    · next hcount =>
      rw [Nat.not_lt] at hcount
      split at hfault
      · next hsource =>
        cases hfault
        exact .source hcount hsource
      · next hsource =>
        rw [Nat.not_lt, hlimit] at hsource
        obtain ⟨b, hfound, rfl⟩ := Option.map_eq_some_iff.mp hfault
        obtain ⟨hname, before, after, hsplit, hbefore⟩ := find?_tooLong.mp hfound
        exact .name hcount hsource hsplit hbefore hname
  · intro h
    unfold fault?
    cases h with
    | bindings hcount => exact ⟨_, if_pos hcount, rfl⟩
    | source hcount hsource =>
      have hfew : ¬maxBindings < p.bindings.length := Nat.not_lt.mpr hcount
      rw [if_neg hfew]
      exact ⟨_, if_pos hsource, rfl⟩
    | @name before after b hcount hsource hsplit hbefore hname =>
      have hfew : ¬maxBindings < p.bindings.length := Nat.not_lt.mpr hcount
      have hshort : ¬maxSource < (utf8 p.source).length := Nat.not_lt.mpr (hlimit.mpr hsource)
      rw [if_neg hfew, if_neg hshort, find?_tooLong.mpr ⟨hname, before, after, hsplit, hbefore⟩]
      exact ⟨_, rfl, rfl⟩

/-- A refused shader is told the first cause. -/
theorem encode_refused {failure : Failure} :
    p.encode.mapError WriteFault.failure = .error failure ↔ p.Refused failure := by
  rw [← fault?_eq_some, encode]
  cases p.fault? with
  | none => simp [Except.mapError]
  | some fault => simp [Except.mapError]

/-- The record of a binding stands behind the records of those in front of it. -/
theorem standsAt_record {index : Nat} {b : Binding} (source : Bytes) {bindings : List Binding}
    (h : bindings[index]? = some b) :
    (layout bindings source).StandsAt (recordStart bindings index) (Pack.record b) := by
  obtain ⟨front, back, rfl, rfl⟩ :
      ∃ front back, bindings = front ++ b :: back ∧ front.length = index := by
    obtain ⟨hindex, rfl⟩ := List.getElem?_eq_some_iff.mp h
    refine ⟨bindings.take index, bindings.drop (index + 1), ?_, ?_⟩
    · rw [List.getElem_cons_drop, List.take_append_drop]
    · exact List.length_take_of_le (Nat.le_of_lt hindex)
  refine ⟨littleEndian 2 (front ++ b :: back).length ++ front.flatMap Pack.record,
    back.flatMap Pack.record ++ (littleEndian 4 source.length ++ source ++ [0]), ?_, ?_⟩
  · simp [layout_eq]
  · rw [List.length_append, Bytes.length_littleEndian, length_records, recordStart, List.take_left]

-- A third record begins behind the count (2), a name of 5 bytes (15) and one of 8 bytes (18).
example : recordStart [.declared "u_mvp" .mat4 1, .declared "u_params" .vec4 3,
    .inSlot "s_tex" 258] 2 = 35 := by decide +kernel

/-- The end of a packed shader stands behind all records. -/
theorem standsAt_end (bindings : List Binding) (source : Bytes) :
    (layout bindings source).StandsAt (recordStart bindings bindings.length)
      (littleEndian 4 source.length ++ source) := by
  refine ⟨littleEndian 2 bindings.length ++ bindings.flatMap Pack.record, [0], ?_, ?_⟩
  · simp [layout]
  · rw [List.length_append, Bytes.length_littleEndian, length_records, recordStart,
      List.take_length]

/-- **A shader that fits is laid out** field by field. -/
theorem Fits.laidOut (h : p.Fits) : p.LaidOut (layout p.bindings.toList (utf8 p.source)) := by
  obtain ⟨hcount, hsource, hnames⟩ := h
  obtain ⟨hlength, htext⟩ := (standsAt_end p.bindings.toList (utf8 p.source)).append
  refine ⟨?_, ?_, fun index b hb => ?_, ?_, ?_, ?_⟩
  · simp only [layout, List.length_append, Bytes.length_littleEndian, length_records,
      List.length_singleton]
  · have hfront : (layout p.bindings.toList (utf8 p.source)).StandsAt 0
        (littleEndian 2 p.bindings.toList.length) := ⟨[], _, layout_eq _ _, rfl⟩
    exact hfront.numberAt_eq (Nat.lt_succ_of_le hcount)
  · have hname : nameFits b = true := hnames b (List.mem_of_getElem? hb)
    exact recordAt_record (standsAt_record _ hb) (of_decide_eq_true hname)
  · exact hlength.numberAt_eq (Nat.lt_succ_of_le hsource)
  · rw [Bytes.length_littleEndian] at htext
    exact htext.part_eq
  · simp [layout]

/-- **Packing succeeds exactly within the limits**, and whatever it is refused for comes first in
    the order of the limits.  What a shader is packed to has every field at the offset that the
    bindings in front of it determine. -/
theorem encode_offsets (p : PackedShader) :
    ((∃ bytes, p.encode = .ok bytes) ↔ p.bindings.length ≤ 65535 ∧
      (utf8 p.source).length < 2 ^ 32 ∧ ∀ b ∈ p.bindings.toList, (utf8 b.name).length ≤ 255) ∧
    (∀ failure, p.encode.mapError WriteFault.failure = .error failure ↔ p.Refused failure) ∧
    ∀ bytes, p.encode = .ok bytes → p.LaidOut bytes := by
  refine ⟨?_, fun failure => encode_refused, fun bytes h => ?_⟩
  · rw [encodes_iff, ← Nat.lt_succ_iff (n := maxSource)]
    rfl
  · obtain ⟨hfits, rfl⟩ := encode_eq_ok.mp h
    exact hfits.laidOut

end PackedShader

end ShaderPack
