import ShaderPack.Proofs.Pack.Reading

namespace ShaderPack

open Bytes (littleEndian utf8)

/-!
# Packed shaders — reading is the inverse of packing

The packed form is canonical: a byte string is read as a shader exactly when it is what this
shader is packed to (`Pack.decode_eq_ok_iff`).  The statement rests on the forms of
`Proofs.Pack.Reading`: records in a row are read off their packed forms one by one, and the
closing zero is read only at the end of the bytes.

* `Pack.decode_layout` — what a shader that fits is laid out to is read as this shader;
* `Pack.eq_layout_of_decode` — bytes that are read as a shader are its layout;
* `Pack.decode_within` — bytes that end too early end inside the bytes.
-/

/-! ### Shaders that have a packed form -/

/-- The table and the source fit the widths of the packed form. -/
structure PackedShader.Fits (p : PackedShader) : Prop where
  bindings : p.bindings.length ≤ Pack.maxBindings
  source : (utf8 p.source).length ≤ Pack.maxSource
  names : ∀ b ∈ p.bindings.toList, Pack.nameFits b = true

/-- A shader has no fault exactly when it fits. -/
theorem PackedShader.fault?_eq_none {p : PackedShader} : p.fault? = none ↔ p.Fits := by
  unfold PackedShader.fault?
  constructor
  · intro h
    split at h
    · cases h
    · next hcount =>
      split at h
      · cases h
      · next hsource =>
        refine ⟨Nat.le_of_not_lt hcount, Nat.le_of_not_lt hsource, ?_⟩
        rw [Option.map_eq_none_iff, List.find?_eq_none] at h
        simpa using h
  · intro h
    obtain ⟨hcount, hsource, hnames⟩ := h
    rw [if_neg (Nat.not_lt.mpr hcount), if_neg (Nat.not_lt.mpr hsource),
      Option.map_eq_none_iff, List.find?_eq_none]
    simpa using hnames

/-- A shader is packed to its layout, and only if it fits. -/
theorem PackedShader.encode_eq_ok {p : PackedShader} {bytes : Bytes} :
    p.encode = .ok bytes ↔ p.Fits ∧ bytes = Pack.layout p.bindings.toList (utf8 p.source) := by
  rw [← PackedShader.fault?_eq_none, PackedShader.encode]
  cases p.fault? with
  | none => simp [eq_comm]
  | some fault => simp

/-- A fault names a limit that the shader exceeds. -/
inductive PackedShader.Exceeds (p : PackedShader) : Pack.WriteFault → Prop
  | bindings (h : Pack.maxBindings < p.bindings.length) :
    Exceeds p (.tooManyBindings p.bindings.length)
  | source (h : Pack.maxSource < (utf8 p.source).length) :
    Exceeds p (.sourceTooLong (utf8 p.source).length)
  | name {b : Binding} (hb : b ∈ p.bindings.toList) (h : Pack.maxName < (utf8 b.name).length) :
    Exceeds p (.nameTooLong b.name)

/-- Whatever fault is found, its limit is exceeded. -/
theorem PackedShader.exceeds_of_fault? {p : PackedShader} {fault : Pack.WriteFault}
    (h : p.fault? = some fault) : p.Exceeds fault := by
  unfold PackedShader.fault? at h
  split at h
  · next hcount =>
    cases h
    exact .bindings hcount
  · split at h
    · next hsource =>
      cases h
      exact .source hsource
    · obtain ⟨b, hb, rfl⟩ := Option.map_eq_some_iff.mp h
      have hlong : Pack.maxName < (utf8 b.name).length := by
        simpa [Pack.nameFits] using List.find?_some hb
      exact .name (List.mem_of_find?_eq_some hb) hlong

/-- A shader that is not packed exceeds the limit that the fault names. -/
theorem PackedShader.exceeds_of_error {p : PackedShader} {fault : Pack.WriteFault}
    (h : p.encode = .error fault) : p.Exceeds fault := by
  rw [PackedShader.encode] at h
  split at h
  · next found hfound =>
    cases h
    exact exceeds_of_fault? hfound
  · cases h

/-- A shader is packed exactly if it exceeds none of the limits. -/
theorem PackedShader.encodes_iff {p : PackedShader} :
    (∃ bytes, p.encode = .ok bytes) ↔ p.bindings.length ≤ Pack.maxBindings ∧
      (utf8 p.source).length ≤ Pack.maxSource ∧
        ∀ b ∈ p.bindings.toList, (utf8 b.name).length ≤ Pack.maxName := by
  simp only [PackedShader.encode_eq_ok]
  constructor
  · rintro ⟨_, hfits, -⟩
    exact ⟨hfits.bindings, hfits.source, fun b hb => of_decide_eq_true (hfits.names b hb)⟩
  · rintro ⟨hcount, hsource, hnames⟩
    exact ⟨_, ⟨hcount, hsource, fun b hb => decide_eq_true (hnames b hb)⟩, rfl⟩

namespace Pack

/-! ### Records in a row, and the end -/

/-- Records are read one by one off the packed forms of their bindings. -/
theorem readRecords_eq_ok {r r' : Reader} {index count : Nat} {done offered : List Binding} :
    readRecords r index done count = (offered, .ok r') ↔
      ∃ bs : List Binding, offered = done.reverse ++ bs ∧ bs.length = count ∧
        (∀ b ∈ bs, nameFits b = true ∧ b.isKnown = true) ∧ r.Passes (bs.flatMap record) r' := by
  -- the records still to come are `bs`; those before them stand reversed in `done`
  induction count generalizing r index done with
  | zero =>
    rw [readRecords]
    constructor
    · rintro ⟨⟩
      exact ⟨[], (List.append_nil _).symm, rfl, by simp, Reader.passes_nil.mpr rfl⟩
    · intro h
      obtain ⟨bs, rfl, hlen, -, hpass⟩ := h
      obtain rfl : bs = [] := List.length_eq_zero_iff.mp hlen
      rw [Reader.passes_nil.mp hpass, List.append_nil]
  | succ count ih =>
    rw [readRecords]
    constructor
    · intro h
      cases hr : readRecord index r with
      | error fault =>
        rw [hr] at h
        cases h
      | ok out =>
        obtain ⟨b, r₁⟩ := out
        rw [hr] at h
        obtain ⟨x, ⟨hname, hknown, rfl⟩, hpass⟩ := ((reads_readRecord index).eq_ok r b r₁).mp hr
        obtain ⟨bs, rfl, hlen, hbs, hpass'⟩ := ih.mp h
        refine ⟨b :: bs, by simp, by rw [List.length_cons, hlen], ?_,
          Reader.passes_append.mpr ⟨r₁, hpass, hpass'⟩⟩
        exact List.forall_mem_cons.mpr ⟨⟨hname, hknown⟩, hbs⟩
    · intro h
      obtain ⟨bs, rfl, hlen, hbs, hpass⟩ := h
      cases bs with
      | nil => cases hlen
      | cons b bs =>
        obtain ⟨⟨hname, hknown⟩, hbs⟩ := List.forall_mem_cons.mp hbs
        obtain ⟨r₁, hpass, hpass'⟩ := Reader.passes_append.mp hpass
        have hr : readRecord index r = .ok (b, r₁) :=
          ((reads_readRecord index).eq_ok r b r₁).mpr ⟨_, ⟨hname, hknown, rfl⟩, hpass⟩
        rw [hr]
        exact ih.mpr ⟨bs, by simp, Nat.succ.inj hlen, hbs, hpass'⟩

/-- Records that end too early end inside the bytes. -/
theorem readRecords_within {r : Reader} {index count : Nat} {done offered : List Binding}
    {field : Field} {offset : Nat}
    (h : readRecords r index done count = (offered, .error (.truncated field offset))) :
    r.Within offset := by
  induction count generalizing r index done with
  | zero =>
    rw [readRecords] at h
    cases h
  | succ count ih =>
    rw [readRecords] at h
    cases hr : readRecord index r with
    | error fault =>
      rw [hr] at h
      obtain rfl : fault = .truncated field offset := Except.error.inj (Prod.mk.inj h).2
      exact (reads_readRecord index).within r field offset hr
    | ok out =>
      obtain ⟨b, r₁⟩ := out
      rw [hr] at h
      obtain ⟨x, -, hpass⟩ := ((reads_readRecord index).eq_ok r b r₁).mp hr
      exact hpass.within (ih h)

theorem readEnd_eq_ok {r r' : Reader} : readEnd r = .ok ((), r') ↔ r.rest = [] ∧ r = r' := by
  unfold readEnd
  by_cases hr : r.rest = [] <;> simp [hr]

/-- The closing zero is read where it is the last byte. -/
theorem readClosing_eq_ok {r r' : Reader} :
    readClosing r = .ok ((), r') ↔ r.Passes [0] r' ∧ r'.rest = [] := by
  rw [readClosing, bind_eq_ok]
  constructor
  · intro h
    obtain ⟨n, r₁, hn, h⟩ := h
    obtain ⟨x, ⟨-, rfl⟩, hpass⟩ := ((reads_number .terminator 1).eq_ok r n r₁).mp hn
    by_cases hzero : n = 0
    · subst hzero
      rw [if_pos rfl] at h
      obtain ⟨hend, rfl⟩ := readEnd_eq_ok.mp h
      exact ⟨hpass, hend⟩
    · rw [if_neg hzero] at h
      cases h
  · intro h
    obtain ⟨hpass, hend⟩ := h
    have hzero : number .terminator 1 r = .ok (0, r') :=
      ((reads_number .terminator 1).eq_ok r 0 r').mpr ⟨[0], ⟨by decide, rfl⟩, hpass⟩
    exact ⟨0, r', hzero, readEnd_eq_ok.mpr ⟨hend, rfl⟩⟩

theorem readClosing_within {r : Reader} {field : Field} {offset : Nat}
    (h : readClosing r = .error (.truncated field offset)) : r.Within offset := by
  rw [readClosing, bind_eq_error] at h
  rcases h with hn | ⟨n, r₁, -, h⟩
  · exact (reads_number .terminator 1).within r field offset hn
  · by_cases hzero : n = 0
    · rw [if_pos hzero, readEnd] at h
      split at h <;> cases h
    · rw [if_neg hzero] at h
      cases h

/-- The source is read where its packed form is what remains. -/
theorem readSource_eq_ok {r r' : Reader} {source : String} :
    readSource r = .ok (source, r') ↔ (utf8 source).length ≤ maxSource ∧
      r.Passes (littleEndian 4 (utf8 source).length ++ utf8 source ++ [0]) r' ∧ r'.rest = [] := by
  have htext := reads_readText .sourceLength .source 4 (.sourceNotText) (by simp)
  rw [readSource, bind_eq_ok]
  constructor
  · intro h
    obtain ⟨text, r₁, ht, h⟩ := h
    obtain ⟨_, ⟨hlen, rfl⟩, hpass⟩ := (htext.eq_ok r text r₁).mp ht
    obtain ⟨_, r₂, hc, h⟩ := bind_eq_ok.mp h
    obtain ⟨hpass', hend⟩ := readClosing_eq_ok.mp hc
    obtain ⟨rfl, rfl⟩ : text = source ∧ r₂ = r' := by
      simpa using Except.ok.inj (h : Except.ok (text, r₂) = .ok (source, r'))
    exact ⟨Nat.le_of_lt_succ hlen, Reader.passes_append.mpr ⟨r₁, hpass, hpass'⟩, hend⟩
  · intro h
    obtain ⟨hlen, hpass, hend⟩ := h
    obtain ⟨r₁, hpass, hpass'⟩ := Reader.passes_append.mp hpass
    have ht := (htext.eq_ok r source r₁).mpr ⟨_, ⟨Nat.lt_succ_of_le hlen, rfl⟩, hpass⟩
    exact ⟨source, r₁, ht, bind_eq_ok.mpr ⟨(), r', readClosing_eq_ok.mpr ⟨hpass', hend⟩, rfl⟩⟩

theorem readSource_within {r : Reader} {field : Field} {offset : Nat}
    (h : readSource r = .error (.truncated field offset)) : r.Within offset := by
  have htext := reads_readText .sourceLength .source 4 (.sourceNotText) (by simp)
  rw [readSource, bind_eq_error] at h
  rcases h with ht | ⟨text, r₁, ht, h⟩
  · exact htext.within r field offset ht
  · obtain ⟨x, -, hpass⟩ := (htext.eq_ok r text r₁).mp ht
    rcases bind_eq_error.mp h with hc | ⟨_, r₂, -, h⟩
    · exact hpass.within (readClosing_within hc)
    · cases h

/-! ### Whole shaders -/

theorem layout_eq (bindings : List Binding) (source : Bytes) :
    layout bindings source = littleEndian 2 bindings.length ++
      (bindings.flatMap record ++ (littleEndian 4 source.length ++ source ++ [0])) := by
  simp only [layout, List.append_assoc]

/-- A reader that comes to the end of some bytes has these bytes before it. -/
theorem Reader.Passes.rest_eq {r r' : Reader} {bytes : Bytes} (h : r.Passes bytes r')
    (hend : r'.rest = []) : r.rest = bytes := by
  rw [h.1, hend, List.append_nil]

/-- **Packing loses nothing**: what a shader that fits is laid out to is read as this
    shader, and each of its bindings is offered to the table. -/
theorem decode_layout {p : PackedShader} (h : p.Fits) :
    decode (layout p.bindings.toList (utf8 p.source)) = ⟨p.bindings.toList, .ok p⟩ := by
  obtain ⟨hcount, hsource, hnames⟩ := h
  -- the whole layout is passed over, so each of its parts is, one after another
  have hpass : Reader.Passes ⟨0, layout p.bindings.toList (utf8 p.source)⟩
      (layout p.bindings.toList (utf8 p.source))
      ⟨(layout p.bindings.toList (utf8 p.source)).length, []⟩ :=
    ⟨(List.append_nil _).symm, (Nat.zero_add _).symm⟩
  rw [layout_eq, Reader.passes_append] at hpass
  obtain ⟨r₁, hpass₁, hpass⟩ := hpass
  obtain ⟨r₂, hpass₂, hpass₃⟩ := Reader.passes_append.mp hpass
  have hc : number .count 2 ⟨0, layout p.bindings.toList (utf8 p.source)⟩ =
      .ok (p.bindings.toList.length, r₁) :=
    ((reads_number .count 2).eq_ok _ _ _).mpr
      ⟨_, ⟨Nat.lt_succ_of_le hcount, rfl⟩, by rwa [layout_eq]⟩
  have hr : readRecords r₁ 0 [] p.bindings.toList.length = (p.bindings.toList, .ok r₂) :=
    readRecords_eq_ok.mpr
      ⟨_, rfl, rfl, fun b hb => ⟨hnames b hb, p.bindings.known b hb⟩, hpass₂⟩
  have hs := readSource_eq_ok.mpr ⟨hsource, hpass₃, rfl⟩
  rw [decode, hc]
  simp only [hr, hs, BindingTable.ofList_toList]

/-- **Only packed shaders are read**: bytes that are read as a shader are its layout. -/
theorem eq_layout_of_decode {bytes : Bytes} {p : PackedShader}
    (h : (decode bytes).result = .ok p) :
    p.Fits ∧ bytes = layout p.bindings.toList (utf8 p.source) := by
  unfold decode at h
  cases hc : number .count 2 ⟨0, bytes⟩ with
  | error fault => rw [hc] at h; cases h
  | ok out =>
    obtain ⟨count, r₁⟩ := out
    obtain ⟨_, ⟨hcount, rfl⟩, hpass₁⟩ := ((reads_number .count 2).eq_ok _ _ _).mp hc
    rw [hc] at h
    cases hr : readRecords r₁ 0 [] count with
    | mk offered out =>
      simp only [hr] at h
      cases out with
      | error fault => cases h
      | ok r₂ =>
        obtain ⟨_, rfl, rfl, hoffered, hpass₂⟩ := readRecords_eq_ok.mp hr
        cases hs : readSource r₂ with
        | error fault => simp [hs] at h
        | ok out =>
          -- count, records and source are read; what they passed over are all bytes
          obtain ⟨source, r₃⟩ := out
          obtain ⟨hsource, hpass₃, hend⟩ := readSource_eq_ok.mp hs
          simp only [hs] at h
          obtain rfl : ⟨.ofList offered, source⟩ = p := Except.ok.inj h
          have hknown : (BindingTable.ofList offered).toList = offered :=
            List.filter_eq_self.mpr fun b hb => (hoffered b hb).2
          have hbytes := Reader.passes_append.mpr
            ⟨r₁, hpass₁, Reader.passes_append.mpr ⟨r₂, hpass₂, hpass₃⟩⟩
          rw [hknown, layout_eq]
          refine ⟨⟨?_, hsource, ?_⟩, hbytes.rest_eq hend⟩
          · show (BindingTable.ofList offered).toList.length ≤ maxBindings
            rw [hknown]
            exact Nat.le_of_lt_succ hcount
          · show ∀ b ∈ (BindingTable.ofList offered).toList, nameFits b = true
            rw [hknown]
            exact fun b hb => (hoffered b hb).1

/-- Bytes are read as a shader exactly when the shader is packed to them. -/
theorem decode_eq_ok_iff {bytes : Bytes} {p : PackedShader} :
    (decode bytes).result = .ok p ↔ p.encode = .ok bytes := by
  rw [PackedShader.encode_eq_ok]
  constructor
  · exact eq_layout_of_decode
  · intro h
    obtain ⟨hfits, rfl⟩ := h
    rw [decode_layout hfits]

/-- Bytes that end too early end inside the bytes. -/
theorem decode_within {bytes : Bytes} {field : Field} {offset : Nat}
    (h : (decode bytes).result = .error (.truncated field offset)) : offset ≤ bytes.length := by
  have hwithin : (Reader.mk 0 bytes).Within offset := by
    unfold decode at h
    cases hc : number .count 2 ⟨0, bytes⟩ with
    | error fault =>
      rw [hc] at h
      obtain rfl : fault = .truncated field offset := Except.error.inj h
      exact (reads_number .count 2).within _ field offset hc
    | ok out =>
      obtain ⟨count, r₁⟩ := out
      obtain ⟨_, -, hpass₁⟩ := ((reads_number .count 2).eq_ok _ _ _).mp hc
      apply hpass₁.within
      rw [hc] at h
      cases hr : readRecords r₁ 0 [] count with
      | mk offered out =>
        simp only [hr] at h
        cases out with
        | error fault =>
          obtain rfl : fault = .truncated field offset := Except.error.inj h
          exact readRecords_within hr
        | ok r₂ =>
          obtain ⟨bs, -, -, -, hpass₂⟩ := readRecords_eq_ok.mp hr
          apply hpass₂.within
          cases hs : readSource r₂ with
          | error fault =>
            simp only [hs] at h
            obtain rfl : fault = .truncated field offset := Except.error.inj h
            exact readSource_within hs
          | ok out => simp [hs] at h
  simpa using hwithin.2

end Pack

end ShaderPack
