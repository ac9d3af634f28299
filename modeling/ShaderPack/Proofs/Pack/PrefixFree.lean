import ShaderPack.Proofs.Pack.Canonical

namespace ShaderPack.Pack

open Bytes (littleEndian utf8)

/-!
# Packed shaders — cut off, or with bytes behind them

A reading `Misses` bytes if it finds them truncated wherever they are cut off.  The leaves do,
and one reading after another does (`Reads.misses_bind`): the cut falls into what the first one
reads, or the first one succeeds and the cut falls into what the second one reads.  So each cut
of a packed shader reaches a field that is too short, although how far the name and the source
go is known only from the bytes before them.

* `decode_cut` — a packed shader that is cut off is found truncated;
* `decode_more` — bytes behind a packed shader are found and counted;
* `decode_prefix_free` — both at once, and that no packed shader begins another one.
-/

variable {α β : Type}

/-! ### Cuts -/

/-- The first bytes of a string, but not all of them. -/
def IsCut (cut bytes : Bytes) : Prop := cut <+: bytes ∧ cut ≠ bytes

theorem not_isCut_nil (cut : Bytes) : ¬IsCut cut [] :=
  fun h => h.2 (List.prefix_nil.mp h.1)

/-- A cut falls into the first part, or behind it into the second one. -/
theorem IsCut.append {cut x y : Bytes} (h : IsCut cut (x ++ y)) :
    IsCut cut x ∨ ∃ rest, cut = x ++ rest ∧ IsCut rest y := by
  obtain ⟨⟨missing, hmissing⟩, hne⟩ := h
  rcases List.append_eq_append_iff.mp hmissing with ⟨more, rfl, -⟩ | ⟨rest, rfl, rfl⟩
  · by_cases hmore : more = []
    · subst hmore
      rw [List.append_nil] at hne ⊢
      exact .inr ⟨[], (List.append_nil cut).symm, List.nil_prefix,
        fun hy => hne (by rw [← hy, List.append_nil])⟩
    · exact .inl ⟨List.prefix_append cut more, by simpa using Ne.symm hmore⟩
  · refine .inr ⟨rest, rfl, List.prefix_append rest missing, fun heq => hne ?_⟩
    rw [← heq]

/-! ### Fields that are cut off -/

/-- The reading finds the bytes truncated wherever they are cut off. -/
def Misses (m : Reading α) (bytes : Bytes) : Prop :=
  ∀ r : Reader, IsCut r.rest bytes → ∃ field offset, m r = .error (.truncated field offset)

/-- Without bytes there is nothing to cut. -/
theorem misses_nil (m : Reading α) : Misses m [] :=
  fun r hcut => absurd hcut (not_isCut_nil r.rest)

/-- **One reading after another** finds all cuts that each of them finds. -/
theorem Reads.misses_bind {m : Reading α} {f : α → Reading β} {form : α → Bytes → Prop} {a : α}
    {x y : Bytes} (hm : Reads m form) (ha : form a x) (hx : Misses m x) (hy : Misses (f a) y) :
    Misses (m >>= f) (x ++ y) := by
  intro r hcut
  rcases hcut.append with hcut | ⟨rest, hrest, hcut⟩
  · obtain ⟨field, offset, hr⟩ := hx r hcut
    exact ⟨field, offset, bind_eq_error.mpr (.inl hr)⟩
  · -- the first reading has all of its bytes, and hands on what is left
    have hr : m r = .ok (a, ⟨r.offset + x.length, rest⟩) :=
      (hm.eq_ok r a _).mpr ⟨x, ha, hrest, rfl⟩
    obtain ⟨field, offset, hr'⟩ := hy ⟨r.offset + x.length, rest⟩ hcut
    exact ⟨field, offset, bind_eq_error.mpr (.inr ⟨a, _, hr, hr'⟩)⟩

/-- A reading behind which no more bytes are read. -/
theorem Reads.misses_last {m : Reading α} {f : α → Reading β} {form : α → Bytes → Prop} {a : α}
    {x : Bytes} (hm : Reads m form) (ha : form a x) (hx : Misses m x) : Misses (m >>= f) x := by
  have h := hm.misses_bind ha hx (misses_nil (f a))
  rwa [List.append_nil] at h

theorem misses_take (field : Field) (bytes : Bytes) : Misses (take field bytes.length) bytes := by
  intro r hcut
  obtain ⟨hbegins, hne⟩ := hcut
  have hshort : (r.rest.take bytes.length).length ≠ bytes.length := by
    have hlt : r.rest.length ≠ bytes.length := mt hbegins.eq_of_length hne
    have hle := hbegins.length_le
    rw [List.length_take]
    omega
  exact ⟨field, r.offset, by rw [take, if_neg hshort]⟩

theorem misses_number (field : Field) (width n : Nat) :
    Misses (number field width) (littleEndian width n) := by
  have htake := misses_take field (littleEndian width n)
  rw [Bytes.length_littleEndian] at htake
  exact (reads_take field width).misses_last ⟨rfl, Bytes.length_littleEndian width n⟩ htake

theorem misses_byte (field : Field) (v : UInt8) : Misses (byte field) [v] := by
  have hv : littleEndian 1 v.toNat = [v] := by simp [littleEndian]
  rw [← hv]
  exact (reads_number field 1).misses_last ⟨v.toNat_lt, rfl⟩ (misses_number field 1 _)

theorem misses_word (field : Field) (v : UInt16) :
    Misses (word field) (littleEndian 2 v.toNat) :=
  (reads_number field 2).misses_last ⟨v.toNat_lt, rfl⟩ (misses_number field 2 _)

/-- A text that is cut off, within its length or behind it. -/
theorem misses_readText {lengthField textField : Field} {width : Nat} {fault : ReadFault}
    {text : String} (h : (utf8 text).length < 256 ^ width) :
    Misses (readText lengthField textField width fault)
      (littleEndian width (utf8 text).length ++ utf8 text) :=
  (reads_number lengthField width).misses_bind ⟨h, rfl⟩ (misses_number _ _ _) <|
    (reads_take textField _).misses_last ⟨rfl, rfl⟩ (misses_take textField _)

theorem misses_readTexture (t : TextureInfo) :
    Misses readTexture [t.component, t.dimension, t.format] :=
  (reads_byte .textureComponent).misses_bind rfl (misses_byte _ t.component) <|
    (reads_byte .textureDimension).misses_bind rfl (misses_byte _ t.dimension) <|
    (reads_byte .textureFormat).misses_last rfl (misses_byte _ t.format)

/-! ### Records and the source -/

/-- **A record that is cut off anywhere** is found truncated. -/
theorem misses_readRecord {b : Binding} (index : Nat) (hname : nameFits b = true)
    (hknown : b.isKnown = true) : Misses (readRecord index) (record b) := by
  have hname : (utf8 b.name).length ≤ maxName := by simpa [nameFits] using hname
  have hkind : b.kind ≠ .unknown := by simpa [Binding.isKnown] using hknown
  have hrecord : record b =
      (littleEndian 1 (utf8 b.name).length ++ utf8 b.name) ++ ([b.kind.wire] ++ ([b.size] ++
        (littleEndian 2 b.register.toNat ++ (littleEndian 2 b.registers.toNat ++
          [b.texture.component, b.texture.dimension, b.texture.format])))) := by
    simp [record]
  have hreadName : Misses (readName index) (littleEndian 1 (utf8 b.name).length ++ utf8 b.name) :=
    misses_readText (Nat.lt_succ_of_le hname)
  have hreadKind : Misses (readKind b.name) [b.kind.wire] :=
    (reads_byte .kind).misses_last rfl (misses_byte .kind b.kind.wire)
  rw [hrecord]
  exact (reads_readName index).misses_bind ⟨hname, rfl⟩ hreadName <|
    (reads_readKind b.name).misses_bind ⟨hkind, rfl⟩ hreadKind <|
    (reads_byte .size).misses_bind rfl (misses_byte _ b.size) <|
    (reads_word .register).misses_bind rfl (misses_word _ b.register) <|
    (reads_word .registers).misses_bind rfl (misses_word _ b.registers) <|
    reads_readTexture.misses_last rfl (misses_readTexture b.texture)

/-- Records in a row that are cut off anywhere are found truncated. -/
theorem readRecords_cut {bs : List Binding} {r : Reader} (index : Nat) (done : List Binding)
    (hbs : ∀ b ∈ bs, nameFits b = true ∧ b.isKnown = true)
    (hcut : IsCut r.rest (bs.flatMap record)) :
    ∃ offered field offset,
      readRecords r index done bs.length = (offered, .error (.truncated field offset)) := by
  -- the record that is cut off is the first one, or one of those behind it
  induction bs generalizing r index done with
  | nil => exact absurd hcut (not_isCut_nil r.rest)
  | cons b bs ih =>
    obtain ⟨⟨hname, hknown⟩, hbs⟩ := List.forall_mem_cons.mp hbs
    rw [List.flatMap_cons] at hcut
    rw [List.length_cons, readRecords]
    rcases hcut.append with hcut | ⟨rest, hrest, hcut⟩
    · obtain ⟨field, offset, hr⟩ := misses_readRecord index hname hknown r hcut
      exact ⟨done.reverse, field, offset, by rw [hr]⟩
    · have hr : readRecord index r = .ok (b, ⟨r.offset + (record b).length, rest⟩) :=
        ((reads_readRecord index).eq_ok r b _).mpr ⟨_, ⟨hname, hknown, rfl⟩, hrest, rfl⟩
      rw [hr]
      exact ih (index + 1) (b :: done) hbs hcut

/-- A source that is cut off, in its length, its text or before the closing zero. -/
theorem misses_readSource {source : String} (h : (utf8 source).length ≤ maxSource) :
    Misses readSource (littleEndian 4 (utf8 source).length ++ utf8 source ++ [0]) := by
  have hlength : (utf8 source).length < 256 ^ 4 := Nat.lt_succ_of_le h
  have hclosing : Misses readClosing [0] :=
    (reads_number .terminator 1).misses_last ⟨by decide, rfl⟩ (misses_number .terminator 1 0)
  refine (reads_readText .sourceLength .source 4 .sourceNotText (by simp)).misses_bind
    ⟨hlength, rfl⟩ (misses_readText hlength) ?_
  intro r hcut
  obtain ⟨field, offset, hr⟩ := hclosing r hcut
  exact ⟨field, offset, bind_eq_error.mpr (.inl hr)⟩

/-! ### Whole shaders -/

/-- **A packed shader that is cut off anywhere** is found truncated. -/
theorem decode_cut {p : PackedShader} {cut : Bytes} (hfits : p.Fits)
    (hcut : IsCut cut (layout p.bindings.toList (utf8 p.source))) :
    ∃ field offset, (decode cut).result = .error (.truncated field offset) := by
  obtain ⟨hcount, hsource, hnames⟩ := hfits
  have hcount : p.bindings.toList.length < 256 ^ 2 := Nat.lt_succ_of_le hcount
  have hbindings : ∀ b ∈ p.bindings.toList, nameFits b = true ∧ b.isKnown = true :=
    fun b hb => ⟨hnames b hb, p.bindings.known b hb⟩
  rw [layout_eq] at hcut
  unfold decode
  rcases hcut.append with hcut | ⟨rest, rfl, hrest⟩
  · -- the number of bindings is cut off
    obtain ⟨field, offset, hc⟩ := misses_number .count 2 _ ⟨0, cut⟩ hcut
    exact ⟨field, offset, by rw [hc]⟩
  · obtain ⟨r₁, hc, rfl⟩ : ∃ r₁ : Reader,
        number .count 2 ⟨0, _ ++ rest⟩ = .ok (p.bindings.toList.length, r₁) ∧ r₁.rest = rest :=
      ⟨_, ((reads_number .count 2).eq_ok _ _ ⟨_, rest⟩).mpr ⟨_, ⟨hcount, rfl⟩, rfl, rfl⟩, rfl⟩
    rw [hc]
    rcases hrest.append with hrest | ⟨source, hsplit, hcut⟩
    · -- a record is cut off
      obtain ⟨offered, field, offset, hr⟩ := readRecords_cut 0 [] hbindings hrest
      exact ⟨field, offset, by simp only [hr]⟩
    · -- the source is cut off
      obtain ⟨r₂, hr, rfl⟩ : ∃ r₂ : Reader, readRecords r₁ 0 [] p.bindings.toList.length =
          (p.bindings.toList, .ok r₂) ∧ r₂.rest = source :=
        ⟨⟨_, source⟩, readRecords_eq_ok.mpr ⟨_, rfl, rfl, hbindings, hsplit, rfl⟩, rfl⟩
      obtain ⟨field, offset, hs⟩ := misses_readSource hsource r₂ hcut
      exact ⟨field, offset, by simp only [hr, hs]⟩

/-- The source is read, and then bytes behind the closing zero are found and counted. -/
theorem readSource_more {source : String} {r r' : Reader} (h : (utf8 source).length ≤ maxSource)
    (hpass : r.Passes (littleEndian 4 (utf8 source).length ++ utf8 source ++ [0]) r')
    (hmore : r'.rest ≠ []) : readSource r = .error (.trailing r'.rest.length) := by
  obtain ⟨r₁, hpass, hpass'⟩ := Reader.passes_append.mp hpass
  have htext : readText .sourceLength .source 4 .sourceNotText r = .ok (source, r₁) :=
    ((reads_readText _ _ 4 _ (by simp)).eq_ok r source r₁).mpr
      ⟨_, ⟨Nat.lt_succ_of_le h, rfl⟩, hpass⟩
  have hzero : number .terminator 1 r₁ = .ok (0, r') :=
    ((reads_number .terminator 1).eq_ok r₁ 0 r').mpr ⟨[0], ⟨by decide, rfl⟩, hpass'⟩
  -- the zero is no wrong terminator, but it is not the last byte
  have hend : readEnd r' = .error (.trailing r'.rest.length) := by rw [readEnd, if_neg hmore]
  have hclosing : readClosing r₁ = .error (.trailing r'.rest.length) :=
    bind_eq_error.mpr (.inr ⟨0, r', hzero, by rw [if_pos rfl, hend]⟩)
  exact bind_eq_error.mpr (.inr ⟨source, r₁, htext, bind_eq_error.mpr (.inl hclosing)⟩)

/-- **Bytes behind a packed shader** are found and counted. -/
theorem decode_more {p : PackedShader} {more : Bytes} (hfits : p.Fits) (hmore : more ≠ []) :
    (decode (layout p.bindings.toList (utf8 p.source) ++ more)).result =
      .error (.trailing more.length) := by
  obtain ⟨hcount, hsource, hnames⟩ := hfits
  obtain ⟨last, rfl, hpass⟩ : ∃ last : Reader, last.rest = more ∧
      Reader.Passes ⟨0, layout p.bindings.toList (utf8 p.source) ++ more⟩
        (layout p.bindings.toList (utf8 p.source)) last := ⟨⟨_, more⟩, rfl, rfl, rfl⟩
  rw [layout_eq] at hpass ⊢
  obtain ⟨r₁, hpass₁, hpass⟩ := Reader.passes_append.mp hpass
  obtain ⟨r₂, hpass₂, hpass₃⟩ := Reader.passes_append.mp hpass
  have hc := ((reads_number .count 2).eq_ok _ p.bindings.toList.length r₁).mpr
    ⟨_, ⟨Nat.lt_succ_of_le hcount, rfl⟩, hpass₁⟩
  have hr : readRecords r₁ 0 [] p.bindings.toList.length = (p.bindings.toList, .ok r₂) :=
    readRecords_eq_ok.mpr
      ⟨_, rfl, rfl, fun b hb => ⟨hnames b hb, p.bindings.known b hb⟩, hpass₂⟩
  have hs := readSource_more hsource hpass₃ hmore
  rw [decode, hc]
  simp only [hr, hs]

/-- **The packed form is prefix-free.** Cut off anywhere, a packed shader is refused as invalid,
    truncated at an offset within what is left; with bytes behind it, it is refused as invalid for
    their number.  So no packed shader is the beginning of another one. -/
theorem decode_prefix_free {p : PackedShader} {bytes : Bytes} (h : p.encode = .ok bytes) :
    (∀ cut, cut <+: bytes → cut ≠ bytes → ∃ field offset, offset ≤ cut.length ∧
      (decode cut).result.mapError ReadFault.failure =
        .error (.invalid (ReadFault.truncated field offset).message)) ∧
    (∀ more, more ≠ [] → (decode (bytes ++ more)).result.mapError ReadFault.failure =
      .error (.invalid (ReadFault.trailing more.length).message)) ∧
    ∀ (q : PackedShader) (other : Bytes), q.encode = .ok other → bytes <+: other →
      other = bytes := by
  obtain ⟨hfits, rfl⟩ := PackedShader.encode_eq_ok.mp h
  refine ⟨fun cut hcut hne => ?_, fun more hmore => ?_, fun q other hq hbegins => ?_⟩
  · obtain ⟨field, offset, hdecode⟩ := decode_cut hfits ⟨hcut, hne⟩
    exact ⟨field, offset, decode_within hdecode, by rw [hdecode]; rfl⟩
  · rw [decode_more hfits hmore]
    rfl
  · -- what is behind the first shader would be bytes too many
    obtain ⟨more, rfl⟩ := hbegins
    by_cases hmore : more = []
    · rw [hmore, List.append_nil]
    · have hread := decode_eq_ok_iff.mpr hq
      rw [decode_more hfits hmore] at hread
      cases hread

/-- The sample is cut off within its second letter, and it has a byte behind it. -/
theorem decode_samplePacked_cut :
    PackedShader.encode ⟨sampleGrowth.table, "a\x00é"⟩ = .ok samplePacked ∧
      (∃ field offset, offset ≤ (samplePacked.take 3).length ∧
        (decode (samplePacked.take 3)).result.mapError ReadFault.failure =
          .error (.invalid (ReadFault.truncated field offset).message)) ∧
      (decode (samplePacked ++ [0])).result.mapError ReadFault.failure =
        .error (.invalid (ReadFault.trailing 1).message) :=
  have h : PackedShader.encode ⟨sampleGrowth.table, "a\x00é"⟩ = .ok samplePacked := by rfl
  ⟨h, (decode_prefix_free h).1 _ (List.take_prefix 3 samplePacked) (by decide),
    (decode_prefix_free h).2.1 [0] (by decide)⟩

end ShaderPack.Pack
