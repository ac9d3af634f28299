import ShaderPack.Proofs.Recovery.Bytewise
import ShaderPack.Proofs.Text.Words

namespace ShaderPack.Recovery

open Text (Cursor Slice Slicing Stands width)
open Text.Slicing (take)

/-!
# Searches are safe

A search that keeps nothing but a byte offset asks for no slice that cuts a character, and ends.
Both follow from one invariant: at the beginning of every turn the offset stands where the cursor
of the pass does, between two characters.

* `statement_yields`, `field_yields`, `parameter_yields` — a turn of each search keeps it.  What a
  turn reads in between stays in front of the `;` it has found (`Cursor.Ahead`), because no word
  and no blank goes past one; so the offset it comes to lies behind that `;` and leaves less
  text (`passes_of_ahead`);
* `Loop.safe`, `exists_loop` — by induction on the turns, and on the text that is left, so does a
  loop of them;
* `scans_safely` — the three searches, for every source.
-/

variable {text after : List Char} {pos origin stop eol next : Nat} {mark : Char} {c c' : Cursor}
  {s : Step}

/-! ### Characters that are passed -/

/-- A character that stands ahead is passed by what leaves no more than the text behind it. -/
theorem passes_of_ahead (h : Stands text pos c) (ha : c.Ahead mark after stop)
    (hle : origin ≤ stop) (hnext : Stands text next c') (hc' : c'.OnBoundary)
    (hlen : c'.rest.length ≤ after.length) : Passes text mark origin stop next := by
  have hwidth := hnext.width_eq
  have hinside := hnext.inside
  obtain ⟨⟨front, htext, hstart⟩, hpos, -⟩ := h
  obtain ⟨⟨front', htext', -⟩, hpos', -⟩ := hnext
  obtain ⟨hc, before, hrest, hstop⟩ := ha
  have hsplit : text = front ++ before ++ mark :: after := by
    rw [htext, hrest, List.append_assoc]
  -- what is left is an end of the text, so it is an end of what follows the character
  have hsuffix : c'.rest <:+ after :=
    List.suffix_of_suffix_length_le ⟨front', htext'.symm⟩
      ⟨front ++ before ++ [mark], by simp [hsplit]⟩ hlen
  have hleft : width c'.rest ≤ width after := by
    obtain ⟨passed, hpassed⟩ := hsuffix
    rw [← hpassed, Text.width_append]
    omega
  have htotal : width text = width front + width before + mark.utf8Size + width after := by
    rw [hsplit, Text.width_append, Text.width_append, Text.width_cons]
    omega
  have hsize := mark.utf8Size_pos
  rw [hc.pos_eq] at hpos
  rw [hc'.pos_eq] at hpos' hinside
  refine ⟨⟨front ++ before, after, hsplit, ?_⟩, ?_, ?_, ?_⟩
  · rw [Text.width_append]
    omega
  · omega
  · omega
  · omega

theorem le_of_ahead (h : Stands text pos c) (ha : c.Ahead mark after stop) : pos ≤ stop := by
  obtain ⟨hc, before, -, hstop⟩ := ha
  rw [h.pos_eq, hc.pos_eq]
  omega

/-- A seek behind a character of one byte that stands ahead. -/
theorem follows_seek (h : Stands text pos c) (ha : c.Ahead mark after stop)
    (hsize : mark.utf8Size = 1) (hle : origin ≤ stop) (found : Option Binding) :
    Follows text mark origin (.move found stop (Text.Bytewise.seek text pos (stop + 1)))
      (.move found (c.seek (stop + 1))) := by
  have hseek := ha.seek_through
  have hnext := h.seek (stop + mark.utf8Size)
  rw [hseek] at hnext
  have hpasses := passes_of_ahead h ha hle hnext (Cursor.onBoundary_mk _ _) (Nat.le_refl _)
  rw [hsize] at hseek hnext hpasses
  rw [hseek]
  exact .move found hpasses hnext

/-- Blanks that are moved over stand between two offsets. -/
theorem le_of_skipSpace (h : Stands text pos c) (hskip : c.skipSpace? = some c')
    (hnext : Stands text next c') : pos ≤ next := by
  simp only [Cursor.skipSpace?, Cursor.skipWhile?, Option.bind_eq_bind,
    Option.bind_eq_some_iff] at hskip
  obtain ⟨rest, hrest, heq⟩ := hskip
  obtain ⟨hc, -⟩ := Text.rest?_eq_some hrest
  rw [h.pos_eq, hnext.pos_eq, hc.pos_eq, ← Option.some.inj heq]
  exact Nat.le_add_right _ _

/-- A turn up to the next `;` follows a step up to there, if what comes then does. -/
theorem toSemicolon_yields {missing : Nat → Slicing Turn} {found : Nat → Nat → Slicing Turn}
    {missing? : Cursor → Option Step} {found? : Cursor → Nat → Option Step}
    (hmissing : ∀ pos' c' s, Stands text pos' c' → c'.OnBoundary → missing? c' = some s →
      (missing pos').Yields (Follows text ';' pos · s))
    (hfound : ∀ pos' c' after eol s, Stands text pos' c' → c'.Ahead ';' after eol → pos ≤ eol →
      found? c' eol = some s → (found pos' eol).Yields (Follows text ';' pos · s))
    (h : Stands text pos c) (hc : c.OnBoundary)
    (hs : (do
      let c ← c.skipSpace?
      if c.isEmpty then return .finish .complete
      else match ← c.find? ";" with
        | none => missing? c
        | some eol => found? c eol) = some s) :
    (Bytewise.toSemicolon text pos missing found).Yields (Follows text ';' pos · s) := by
  obtain ⟨c₁, h₁, hc₁, -⟩ := Cursor.skipSpace?_eq hc
  simp only [h₁, Option.bind_eq_bind, Option.bind_some] at hs
  refine (h.skipSpace h₁).bind fun pos₁ hstands => ?_
  rw [hstands.isEmpty_eq hc₁]
  split at hs
  · next hempty =>
    rw [if_pos hempty, ← Option.some.inj hs]
    exact Slicing.yields_pure (.finish _)
  · next hempty =>
    rw [if_neg hempty]
    obtain ⟨semicolon, hfind⟩ := Cursor.find?_isSome hc₁ ";"
    rw [hfind, Option.bind_some] at hs
    refine (hstands.find hfind).bind fun semicolon' hsemicolon => ?_
    subst hsemicolon
    cases semicolon' with
    | none => exact hmissing _ _ _ hstands hc₁ hs
    | some eol =>
      obtain ⟨after, ha⟩ := Cursor.Ahead.of_find? hc₁ (x := ';') rfl hfind
      have hle : pos ≤ eol := Nat.le_trans (le_of_skipSpace h h₁ hstands) (le_of_ahead hstands ha)
      exact hfound _ _ _ _ _ hstands ha hle hs

/-! ### Array sizes -/

theorem arraySize_eq (text : List Char) (name : String) :
    arraySize text name = match Text.cutAt? ']' text with
      | none => .error (.openArraySize name)
      | some (inside, _) => Bytewise.enclosedSize inside name := rfl

theorem arraySize_yields (text : List Char) (name : String) :
    (Bytewise.arraySize text name).Yields (· = arraySize text name) := by
  rw [arraySize_eq, Bytewise.arraySize]
  rcases Text.cutAt?_cases ']' text with ⟨hnone, hcut⟩ | ⟨inside, after, rfl, hinside, hcut⟩
  · rw [hcut, Text.offset?_eq_none hnone]
    exact Slicing.yields_pure rfl
  · rw [hcut, Text.offset?_append_cons hinside]
    have hholds : (Slice.mk (inside ++ ']' :: after) 0 (0 + width inside)).Holds inside :=
      Slice.holds_front rfl (Nat.zero_add _)
    refine (Slicing.yields_take hholds).bind fun inside' hinside' => ?_
    exact Slicing.yields_pure (by rw [hinside'])

theorem nameAndSize_yields (declarator : List Char) :
    (Bytewise.nameAndSize declarator).Yields (· = StructFields.nameAndSize declarator) := by
  rw [StructFields.nameAndSize, Bytewise.nameAndSize]
  rcases Text.cutAt?_cases '[' declarator with ⟨hnone, hcut⟩ | ⟨before, after, rfl, hbefore, hcut⟩
  · rw [hcut, Text.offset?_eq_none hnone]
    exact Slicing.yields_pure rfl
  · rw [hcut, Text.offset?_append_cons hbefore]
    have hfront : (Slice.mk (before ++ '[' :: after) 0 (0 + width before)).Holds before :=
      Slice.holds_front rfl (Nat.zero_add _)
    have hback : (Slice.mk (before ++ '[' :: after) (0 + width before + 1)
        (width (before ++ '[' :: after))).Holds after := by
      have hsize : width ['['] = 1 := rfl
      refine Slice.holds_behind (List.append_cons before '[' after) ?_
      rw [Text.width_append, hsize, Nat.zero_add]
    refine (Slicing.yields_take hfront).bind fun name hname => ?_
    refine (Slicing.yields_take hback).bind fun rest hrest => ?_
    refine (Slicing.yields_take hfront).bind fun called hcalled => ?_
    subst hname hrest hcalled
    refine (arraySize_yields rest _).bind fun size hsize => ?_
    exact Slicing.yields_pure (by rw [hsize])

/-! ### Statements of a header -/

theorem typeName_yields (h : Stands text pos c) {word : List Char}
    (htype : Header.typeName? c = some (word, c')) :
    (Bytewise.typeName text pos).Yields fun found =>
      found.1 = word ∧ Stands text found.2 c' := by
  simp only [Header.typeName?, Option.bind_eq_bind, Option.bind_eq_some_iff] at htype
  obtain ⟨⟨first, c₁⟩, h₁, htype⟩ := htype
  refine (h.nextWord h₁).bind fun found hfound => ?_
  obtain ⟨word', pos₁⟩ := found
  obtain ⟨rfl, hstands⟩ := hfound
  simp only at htype ⊢
  split at htype
  · next hprecision =>
    rw [if_pos hprecision]
    exact hstands.nextWord htype
  · next hprecision =>
    rw [if_neg hprecision]
    obtain ⟨rfl, rfl⟩ := Prod.mk.inj (Option.some.inj htype)
    exact Slicing.yields_pure ⟨rfl, hstands⟩

theorem sizeBehind_yields (h : Stands text pos c) {name : String}
    {size : Except Malformed UInt8} (hsize : Header.sizeBehind? c eol name = some size) :
    (Bytewise.sizeBehind text pos eol name).Yields (· = size) := by
  simp only [Header.sizeBehind?, Option.bind_eq_bind, Option.bind_eq_some_iff] at hsize
  obtain ⟨rest, hrest, hsize⟩ := hsize
  obtain ⟨hc, rfl⟩ := Text.rest?_eq_some hrest
  rw [Bytewise.sizeBehind]
  simp only [h.peek_eq_some hc (y := '[') (by decide)]
  split at hsize
  · next hopen =>
    rw [if_pos hopen]
    simp only [Option.bind_eq_some_iff] at hsize
    obtain ⟨text', htext', hsize⟩ := hsize
    refine (h.bump.sliceTo htext').bind fun found hfound => ?_
    rw [hfound, ← Option.some.inj hsize]
    exact arraySize_yields text' name
  · next hopen =>
    rw [if_neg hopen, ← Option.some.inj hsize]
    exact Slicing.yields_pure rfl

theorem declaration_yields (h : Stands text pos c) (ha : c.Ahead ';' after eol)
    (hle : origin ≤ eol) {statement : List Char}
    (hs : Header.declaration? c eol statement = some s) :
    (Bytewise.declaration text pos eol statement).Yields (Follows text ';' origin · s) := by
  obtain ⟨type, c₁, h₁, ha₁⟩ := Header.typeName?_ahead ha
  obtain ⟨name, c₂, h₂, ha₂⟩ := ha₁.nextWord? rfl rfl
  simp only [Header.declaration?, h₁, h₂, Option.bind_eq_bind, Option.bind_some] at hs
  refine (typeName_yields h h₁).bind fun found hfound => ?_
  obtain ⟨type', pos₁⟩ := found
  obtain ⟨rfl, hstands₁⟩ := hfound
  refine (hstands₁.nextWord h₂).bind fun found hfound => ?_
  obtain ⟨name', pos₂⟩ := found
  obtain ⟨rfl, hstands₂⟩ := hfound
  simp only at hs ⊢
  split at hs
  · next hempty =>
    rw [if_pos hempty, ← Option.some.inj hs]
    exact Slicing.yields_pure (.finish _)
  · next hempty =>
    rw [if_neg hempty]
    obtain ⟨size, hsize⟩ := Header.sizeBehind?_ahead ha₂ (.ofList name')
    rw [hsize, Option.bind_some] at hs
    refine (sizeBehind_yields hstands₂ hsize).bind fun size' hsize' => ?_
    subst hsize'
    cases size' with
    | error cause =>
      rw [← Option.some.inj hs]
      exact Slicing.yields_pure (.finish _)
    | ok size =>
      obtain ⟨c₃, h₃, hc₃, hlen⟩ := ha₂.skipLine?
      simp only [h₃, Option.bind_some] at hs
      refine ((hstands₂.seek eol).skipLine h₃).bind fun next hnext => ?_
      rw [← Option.some.inj hs]
      exact Slicing.yields_pure (.move _ (passes_of_ahead h ha hle hnext hc₃ hlen) hnext)

theorem statementBefore_yields (h : Stands text pos c) (ha : c.Ahead ';' after eol)
    (hle : origin ≤ eol) (hs : Header.statementBefore? c eol = some s) :
    (Bytewise.statementBefore text pos eol).Yields (Follows text ';' origin · s) := by
  obtain ⟨statement, hslice⟩ := ha.sliceTo?
  obtain ⟨qualifier, c₁, h₁, ha₁⟩ := ha.nextWord? rfl rfl
  have hrest := Cursor.rest?_eq ha₁.1
  simp only [Header.statementBefore?, hslice, h₁, hrest, Option.bind_eq_bind,
    Option.bind_some] at hs
  have hstatement : (take text pos eol).Yields (· = statement) := by
    have hread := h.sliceTo hslice
    rwa [Text.Bytewise.sliceTo, Nat.max_eq_left (le_of_ahead h ha)] at hread
  refine hstatement.bind fun statement' hstatement' => ?_
  refine (h.nextWord h₁).bind fun found hfound => ?_
  obtain ⟨qualifier', pos₁⟩ := found
  obtain ⟨rfl, hstands⟩ := hfound
  refine (hstands.rest hrest).bind fun rest' hrest' => ?_
  subst hstatement' hrest'
  simp only at hs ⊢
  split at hs
  · next hskipped =>
    rw [if_pos hskipped, ← Option.some.inj hs]
    exact Slicing.yields_pure (follows_seek hstands ha₁ rfl hle none)
  · next hskipped =>
    rw [if_neg hskipped]
    split at hs
    · next huniform =>
      rw [if_pos huniform]
      exact declaration_yields hstands ha₁ hle hs
    · next huniform =>
      rw [if_neg huniform, ← Option.some.inj hs, ← hstands.pos_eq]
      exact Slicing.yields_pure (.finish _)

/-- **A turn through a header** follows the step of the pass. -/
theorem statement_yields (h : Stands text pos c) (hc : c.OnBoundary)
    (hs : Header.statement? c = some s) :
    (Bytewise.statement text pos).Yields (Follows text ';' pos · s) := by
  refine toSemicolon_yields ?_ (fun _ _ _ _ _ => statementBefore_yields) h hc hs
  intro pos' c' s' _ _ hs'
  rw [← Option.some.inj hs']
  exact Slicing.yields_pure (.finish _)

/-! ### Fields of the uniform struct -/

theorem fieldBefore_yields (h : Stands text pos c) (ha : c.Ahead ';' after eol)
    (hle : origin ≤ eol) (hs : StructFields.fieldBefore? c eol = some s) :
    (Bytewise.fieldBefore text pos eol).Yields (Follows text ';' origin · s) := by
  obtain ⟨type, c₁, h₁, ha₁⟩ := ha.nextWord? rfl rfl
  obtain ⟨part, hslice⟩ := ha₁.sliceTo?
  simp only [StructFields.fieldBefore?, h₁, hslice, Option.bind_eq_bind, Option.bind_some] at hs
  refine (h.nextWord h₁).bind fun found hfound => ?_
  obtain ⟨type', pos₁⟩ := found
  obtain ⟨rfl, hstands⟩ := hfound
  refine (hstands.sliceTo hslice).bind fun part' hpart => ?_
  subst hpart
  refine (nameAndSize_yields (Text.trim part')).bind fun found hfound => ?_
  rw [← hfound] at hs
  cases found with
  | error cause =>
    rw [← Option.some.inj hs]
    exact Slicing.yields_pure (.finish _)
  | ok found =>
    obtain ⟨name, size⟩ := found
    simp only at hs ⊢
    split at hs
    · next hempty =>
      rw [if_pos hempty, ← Option.some.inj hs]
      refine (hstands.sliceTo hslice).bind fun part hpart => ?_
      rw [hpart]
      exact Slicing.yields_pure (.finish _)
    · next hempty =>
      rw [if_neg hempty, ← Option.some.inj hs]
      exact Slicing.yields_pure (follows_seek hstands ha₁ rfl hle _)

/-- **A turn through the uniform struct** follows the step of the pass. -/
theorem field_yields (h : Stands text pos c) (hc : c.OnBoundary)
    (hs : StructFields.field? c = some s) :
    (Bytewise.field text pos).Yields (Follows text ';' pos · s) := by
  refine toSemicolon_yields ?_ (fun _ _ _ _ _ => fieldBefore_yields) h hc hs
  intro pos' c' s' hstands hc' hs'
  have hrest := Cursor.rest?_eq hc'
  rw [hrest, Option.bind_eq_bind, Option.bind_some] at hs'
  refine (hstands.rest hrest).bind fun rest hrest => ?_
  rw [hrest, ← Option.some.inj hs']
  exact Slicing.yields_pure (.finish _)

/-- The uniform struct is found and cut out as the pass has it. -/
theorem structBody_yields (source : String) :
    (Bytewise.structBody source.toList).Yields fun entered =>
      StructFields.scan? source = match entered with
        | .error f => some f
        | .ok text => StructFields.fields.run? (.ofList text) := by
  have hbehind :=
    Text.behind_yields (Cursor.onBoundary_ofList source.toList) StructFields.opening
  rw [StructFields.scan?]
  refine hbehind.bind fun found hfound => ?_
  rcases hfound with ⟨rfl, hcut⟩ | ⟨_, start, text, rfl, hcut⟩
  · rw [hcut]
    exact Slicing.yields_pure rfl
  · have hbefore := Text.before_yields (Cursor.onBoundary_mk start text) StructFields.closing
    refine hbefore.bind fun found hfound => ?_
    rcases hfound with ⟨rfl, hcut'⟩ | ⟨body, _, rfl, hcut'⟩
    · simp only [hcut, hcut', Option.bind_eq_bind, Option.bind_some]
      exact Slicing.yields_pure rfl
    · simp only [hcut, hcut', Option.bind_eq_bind, Option.bind_some]
      exact Slicing.yields_pure rfl

/-! ### Parameters of the entry point -/

/-- The offset behind what a cursor has in front of it. -/
theorem stands_behind (h : Stands text pos c) (hc : c.OnBoundary) {passed : List Char}
    (hrest : c.rest = passed ++ after) (hnext : next = c.start + width passed) :
    Stands text next ⟨next, 0, after⟩ := by
  have hseek := h.seek next
  rw [Cursor.seek_eq hc hrest hnext] at hseek
  rwa [show Text.Bytewise.seek text pos next = next from hseek.pos_eq] at hseek

/-- The slot is read from behind what comes before it, and the `)` that ends it stands ahead of
    where the turn began. -/
theorem slot_yields {passed rest name : List Char} {start : Nat} (h : Stands text pos c)
    (hc : c.OnBoundary) (hrest : c.rest = passed ++ rest) (hstart : start = c.start + width passed)
    (hs : (do
      match ← (Cursor.mk start 0 rest).cut? ")" with
      | none => return .finish (.malformed (.openTexture (.ofList name)))
      | some (slot, next) =>
        match EntryTextures.inSlot name (Text.trim slot) with
        | .error cause => return .finish (.malformed cause)
        | .ok binding => return .move (some binding) next) = some s) :
    (Bytewise.slot text pos start name).Yields (Follows text ')' pos · s) := by
  have hstands := stands_behind h hc hrest hstart
  have hc₁ : (Cursor.mk start 0 rest).OnBoundary := rfl
  refine (hstands.rest (Cursor.rest?_eq hc₁)).bind fun rest' hrest' => ?_
  obtain rfl : rest' = rest := hrest'
  rcases Text.cut?_found hc₁ ")" with ⟨hnone, hcut⟩ | ⟨slot, after, hclose, hslot, hcut⟩
  · rw [show Text.offset? [')'] start rest' = none from hnone start]
    simp only [hcut, Option.bind_eq_bind, Option.bind_some] at hs
    rw [← Option.some.inj hs]
    exact Slicing.yields_pure (.finish _)
  · rw [show Text.offset? [')'] start rest' = _ from hclose start]
    refine (hstands.take hc₁ hslot rfl).bind fun slot' hslot' => ?_
    obtain rfl : slot' = slot := hslot'
    simp only [hcut, Option.bind_eq_bind, Option.bind_some] at hs
    cases hbinding : EntryTextures.inSlot name (Text.trim slot') with
    | error cause =>
      simp only [hbinding] at hs ⊢
      rw [← Option.some.inj hs]
      exact Slicing.yields_pure (.finish _)
    | ok binding =>
      simp only [hbinding] at hs ⊢
      have ha : c.Ahead ')' after (start + width slot') := by
        refine ⟨hc, passed ++ slot', ?_, ?_⟩
        · rw [hrest, List.append_assoc]
          exact congrArg (passed ++ ·) hslot
        · rw [Text.width_append, hstart, Nat.add_assoc]
      have hfollows := follows_seek h ha rfl (le_of_ahead h ha) (some binding)
      rw [show c.seek (start + width slot' + 1) = _ from ha.seek_through] at hfollows
      rw [← Option.some.inj hs]
      exact Slicing.yields_pure hfollows

/-- **A turn through the parameters** of the entry point follows the step of the pass. -/
theorem parameter_yields (h : Stands text pos c) (hc : c.OnBoundary)
    (hs : EntryTextures.parameter? c = some s) :
    (Bytewise.parameter text pos).Yields (Follows text ')' pos · s) := by
  have hfind := Text.find?_eq hc EntryTextures.slotMark
  rcases Text.cut?_found hc EntryTextures.slotMark with
    ⟨hnone, hcut⟩ | ⟨front, rest, hmark, hrest, hcut⟩
  · rw [hnone] at hfind
    simp only [EntryTextures.parameter?, hcut, Option.bind_eq_bind, Option.bind_some] at hs
    refine (h.find hfind).bind fun found hfound => ?_
    rw [hfound, ← Option.some.inj hs]
    exact Slicing.yields_pure (.finish _)
  · rw [hmark] at hfind
    simp only [EntryTextures.parameter?, hcut, Option.bind_eq_bind, Option.bind_some] at hs
    refine (h.find hfind).bind fun found hfound => ?_
    rw [hfound]
    refine (h.sliceTo (Cursor.sliceTo?_eq hc hrest rfl)).bind fun front' hfront => ?_
    subst hfront
    rw [← List.append_assoc] at hrest
    refine slot_yields h hc hrest ?_ hs
    rw [Text.width_append, Nat.add_assoc]

/-- The parameters of the entry point are found and cut out as the pass has it. -/
theorem parameterList_yields (source : String) :
    (Bytewise.parameterList source.toList).Yields fun entered =>
      EntryTextures.scan? source = match entered with
        | .error f => some f
        | .ok text => EntryTextures.parameters.run? (.ofList text) := by
  have hbehind :=
    Text.behind_yields (Cursor.onBoundary_ofList source.toList) EntryTextures.opening
  rw [EntryTextures.scan?]
  refine hbehind.bind fun found hfound => ?_
  rcases hfound with ⟨rfl, hcut⟩ | ⟨_, start, text, rfl, hcut⟩
  · rw [hcut]
    exact Slicing.yields_pure rfl
  · have hc := Cursor.onBoundary_mk start text
    refine (Text.before_yields hc EntryTextures.bodyOpening).bind fun found hfound => ?_
    rcases hfound with ⟨rfl, hcut'⟩ | ⟨list, _, rfl, hcut'⟩
    · simp only [hcut, hcut', Cursor.rest?_eq hc, Option.bind_eq_bind, Option.bind_some]
      exact Slicing.yields_pure rfl
    · simp only [hcut, hcut', Option.bind_eq_bind, Option.bind_some]
      exact Slicing.yields_pure rfl

/-! ### Loops -/

section

variable {turn : Nat → Slicing Turn} {p : Pass}

/-- Wherever the pass can read, the turn follows its step. -/
def TurnFollows (text : List Char) (mark : Char) (turn : Nat → Slicing Turn) (p : Pass) : Prop :=
  ∀ pos c s, Stands text pos c → c.OnBoundary → p.step c = some s →
    (turn pos).Yields (Follows text mark pos · s)

/-- **A loop keeps to what its turns keep to**: it comes to what the pass comes to, no slice cuts
    a character, and every move passes the character that was found. -/
theorem Loop.safe (hturn : TurnFollows text mark turn p) {slices : List Slice}
    {moves : List Move} {result : Option Findings} (hloop : Loop text turn pos slices moves result)
    (h : Stands text pos c) (hc : c.OnBoundary) :
    result = p.run? c ∧ (∀ slice ∈ slices, slice.Sound) ∧
      ∀ move ∈ moves, Passes move.text mark move.pos move.stop move.next := by
  induction hloop generalizing c with
  | @stuck pos hvalue =>
    obtain ⟨s, hs, -⟩ := p.reads c hc
    obtain ⟨-, turned, hturned, -⟩ := hturn pos c s h hc hs
    rw [hvalue] at hturned
    cases hturned
  | @finish pos ending hvalue =>
    obtain ⟨s, hs, -⟩ := p.reads c hc
    obtain ⟨hsound, turned, hturned, hfollows⟩ := hturn pos c s h hc hs
    obtain rfl := Option.some.inj (hvalue.symm.trans hturned)
    cases hfollows
    exact ⟨(p.run?_finish hs).symm, hsound, List.forall_mem_nil _⟩
  | @move pos stop next found slices moves result hvalue hlater ih =>
    obtain ⟨s, hs, hleaves⟩ := p.reads c hc
    obtain ⟨hsound, turned, hturned, hfollows⟩ := hturn pos c s h hc hs
    obtain rfl := Option.some.inj (hvalue.symm.trans hturned)
    cases hfollows with
    | move _ hpasses hnext =>
      obtain ⟨hresult, hslices, hmoves⟩ := ih hnext (hleaves _ _ rfl).1
      refine ⟨?_, List.forall_mem_append.mpr ⟨hsound, hslices⟩,
        List.forall_mem_cons.mpr ⟨hpasses, hmoves⟩⟩
      rw [hresult, p.run?_move hs]

/-- **A loop ends**: every turn leaves less text than it found. -/
theorem exists_loop (hturn : TurnFollows text mark turn p) (h : Stands text pos c)
    (hc : c.OnBoundary) : ∃ slices moves, Loop text turn pos slices moves (p.run? c) := by
  induction hlen : c.rest.length using Nat.strongRecOn generalizing pos c with
  | _ len ih =>
    obtain ⟨s, hs, hleaves⟩ := p.reads c hc
    obtain ⟨-, turned, hturned, hfollows⟩ := hturn pos c s h hc hs
    cases hfollows with
    | finish ending =>
      rw [p.run?_finish hs]
      exact ⟨_, _, .finish hturned⟩
    | move found _ hnext =>
      obtain ⟨hc', hlt⟩ := hleaves _ _ rfl
      obtain ⟨slices, moves, hloop⟩ := ih _ (hlen ▸ hlt) hnext hc' rfl
      rw [p.run?_move hs]
      exact ⟨_, _, .move hturned hloop⟩

end

/-! ### Searches through a source -/

/-- The search through the source ends with these findings, which are a table or a malformed
    declaration; and on its way no slice cuts a character, and every move passes the character
    that was found. -/
structure Scanner.Safe (x : Scanner) (source : List Char) (f : Findings) : Prop where
  ends : ∃ slices moves, x.Scans source slices moves (some f)
  outcome : (∃ cause, f.ending = .malformed cause ∧ f.table = .error cause) ∨
    f.table = .ok (.ofList f.offered)
  keeps : ∀ slices moves result, x.Scans source slices moves result → result = some f ∧
    (∀ slice ∈ slices, slice.Sound) ∧
    ∀ move ∈ moves, Passes move.text x.mark move.pos move.stop move.next

/-- A search is safe if it finds its text as the pass does and its turns follow it. -/
theorem Scanner.safe_of_follows {x : Scanner} {p : Pass} {source : List Char} {f : Findings}
    (henter : (x.enter source).Yields fun entered =>
      some f = match entered with
        | .error g => some g
        | .ok text => p.run? (.ofList text))
    (hturn : ∀ text, TurnFollows text x.mark (x.turn text) p) : x.Safe source f := by
  obtain ⟨hsound, entered, hentered, hf⟩ := henter
  refine ⟨?_, f.table_cases, ?_⟩
  · cases entered with
    | error g =>
      rw [hf]
      exact ⟨_, _, .done hentered⟩
    | ok text =>
      obtain ⟨slices, moves, hloop⟩ :=
        exists_loop (hturn text) (Text.stands_ofList text) (Cursor.onBoundary_ofList text)
      rw [hf]
      exact ⟨_, _, .loop hentered hloop⟩
  · intro slices moves result hscans
    cases hscans with
    | stuck h =>
      rw [hentered] at h
      cases h
    | done h =>
      obtain rfl := Option.some.inj (h.symm.trans hentered)
      exact ⟨hf.symm, hsound, List.forall_mem_nil _⟩
    | loop h hloop =>
      obtain rfl := Option.some.inj (h.symm.trans hentered)
      obtain ⟨hresult, hslices, hmoves⟩ :=
        hloop.safe (hturn _) (Text.stands_ofList _) (Cursor.onBoundary_ofList _)
      exact ⟨hresult.trans hf.symm, List.forall_mem_append.mpr ⟨hsound, hslices⟩, hmoves⟩

/-- **Searches are safe** in every source: none of the three asks for a slice that leaves its text
    or cuts a character, each ends with a table or a malformed declaration, and a turn that does
    not end the search goes on behind the `;` or `)` that it found. -/
theorem scans_safely (source : String) :
    Header.scanner.Safe source.toList (Header.scan source) ∧
      StructFields.scanner.Safe source.toList (StructFields.scan source) ∧
      EntryTextures.scanner.Safe source.toList (EntryTextures.scan source) := by
  refine ⟨Scanner.safe_of_follows (p := Header.statements) ?_ ?_,
    Scanner.safe_of_follows (p := StructFields.fields) ?_ ?_,
    Scanner.safe_of_follows (p := EntryTextures.parameters) ?_ ?_⟩
  · exact Slicing.yields_pure (Option.some_get _)
  · exact fun _ _ _ _ => statement_yields
  · rw [StructFields.scan, Option.some_get]
    exact structBody_yields source
  · exact fun _ _ _ _ => field_yields
  · rw [EntryTextures.scan, Option.some_get]
    exact parameterList_yields source
  · exact fun _ _ _ _ => parameter_yields

end ShaderPack.Recovery
