import ShaderPack.Recovery.ArraySize
import ShaderPack.Recovery.Findings

namespace ShaderPack.Recovery.Header

open Text (Cursor)

/-!
# Declaration headers of the GL family

Declarations come before all code, one statement to each `;`.  A `uniform` statement
declares a binding; statements that declare inputs, outputs, precisions or the optimizer's
own temporaries are passed over; the header ends in front of any other statement, and no
later text is looked at.

After a passed-over statement the search goes on right behind its `;`.  After a `uniform`
statement it goes on in the next line, so what follows in the same line is not read.

`scan?` reads through a cursor and would be `none` if it ever read from inside a character.
It never does (`scan?_isSome`), so `scan` has findings for every source.
-/

/-- First words of statements that declare nothing bindable. -/
def skippedQualifiers : List String :=
  ["precision", "attribute", "varying", "in", "out", "flat", "smooth", "noperspective",
   "centroid"]

/-- How the names of the optimizer's temporaries begin. -/
def temporaryLead : String := "tmpvar"

/-- The precision keywords that may stand before a type. -/
def precisions : List String := ["lowp", "mediump", "highp"]

/-- Whether a statement is passed over, given its first word and the text behind it. -/
def isSkipped (qualifier rest : List Char) : Bool :=
  skippedQualifiers.any (·.toList = qualifier) ||
    temporaryLead.toList.isPrefixOf qualifier || temporaryLead.toList.isPrefixOf rest

/-- Reads the name of a type, with a precision before it or not. -/
def typeName? (c : Cursor) : Option (List Char × Cursor) := do
  let (word, c) ← c.nextWord?
  if precisions.any (·.toList = word) then c.nextWord? else return (word, c)

/-- Reads the array size behind a name, in a statement whose `;` is at `eol`; a name without
    brackets stands for one element. -/
def sizeBehind? (c : Cursor) (eol : Nat) (name : String) :
    Option (Except Malformed UInt8) := do
  let rest ← c.rest?
  if rest.head? = some '[' then
    let text ← c.bump.sliceTo? (eol + 1)
    return arraySize text name
  else return .ok 1

/-- The binding that a `uniform` statement declares, read behind its first word; the whole
    statement is kept for the case that a part is missing. -/
def declaration? (c : Cursor) (eol : Nat) (statement : List Char) : Option Step := do
  let (type, c) ← typeName? c
  let (name, c) ← c.nextWord?
  if type.isEmpty || name.isEmpty then
    return .finish (.malformed (.incompleteUniform (.ofList statement)))
  else match ← sizeBehind? c eol (.ofList name) with
    | .error cause => return .finish (.malformed cause)
    | .ok size =>
      -- what follows the `;` in the same line is not read
      let next ← (c.seek eol).skipLine?
      return .move (some (.declared (.ofList name) (.ofName (.ofList type)) size)) next

/-- A statement whose `;` is at `eol`. -/
def statementBefore? (c : Cursor) (eol : Nat) : Option Step := do
  let statement ← c.sliceTo? eol
  let (qualifier, c) ← c.nextWord?
  let rest ← c.rest?
  -- behind a passed-over statement the same line is read on
  if isSkipped qualifier rest then return .move none (c.seek (eol + 1))
  else if qualifier = "uniform".toList then declaration? c eol statement
  else return .finish (.headerEnd c.pos (.ofList qualifier))

/-- The next statement of a header, if there is one. -/
def statement? (c : Cursor) : Option Step := do
  let c ← c.skipSpace?
  if c.isEmpty then return .finish .complete
  else match ← c.find? ";" with
    | none => return .finish .complete
    | some eol => statementBefore? c eol

/-! ### Reading never fails -/

section

variable {c : Cursor} {after : List Char} {eol : Nat}

/-- A type name is read before the `;` of its statement. -/
theorem typeName?_ahead (h : c.Ahead ';' after eol) :
    ∃ word next, typeName? c = some (word, next) ∧ next.Ahead ';' after eol := by
  obtain ⟨word, c₁, h₁, hc₁⟩ := h.nextWord? rfl rfl
  by_cases hw : precisions.any (·.toList = word) = true
  · obtain ⟨type, c₂, h₂, hc₂⟩ := hc₁.nextWord? rfl rfl
    exact ⟨type, c₂, by simp only [typeName?, h₁, Option.bind_eq_bind, Option.bind_some, hw,
      if_true, h₂], hc₂⟩
  · refine ⟨word, c₁, ?_, hc₁⟩
    simp only [typeName?, h₁, Option.bind_eq_bind, Option.bind_some, if_neg hw]
    rfl

/-- An array size is read before the `;` of its statement. -/
theorem sizeBehind?_ahead (h : c.Ahead ';' after eol) (name : String) :
    ∃ size, sizeBehind? c eol name = some size := by
  by_cases hb : c.rest.head? = some '['
  · obtain ⟨text, htext⟩ := (h.bump hb (by decide) rfl).sliceTo?_through
    exact ⟨arraySize text name, by
      simp [sizeBehind?, Cursor.rest?_eq h.1, hb,
        show c.bump.sliceTo? (eol + 1) = some text from htext]⟩
  · exact ⟨.ok 1, by simp [sizeBehind?, Cursor.rest?_eq h.1, hb]⟩

/-- What remains behind a declaration comes behind its `;`. -/
theorem declaration?_ahead (h : c.Ahead ';' after eol) (statement : List Char) {c₀ : Cursor}
    (hlt : after.length < c₀.rest.length) :
    ∃ s, declaration? c eol statement = some s ∧ s.Leaves c₀ := by
  obtain ⟨type, c₁, h₁, ha₁⟩ := typeName?_ahead h
  obtain ⟨name, c₂, h₂, ha₂⟩ := ha₁.nextWord? rfl rfl
  simp only [declaration?, h₁, h₂, Option.bind_eq_bind, Option.bind_some]
  by_cases hempty : (type.isEmpty || name.isEmpty) = true
  · exact ⟨_, by rw [if_pos hempty]; rfl, Step.leaves_finish _ _⟩
  · obtain ⟨size, hsize⟩ := sizeBehind?_ahead ha₂ (.ofList name)
    rw [if_neg hempty, hsize, Option.bind_some]
    cases size with
    | error cause => exact ⟨_, rfl, Step.leaves_finish _ _⟩
    | ok size =>
      obtain ⟨next, hnext, hb, hlen⟩ := ha₂.skipLine?
      exact ⟨_, by rw [hnext]; rfl, Step.leaves_move hb (by omega)⟩

/-- What remains behind a statement comes behind its `;`. -/
theorem statementBefore?_ahead (h : c.Ahead ';' after eol) {c₀ : Cursor}
    (hlt : after.length < c₀.rest.length) :
    ∃ s, statementBefore? c eol = some s ∧ s.Leaves c₀ := by
  obtain ⟨statement, hslice⟩ := h.sliceTo?
  obtain ⟨qualifier, c₁, h₁, ha₁⟩ := h.nextWord? rfl rfl
  simp only [statementBefore?, hslice, h₁, Cursor.rest?_eq ha₁.1, Option.bind_eq_bind,
    Option.bind_some]
  by_cases hskip : isSkipped qualifier c₁.rest = true
  · have hseek : c₁.seek (eol + 1) = ⟨eol + 1, 0, after⟩ := ha₁.seek_through
    exact ⟨_, by rw [if_pos hskip, hseek]; rfl,
      Step.leaves_move (Cursor.onBoundary_mk _ _) hlt⟩
  · rw [if_neg hskip]
    by_cases huniform : qualifier = "uniform".toList
    · rw [if_pos huniform]
      exact declaration?_ahead ha₁ statement hlt
    · exact ⟨_, by rw [if_neg huniform]; rfl, Step.leaves_finish _ _⟩

end

/-- A statement is read from between two characters, and what remains comes behind its
    `;`. -/
theorem statement?_reads (c : Cursor) (hc : c.OnBoundary) :
    ∃ s, statement? c = some s ∧ s.Leaves c := by
  obtain ⟨c₁, h₁, hc₁, hsuffix⟩ := Cursor.skipSpace?_eq hc
  simp only [statement?, h₁, Option.bind_eq_bind, Option.bind_some]
  by_cases hempty : c₁.isEmpty = true
  · exact ⟨_, by rw [if_pos hempty]; rfl, Step.leaves_finish _ _⟩
  · rw [if_neg hempty]
    obtain ⟨found, hfind⟩ := Cursor.find?_isSome hc₁ ";"
    rw [hfind, Option.bind_some]
    cases found with
    | none => exact ⟨_, rfl, Step.leaves_finish _ _⟩
    | some eol =>
      obtain ⟨after, ha⟩ := Cursor.Ahead.of_find? hc₁ (x := ';') rfl hfind
      have := (ha.suffix.trans hsuffix).length_le
      exact statementBefore?_ahead ha (by simp only [List.length_cons] at this; omega)

/-- A statement is not read from inside a character. -/
theorem statement?_refuses (c : Cursor) (hc : ¬c.OnBoundary) : statement? c = none := by
  simp [statement?, Cursor.skipSpace?, Cursor.skipWhile?, Cursor.rest?, hc]

/-- The search through the statements of a header. -/
def statements : Pass := ⟨statement?, statement?_reads, statement?_refuses⟩

/-! ### Scanning a source -/

/-- The findings in the declaration header of a source, if they can be read. -/
def scan? (source : String) : Option Findings :=
  statements.run? (.ofList source.toList)

/-- The header of every source can be read. -/
theorem scan?_isSome (source : String) : (scan? source).isSome :=
  statements.run?_isSome _ (Cursor.onBoundary_ofList _)

/-- The findings in the declaration header of a source. -/
def scan (source : String) : Findings := (scan? source).get (scan?_isSome source)

end ShaderPack.Recovery.Header
