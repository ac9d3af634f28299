import ShaderPack.Proofs.Recovery.HeaderGrammar
import ShaderPack.Proofs.Text.Occurrences
import ShaderPack.Recovery.StructFields

namespace ShaderPack.Recovery.StructFields

open Text
open Header (Brackets)

/-!
# The uniform struct — scanning what was written

The struct of a text is written as a `Body`: fields, each up to its `;`, and blanks behind
the last one.  Every part carries what makes it well-formed.

* `field?_eq` — one step reads one field and stands behind its `;`;
* `run?_body` — a run finds the bindings of all fields;
* `scan_body` — so does a scan of any text in which the body stands between the first opening
  of the struct and its closing.
-/

/-! ### What a struct is written as -/

/-- A type, a name, and an array size or not, with blanks wherever two parts may stand
    apart. -/
structure Field where
  blanks : Blanks
  type : Word
  gap : Gap
  name : Word
  nameBlanks : Blanks
  array : Option Brackets

namespace Field

/-- The text from the name on. -/
def declarator (f : Field) : List Char :=
  f.name.text ++ (f.nameBlanks.text ++ f.array.elim [] Brackets.text)

/-- The text from the type on. -/
def specification (f : Field) : List Char := f.type.text ++ (f.gap.text ++ f.declarator)

/-- The text up to the `;`. -/
def text (f : Field) : List Char := f.blanks.text ++ f.specification

/-- The number of array elements; 1 for what is no array. -/
def size (f : Field) : UInt8 := f.array.elim 1 fun b => b.inside.size

/-- The kind that the type of the field stands for. -/
def kind (f : Field) : Kind := .ofName (.ofList f.type.text)

/-- The binding that the field declares. -/
def binding (f : Field) : Binding := .field (.ofList f.name.text) f.kind f.size

/-- What the words, the blanks and the brackets are made of leaves out every other
    character. -/
theorem notMem_text (f : Field) {x : Char} (hword : isWord x = false)
    (hspace : isSpace x = false) (hopen : x ≠ '[') (hclose : x ≠ ']') : x ∉ f.text := by
  have hdigit : x.isDigit = false := by
    cases hx : x.isDigit with
    | false => rfl
    | true => rw [isWord_of_isDigit hx] at hword; exact hword
  have hnotWord (w : Word) : x ∉ w.text := fun h => by simp [w.word x h] at hword
  have hnotBlank (b : Blanks) : x ∉ b.text := fun h => by simp [b.blank x h] at hspace
  have harray : x ∉ f.array.elim [] Brackets.text := by
    cases f.array with
    | none => simp
    | some b =>
      have hsize : x ∉ b.inside.text := b.inside.notMem_text hdigit hspace
      simp [Brackets.text, hopen, hclose, hsize, hnotBlank]
  simp only [text, specification, declarator, List.mem_append, not_or]
  exact ⟨hnotBlank _, hnotWord _, hnotBlank _, hnotWord _, hnotBlank _, harray⟩

/-- A field is known exactly if its type is. -/
theorem isKnown_binding (f : Field) : f.binding.isKnown = decide (f.kind ≠ .unknown) := by
  show (f.kind != .unknown) = decide (f.kind ≠ .unknown)
  cases f.kind <;> rfl

end Field

/-- The fields of a struct, each with its `;`, and the blanks behind them. -/
structure Body where
  fields : List Field
  blanks : Blanks

namespace Body

def text (b : Body) : List Char :=
  b.fields.flatMap (fun f => f.text ++ [';']) ++ b.blanks.text

/-- The struct is not closed within its body. -/
theorem closing_free (b : Body) : ¬closing.toList <:+: b.text := by
  have hfield (f : Field) : '\x7d' ∉ f.text :=
    f.notMem_text (by decide) (by decide) (by decide) (by decide)
  have hblank : '\x7d' ∉ b.blanks.text := fun h => absurd (b.blanks.blank _ h) (by decide)
  have hbrace : '\x7d' ∉ b.text := by simp [text, hfield, hblank]
  intro h
  exact hbrace (h.subset (by decide))

end Body

/-! ### One field -/

variable {c : Cursor}

/-- The name and the size are read off a declarator once it is trimmed. -/
theorem nameAndSize_declarator (f : Field) :
    nameAndSize (trim f.declarator) = .ok (f.name.text, f.size) := by
  have hname : '[' ∉ f.name.text := fun h => absurd (f.name.word _ h) (by decide)
  have hblanks : '[' ∉ f.nameBlanks.text := fun h => absurd (f.nameBlanks.blank _ h) (by decide)
  have hbare : trimEnd (f.name.text ++ f.nameBlanks.text) = f.name.text := by
    rw [trimEnd_append _ f.nameBlanks.isBlank]
    exact Word.trimEnd_append [] f.name
  rw [trim, Field.declarator, f.name.trimStart_append]
  unfold Field.size
  cases f.array with
  | none =>
    rw [Option.elim_none, Option.elim_none, List.append_nil, hbare, nameAndSize,
      cutAt?_eq_none hname]
  | some b =>
    -- only the blanks behind the brackets are trimmed; those before them wait for the cut
    have hend : trimEnd (f.name.text ++ (f.nameBlanks.text ++ b.text)) =
        (f.name.text ++ f.nameBlanks.text) ++ '[' :: (b.inside.text ++ [']']) := by
      have hsplit : f.name.text ++ (f.nameBlanks.text ++ b.text) =
          (f.name.text ++ f.nameBlanks.text ++ '[' :: b.inside.text) ++ [']'] ++ b.blanks.text := by
        simp [Brackets.text]
      rw [hsplit, trimEnd_append _ b.blanks.isBlank, trimEnd_concat _ (by decide)]
      simp
    have hcut : cutAt? '[' (f.name.text ++ f.nameBlanks.text ++ '[' :: (b.inside.text ++ [']'])) =
        some (f.name.text ++ f.nameBlanks.text, b.inside.text ++ [']']) :=
      cutAt?_append_cons (by simp [hname, hblanks]) _
    rw [Option.elim_some, Option.elim_some, hend, nameAndSize, hcut]
    simp only [b.inside.arraySize_text, hbare]
    rfl

/-- **One step reads one field** and stands behind its `;`. -/
theorem field?_eq (f : Field) (hc : c.OnBoundary) {after : List Char}
    (hrest : c.rest = f.text ++ ';' :: after) :
    ∃ next, field? c = some (.move (some f.binding) next) ∧ next.OnBoundary ∧
      next.rest = after := by
  have hopens : c.rest.dropWhile isSpace = f.specification ++ ';' :: after := by
    rw [hrest, Field.text, List.append_assoc, Blanks.dropWhile_append, Field.specification,
      List.append_assoc, Word.dropWhile_append]
  have hsingle : ';' ∉ f.specification := by
    have htext : ';' ∉ f.text := f.notMem_text (by decide) (by decide) (by decide) (by decide)
    simp only [Field.text, List.mem_append, not_or] at htext
    exact htext.2
  obtain ⟨c₁, eol, hskip, hmore, hfind, hf₁⟩ :=
    Cursor.Faces.of_skipSpace hc hopens hsingle (show ";".toList = [';'] from rfl)
  -- the type is read as a word, and what is left up to the `;` is the declarator
  obtain ⟨c₂, hword, hf₂⟩ := hf₁.nextWord? rfl rfl
  have hstops : Stops (f.gap.text ++ f.declarator) := Stops.gap f.gap _
  rw [Field.specification, firstWord_word f.type hstops] at hword
  rw [Field.specification, behindWord_word f.type hstops, Blanks.dropWhile_append,
    Field.declarator, Word.dropWhile_append, ← Field.declarator] at hf₂
  have hslice : c₂.sliceTo? eol = some f.declarator := hf₂.sliceTo?
  have hseek : c₂.seek (eol + 1) = ⟨eol + 1, 0, after⟩ := hf₂.ahead.seek_through
  refine ⟨⟨eol + 1, 0, after⟩, ?_, rfl, rfl⟩
  simp [field?, hskip, hmore, hfind, fieldBefore?, hword, hslice, nameAndSize_declarator,
    f.type.nonempty, f.name.nonempty, hseek, Field.binding, Field.kind]

/-! ### All fields -/

/-- A run finds the bindings of all fields of a body. -/
theorem run?_body (b : Body) (hc : c.OnBoundary) (hrest : c.rest = b.text) :
    fields.run? c = some ⟨b.fields.map Field.binding, .complete⟩ := by
  obtain ⟨list, blanks⟩ := b
  -- the induction is on the fields; each step hands on the text of those that remain
  induction list generalizing c with
  | nil =>
    have hskip : c.skipSpace? = _ := Cursor.skipWhile?_eq isSpace hc
    have hnothing : c.rest.dropWhile isSpace = [] := by
      rw [hrest, Body.text, List.flatMap_nil, List.nil_append, ← List.append_nil blanks.text,
        Blanks.dropWhile_append]
      rfl
    rw [hnothing] at hskip
    exact fields.run?_finish (by simp [fields, field?, hskip, Cursor.isEmpty])
  | cons f list ih =>
    have hfirst : c.rest = f.text ++ ';' :: Body.text ⟨list, blanks⟩ := by
      simp [hrest, Body.text]
    obtain ⟨next, hstep, hnext, hrest'⟩ := field?_eq f hc hfirst
    rw [fields.run?_move hstep, ih hnext hrest']
    rfl

theorem opening_closed : Closed opening.toList :=
  ⟨"struct xlatMtlShaderUniform ".toList, '\x7b', by decide, by decide⟩

theorem closing_closed : Closed closing.toList := ⟨['\x7d'], ';', by decide, by decide⟩

/-- Only what the struct encloses is searched. -/
theorem scan?_encloses {source : String} {body : List Char}
    (h : Encloses opening.toList closing.toList body source.toList) :
    scan? source = fields.run? (.ofList body) := by
  obtain ⟨before, c₁, c₂, hopen, hclose⟩ :=
    Cursor.cut?_encloses (Cursor.onBoundary_ofList source.toList) opening_closed closing_closed h
  simp [scan?, hopen, hclose]

/-- **The fields of a struct are recovered exactly**, whatever stands around the struct: in
    front of it, only a second opening would matter. -/
theorem scan_body (b : Body) {source : String} {before after : List Char}
    (hsource : source.toList =
      before ++ (opening.toList ++ (b.text ++ (closing.toList ++ after))))
    (hfirst : ¬opening.toList <:+: before) :
    scan source = ⟨b.fields.map Field.binding, .complete⟩ := by
  have hscan := scan?_encloses ⟨before, after, hsource, hfirst, b.closing_free⟩
  have hrun := run?_body b (Cursor.onBoundary_ofList b.text) rfl
  exact Option.get_of_eq_some _ (hscan.trans hrun)

end ShaderPack.Recovery.StructFields
