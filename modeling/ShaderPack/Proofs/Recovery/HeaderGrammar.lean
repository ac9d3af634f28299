import ShaderPack.Proofs.Recovery.ArraySize
import ShaderPack.Recovery.Header

namespace ShaderPack.Recovery.Header

open Text

/-!
# Declaration headers — what a header is written as

A header is a `Layout`: items, each behind any blanks, and a tail.  An item is either a
declaration with the rest of its line or a statement that is passed over; the tail holds
nothing that would be read as one of them.  Every part carries what makes it well-formed, so
each value of these types can be written down with `text`, and `declarations` are the
declarations in it, in order.

Blanks are free wherever two parts of a declaration may stand apart, and `Skippable` is
about the words of a text as a cursor reads them: the second word counts only if it stands
directly behind the first one.
-/

/-! ### Statements that are passed over -/

/-- The name of one of the optimizer's temporaries. -/
def Temporary (word : List Char) : Prop := temporaryLead.toList <+: word

/-- A text whose first word declares nothing bindable, or whose first or second word is the
    name of a temporary. -/
def Skippable (s : List Char) : Prop :=
  firstWord s ∈ skippedQualifiers.map String.toList ∨
    Temporary (firstWord s) ∨ Temporary (firstWord (behindWord s))

instance (word : List Char) : Decidable (Temporary word) :=
  inferInstanceAs (Decidable (temporaryLead.toList <+: word))

instance (s : List Char) : Decidable (Skippable s) :=
  inferInstanceAs (Decidable (_ ∨ _ ∨ _))

@[simp] theorem skippable_dropWhile (s : List Char) :
    Skippable (s.dropWhile isSpace) ↔ Skippable s := by
  simp only [Skippable, firstWord_dropWhile, behindWord_dropWhile]

/-- Whether a statement is passed over is seen before its `;`. -/
theorem skippable_append (before after : List Char) :
    Skippable (before ++ ';' :: after) ↔ Skippable before := by
  have hfirst (s : List Char) : firstWord (s ++ ';' :: after) = firstWord s :=
    firstWord_append_cons (by decide) (by decide) s after
  have hbehind : behindWord (before ++ ';' :: after) = behindWord before ++ ';' :: after :=
    behindWord_append_cons (by decide) (by decide) before after
  simp only [Skippable, hbehind, hfirst]

/-- What is tested of a text is whether it is passed over. -/
theorem isSkipped_iff (s : List Char) :
    isSkipped (firstWord s) (behindWord s) = true ↔ Skippable s := by
  have hlead : ∀ c ∈ temporaryLead.toList, isWord c = true := List.all_eq_true.mp (by decide)
  have hnext : Temporary (firstWord (behindWord s)) ↔ Temporary (behindWord s) :=
    prefix_firstWord_behindWord hlead s
  unfold Skippable
  rw [hnext]
  simp only [isSkipped, Temporary, Bool.or_eq_true, List.any_eq_true, decide_eq_true_eq,
    List.isPrefixOf_iff_prefix, List.mem_map, or_assoc]

/-! ### Declarations -/

/-- The word that opens a declaration. -/
def uniformWord : Word := ⟨"uniform".toList, by decide, by decide⟩

/-- A precision and the blanks behind it. -/
structure Precision where
  keyword : Word
  known : keyword.text ∈ precisions.map String.toList
  gap : Gap

def Precision.text (p : Precision) : List Char := p.keyword.text ++ p.gap.text

/-- An array size in its brackets and the blanks behind them. -/
structure Brackets where
  inside : WrittenSize
  blanks : Blanks

def Brackets.text (b : Brackets) : List Char :=
  '[' :: (b.inside.text ++ ']' :: b.blanks.text)

/-- The word `uniform`, a precision or not, a type, a name, and an array size or not. -/
structure Declaration where
  gap : Gap
  precision : Option Precision
  type : Word
  plain : type.text ∉ precisions.map String.toList
  lasting : ¬Temporary type.text
  typeGap : Gap
  name : Word
  nameBlanks : Blanks
  array : Option Brackets

namespace Declaration

/-- The text from the name on. -/
def declarator (d : Declaration) : List Char :=
  d.name.text ++ (d.nameBlanks.text ++ d.array.elim [] Brackets.text)

/-- The text from the precision on. -/
def specification (d : Declaration) : List Char :=
  d.precision.elim [] Precision.text ++ (d.type.text ++ (d.typeGap.text ++ d.declarator))

/-- The text up to the `;`. -/
def text (d : Declaration) : List Char :=
  uniformWord.text ++ (d.gap.text ++ d.specification)

/-- The number of array elements; 1 for what is no array. -/
def size (d : Declaration) : UInt8 := d.array.elim 1 fun b => b.inside.size

/-- The kind that the type of the declaration stands for. -/
def kind (d : Declaration) : Kind := .ofName (.ofList d.type.text)

/-- The binding that is declared. -/
def binding (d : Declaration) : Binding := .declared (.ofList d.name.text) d.kind d.size

end Declaration

/-! ### Headers -/

/-- A declaration and what follows its `;` in the same line. -/
structure DeclarationLine where
  declaration : Declaration
  behind : List Char
  line : '\n' ∉ behind

def DeclarationLine.text (l : DeclarationLine) : List Char :=
  l.declaration.text ++ ';' :: l.behind

/-- A statement that is passed over, up to its `;`. -/
structure SkippedStatement where
  text : List Char
  single : ';' ∉ text
  skippable : Skippable text

/-- A part of a header. -/
inductive Item
  /-- A declaration with its line, which is ended. -/
  | declared (line : DeclarationLine)
  | skipped (statement : SkippedStatement)

namespace Item

def text : Item → List Char
  | declared line => line.text ++ ['\n']
  | skipped statement => statement.text ++ [';']

def declaration? : Item → Option Declaration
  | declared line => some line.declaration
  | skipped _ => none

end Item

/-- What comes behind the items. -/
inductive Tail
  /-- No statement ends; there may be no text at all. -/
  | unfinished (text : List Char) (endless : ';' ∉ text)
  /-- The first statement is neither a declaration nor passed over. -/
  | code (text : List Char) (other : firstWord text ≠ "uniform".toList)
    (kept : ¬Skippable text)
  /-- A last declaration whose line is not ended. -/
  | lastLine (blanks : Blanks) (line : DeclarationLine)

namespace Tail

def text : Tail → List Char
  | unfinished text _ => text
  | code text _ _ => text
  | lastLine blanks line => blanks.text ++ line.text

def declaration? : Tail → Option Declaration
  | lastLine _ line => some line.declaration
  | _ => none

end Tail

/-- A header: items, each behind blanks, and a tail. -/
structure Layout where
  items : List (Blanks × Item)
  tail : Tail

namespace Layout

def text (h : Layout) : List Char :=
  h.items.flatMap (fun (blanks, item) => blanks.text ++ item.text) ++ h.tail.text

/-- The declarations of a header, in order. -/
def declarations (h : Layout) : List Declaration :=
  h.items.filterMap (·.2.declaration?) ++ h.tail.declaration?.toList

/-- A statement to pass over and a declaration in one line, and code in the next. -/
def sample : Layout where
  items :=
    [(⟨[], by decide⟩, .skipped ⟨"in vec2 v_uv".toList, by decide, by decide⟩),
     (⟨[' '], by decide⟩, .declared ⟨{
        gap := ⟨⟨[' '], by decide⟩, by decide⟩
        precision := some ⟨⟨"highp".toList, by decide, by decide⟩, by decide,
          ⟨⟨[' '], by decide⟩, by decide⟩⟩
        type := ⟨"mat4".toList, by decide, by decide⟩
        plain := by decide
        lasting := by decide
        typeGap := ⟨⟨[' '], by decide⟩, by decide⟩
        name := ⟨"u_bones".toList, by decide, by decide⟩
        nameBlanks := ⟨[], by decide⟩
        array := some ⟨⟨⟨[' '], by decide⟩, "32".toList, by decide, by decide, by decide,
          by decide, ⟨[' '], by decide⟩⟩, ⟨[], by decide⟩⟩ }, " // skinning".toList,
        by decide⟩)]
  tail := .code "void main () \x7b; \x7d".toList (by decide) (by decide)

end Layout

end ShaderPack.Recovery.Header
