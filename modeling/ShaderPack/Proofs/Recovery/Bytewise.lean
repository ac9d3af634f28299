import ShaderPack.Failure
import ShaderPack.Proofs.Text.Bytewise
import ShaderPack.Recovery

namespace ShaderPack.Recovery

open Text (Cursor Slice Slicing Stands width)

/-!
# Searches, byte by byte

The three searches for bindings once more, on byte offsets: each stands at an offset of a text,
moves by counting bytes, and asks for every piece of text as a slice between two offsets
(`Bytewise`).  Nothing in their form keeps such a search from asking for a slice that cuts a
character in two, or from turning forever; `scans_safely` proves that it does neither.

What is to be kept to is said here.  A turn `Follows` the step of the pass on the cursor that
stands where it does, so it finds the same bindings; and where it goes on, it has passed the
character it was looking for (`Passes`).  `Loop` and `Scanner.Scans` are runs that end, with all
slices and all moves on their way.
-/

/-! ### Turns and loops -/

/-- What a turn of a loop does. -/
inductive Turn
  | finish (ending : Ending)
  /-- The loop goes on at `next`, having found at `stop` the character that it looked for. -/
  | move (found : Option Binding) (stop next : Nat)
  deriving DecidableEq, Repr

/-- From `pos` on, the character `mark` was found at `stop`, and `next` comes behind it. -/
structure Passes (text : List Char) (mark : Char) (pos stop next : Nat) : Prop where
  marked : ∃ before after, text = before ++ mark :: after ∧ stop = width before
  ahead : pos ≤ stop
  behind : stop < next
  inside : next ≤ width text

/-- The turn does what the step does; if it goes on, then behind the character that it looked
    for, and where the step goes on. -/
inductive Follows (text : List Char) (mark : Char) (pos : Nat) : Turn → Step → Prop
  | finish (ending : Ending) : Follows text mark pos (.finish ending) (.finish ending)
  | move (found : Option Binding) {stop next : Nat} {c : Cursor}
    (hpasses : Passes text mark pos stop next) (hstands : Stands text next c) :
    Follows text mark pos (.move found stop next) (.move found c)

/-- From where a turn began to where it goes on. -/
structure Move where
  text : List Char
  pos : Nat
  stop : Nat
  next : Nat

/-- The turns of a loop from an offset on: all slices that are asked for, all moves, and the
    findings; none if a slice is none. -/
inductive Loop (text : List Char) (turn : Nat → Slicing Turn) :
    Nat → List Slice → List Move → Option Findings → Prop
  | stuck {pos : Nat} (h : (turn pos).value = none) : Loop text turn pos (turn pos).slices [] none
  | finish {pos : Nat} {ending : Ending} (h : (turn pos).value = some (.finish ending)) :
    Loop text turn pos (turn pos).slices [] (some ⟨[], ending⟩)
  | move {pos stop next : Nat} {found : Option Binding} {slices : List Slice} {moves : List Move}
    {result : Option Findings} (h : (turn pos).value = some (.move found stop next))
    (hlater : Loop text turn next slices moves result) :
    Loop text turn pos ((turn pos).slices ++ slices) (⟨text, pos, stop, next⟩ :: moves)
      (result.map fun f => found.elim f f.offer)

/-- A search on byte offsets. -/
structure Scanner where
  /-- The character that a turn looks for. -/
  mark : Char
  /-- Looks for the text to search through, or has findings without a search. -/
  enter : List Char → Slicing (Except Findings (List Char))
  turn : List Char → Nat → Slicing Turn

/-- A search through a source: all slices that are asked for, all moves, and the findings; none
    if a slice is none. -/
inductive Scanner.Scans (x : Scanner) (source : List Char) :
    List Slice → List Move → Option Findings → Prop
  | stuck (h : (x.enter source).value = none) : Scans x source (x.enter source).slices [] none
  | done {f : Findings} (h : (x.enter source).value = some (.error f)) :
    Scans x source (x.enter source).slices [] (some f)
  | loop {text : List Char} {slices : List Slice} {moves : List Move} {result : Option Findings}
    (h : (x.enter source).value = some (.ok text))
    (hloop : Loop text (x.turn text) 0 slices moves result) :
    Scans x source ((x.enter source).slices ++ slices) moves result

/-! ### The three searches -/

namespace Bytewise

open Text.Bytewise
open Text.Slicing (take)

/-- A turn up to the next `;` behind blanks, if there is one. -/
def toSemicolon (text : List Char) (pos : Nat) (missing : Nat → Slicing Turn)
    (found : Nat → Nat → Slicing Turn) : Slicing Turn := do
  let pos ← skipSpace text pos
  if isEmpty text pos then return .finish .complete
  else match ← find text pos ";" with
    | none => missing pos
    | some eol => found pos eol

/-- The array size in the text between the brackets. -/
def enclosedSize (inside : List Char) (name : String) : Except Malformed UInt8 :=
  let digits := Text.trim inside
  match Text.Decimal.parse? arraySizeLimit digits with
  | none => .error (.arraySizeNotNumber (.ofList digits) name)
  | some size =>
    if 1 ≤ size ∧ size ≤ 255 then .ok (.ofNat size)
    else .error (.arraySizeOutOfRange size name)

/-- The array size at the beginning of a text, which follows the opening bracket. -/
def arraySize (text : List Char) (name : String) : Slicing (Except Malformed UInt8) :=
  match Text.offset? [']'] 0 text with
  | none => return .error (.openArraySize name)
  | some close => do
    let inside ← take text 0 close
    return enclosedSize inside name

/-- The name of a type, with a precision before it or not. -/
def typeName (text : List Char) (pos : Nat) : Slicing (List Char × Nat) := do
  let (word, pos) ← nextWord text pos
  if Header.precisions.any (·.toList = word) then nextWord text pos else return (word, pos)

/-- The array size behind a name, in a statement whose `;` is at `eol`. -/
def sizeBehind (text : List Char) (pos eol : Nat) (name : String) :
    Slicing (Except Malformed UInt8) := do
  if peek text pos = some (.ofNat '['.toNat) then
    let size ← sliceTo text (bump text pos) (eol + 1)
    arraySize size name
  else return .ok 1

/-- The binding that a `uniform` statement declares, read behind its first word. -/
def declaration (text : List Char) (pos eol : Nat) (statement : List Char) : Slicing Turn := do
  let (type, pos) ← typeName text pos
  let (name, pos) ← nextWord text pos
  if type.isEmpty || name.isEmpty then
    return .finish (.malformed (.incompleteUniform (.ofList statement)))
  else match ← sizeBehind text pos eol (.ofList name) with
    | .error cause => return .finish (.malformed cause)
    | .ok size =>
      let next ← skipLine text (seek text pos eol)
      return .move (some (.declared (.ofList name) (.ofName (.ofList type)) size)) eol next

/-- A statement whose `;` is at `eol`. -/
def statementBefore (text : List Char) (pos eol : Nat) : Slicing Turn := do
  let statement ← take text pos eol
  let (qualifier, pos) ← nextWord text pos
  let rest ← rest text pos
  if Header.isSkipped qualifier rest then return .move none eol (seek text pos (eol + 1))
  else if qualifier = "uniform".toList then declaration text pos eol statement
  else return .finish (.headerEnd pos (.ofList qualifier))

/-- The next statement of a header. -/
def statement (text : List Char) (pos : Nat) : Slicing Turn :=
  toSemicolon text pos (fun _ => return .finish .complete) (statementBefore text)

/-- The name and the array size in a declarator. -/
def nameAndSize (declarator : List Char) : Slicing (Except Malformed (List Char × UInt8)) :=
  match Text.offset? ['['] 0 declarator with
  | none => return .ok (declarator, 1)
  | some bracket => do
    let name ← take declarator 0 bracket
    let size ← rest declarator (bracket + 1)
    let called ← take declarator 0 bracket
    let size ← arraySize size (.ofList called)
    return size.map (Text.trimEnd name, ·)

/-- A field whose `;` is at `eol`. -/
def fieldBefore (text : List Char) (pos eol : Nat) : Slicing Turn := do
  let (type, pos) ← nextWord text pos
  let declarator ← sliceTo text pos eol
  match ← nameAndSize (Text.trim declarator) with
  | .error cause => return .finish (.malformed cause)
  | .ok (name, size) =>
    if type.isEmpty || name.isEmpty then
      let declarator ← sliceTo text pos eol
      return .finish (.malformed (.incompleteField (.ofList (Text.trim declarator))))
    else
      return .move (some (.field (.ofList name) (.ofName (.ofList type)) size)) eol
        (seek text pos (eol + 1))

/-- The rest of the uniform struct, which has no `;`. -/
def openField (text : List Char) (pos : Nat) : Slicing Turn := do
  let rest ← rest text pos
  return .finish (.malformed (.openField (.ofList (Text.trim rest))))

/-- The next field of the uniform struct. -/
def field (text : List Char) (pos : Nat) : Slicing Turn :=
  toSemicolon text pos (openField text) (fieldBefore text)

/-- The text between the opening and the closing of the uniform struct. -/
def structBody (source : List Char) : Slicing (Except Findings (List Char)) := do
  match ← behind source StructFields.opening with
  | none => return .error ⟨[], .complete⟩
  | some text =>
    match ← before text StructFields.closing with
    | none => return .error ⟨[], .malformed .openStruct⟩
    | some body => return .ok body

/-- The slot in the annotation of a parameter, read from `start` on. -/
def slot (text : List Char) (pos start : Nat) (name : List Char) : Slicing Turn := do
  let rest ← rest text start
  match Text.offset? [')'] start rest with
  | none => return .finish (.malformed (.openTexture (.ofList name)))
  | some close =>
    let slot ← take text start close
    match EntryTextures.inSlot name (Text.trim slot) with
    | .error cause => return .finish (.malformed cause)
    | .ok binding => return .move (some binding) close (seek text pos (close + 1))

/-- The next annotated parameter of the entry point. -/
def parameter (text : List Char) (pos : Nat) : Slicing Turn := do
  match ← find text pos EntryTextures.slotMark with
  | none => return .finish .complete
  | some mark =>
    let front ← sliceTo text pos mark
    let start := mark + width EntryTextures.slotMark.toList
    slot text pos start (EntryTextures.parameterName front)

/-- The text between the opening of the entry point and the brace of its body. -/
def parameterList (source : List Char) : Slicing (Except Findings (List Char)) := do
  match ← behind source EntryTextures.opening with
  | none => return .error ⟨[], .complete⟩
  | some text =>
    match ← before text EntryTextures.bodyOpening with
    | none => return .ok text
    | some list => return .ok list

end Bytewise

/-- The search through a declaration header. -/
def Header.scanner : Scanner where
  mark := ';'
  enter source := pure (.ok source)
  turn := Bytewise.statement

/-- The search through the uniform struct. -/
def StructFields.scanner : Scanner where
  mark := ';'
  enter := Bytewise.structBody
  turn := Bytewise.field

/-- The search through the parameters of the entry point. -/
def EntryTextures.scanner : Scanner where
  mark := ')'
  enter := Bytewise.parameterList
  turn := Bytewise.parameter

end ShaderPack.Recovery
