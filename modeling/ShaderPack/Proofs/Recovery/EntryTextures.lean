import ShaderPack.Proofs.Recovery.ArraySize
import ShaderPack.Proofs.Text.Occurrences
import ShaderPack.Recovery.EntryTextures

namespace ShaderPack.Recovery.EntryTextures

open Text

/-!
# Textures of the entry point — scanning what was written

The parameters of an entry point are written as a `ParameterList`: parameters between commas,
with or without a texture annotation.  What is in front of a name, and what a parameter
without annotation is made of, may be any text without `slotMark`.

The scan goes from annotation to annotation and takes the name from the text in front, where
the rest of earlier parameters still stands.

* `inSlot_eq_ok` — a slot is read exactly where an `AcceptedSlot` stands, as a `WrittenSlot` is;
* `parameter?_annotated` — one step reads one annotated parameter, whatever clear text comes
  before it;
* `run?_parameters` — a run finds the textures of all annotated parameters;
* `scan_parameters` — so does a scan of any text in which the list stands between the first
  opening of the entry point and a brace.
-/

/-! ### Slots -/

/-- A slot as it is accepted between parentheses. -/
structure AcceptedSlot where
  before : List Char
  blankBefore : ∀ c ∈ before, isBlank c = true
  number : Numeral
  upper : number.value ≤ slotLimit
  after : List Char
  blankAfter : ∀ c ∈ after, isBlank c = true

namespace AcceptedSlot

/-- The text between the parentheses. -/
def text (s : AcceptedSlot) : List Char := s.before ++ s.number.text ++ s.after

/-- The number of the slot. -/
def slot (s : AcceptedSlot) : UInt16 := .ofNat s.number.value

theorem toNat_slot (s : AcceptedSlot) : s.slot.toNat = s.number.value := by
  have hlimit : s.number.value ≤ 65535 := s.upper
  exact UInt16.toNat_ofNat_of_lt (by simp only [UInt16.size]; omega)

/-- The parenthesis behind a slot is the first one. -/
theorem parenthesis_notMem (s : AcceptedSlot) : ')' ∉ s.text :=
  s.number.notMem_append s.blankBefore s.blankAfter (by decide) (by decide) (by decide)

/-- No annotation begins in a slot. -/
theorem bracket_notMem (s : AcceptedSlot) : '[' ∉ s.text :=
  s.number.notMem_append s.blankBefore s.blankAfter (by decide) (by decide) (by decide)

/-- The white space around a slot is taken away. -/
theorem trim_text (s : AcceptedSlot) : trim s.text = s.number.text :=
  s.number.trim_append s.blankBefore s.blankAfter

end AcceptedSlot

/-- **A slot is read exactly where an accepted one stands**, if there is a name for it. -/
theorem inSlot_eq_ok {name inside : List Char} {b : Binding} :
    inSlot name (trim inside) = .ok b ↔
      name ≠ [] ∧ ∃ s : AcceptedSlot, inside = s.text ∧ b = .inSlot (.ofList name) s.slot := by
  constructor
  · intro h
    rw [inSlot] at h
    split at h
    · cases h
    · next hname =>
      split at h
      · cases h
      · next value hparse =>
        obtain ⟨before, after, number, hbefore, hafter, rfl, rfl, hlimit⟩ :=
          exists_of_parse?_trim hparse
        cases h
        exact ⟨by simpa using hname,
          ⟨before, hbefore, number, hlimit, after, hafter⟩, rfl, rfl⟩
  · rintro ⟨hname, s, rfl, rfl⟩
    have hparse : Decimal.parse? slotLimit (trim s.text) = some s.number.value :=
      parse?_eq_some.mpr ⟨s.number, s.trim_text, rfl, s.upper⟩
    rw [inSlot, if_neg (by simpa using hname), hparse]
    rfl

/-! ### What a parameter list is written as -/

/-- White space of any kind; it may be empty. -/
structure WhiteSpace where
  text : List Char
  white : text.all isBlank = true

theorem WhiteSpace.isBlank (w : WhiteSpace) : ∀ c ∈ w.text, Text.isBlank c = true := by
  have h := w.white
  rwa [List.all_eq_true] at h

/-- A slot as it is written between the parentheses of an annotation. -/
structure WrittenSlot where
  before : WhiteSpace
  digits : List Char
  decimal : digits.all Char.isDigit = true
  nonempty : digits ≠ []
  upper : Decimal.value digits ≤ slotLimit
  after : WhiteSpace

namespace WrittenSlot

/-- The text between the parentheses. -/
def text (w : WrittenSlot) : List Char := w.before.text ++ w.digits ++ w.after.text

/-- The number of the slot. -/
def slot (w : WrittenSlot) : UInt16 := .ofNat (Decimal.value w.digits)

/-- What is written is accepted. -/
def accepted (w : WrittenSlot) : AcceptedSlot where
  before := w.before.text
  blankBefore := w.before.isBlank
  number := ⟨false, w.digits, w.decimal, w.nonempty⟩
  upper := w.upper
  after := w.after.text
  blankAfter := w.after.isBlank

theorem text_accepted (w : WrittenSlot) : w.accepted.text = w.text := rfl

end WrittenSlot

/-- A parameter with a texture annotation: any text up to white space, a name, the annotation
    and what follows it, such as the parenthesis that closes the list. -/
structure Annotated where
  lead : List Char
  unmarked : ¬slotMark.toList <:+: lead
  space : Char
  separated : isBlank space = true
  name : Word
  nameBlanks : WhiteSpace
  slot : WrittenSlot
  behind : List Char
  single : ¬slotMark.toList <:+: behind

namespace Annotated

/-- The text in front of the annotation. -/
def declarator (a : Annotated) : List Char :=
  a.lead ++ a.space :: (a.name.text ++ a.nameBlanks.text)

/-- The text behind the parentheses of the annotation. -/
def closing (a : Annotated) : List Char := ']' :: ']' :: a.behind

def text (a : Annotated) : List Char :=
  a.declarator ++ (slotMark.toList ++ (a.slot.text ++ (")".toList ++ a.closing)))

/-- The texture that is bound. -/
def binding (a : Annotated) : Binding := .inSlot (.ofList a.name.text) a.slot.slot

end Annotated

/-- One parameter. -/
inductive Parameter
  | plain (text : List Char) (unmarked : ¬slotMark.toList <:+: text)
  | annotated (parameter : Annotated)

namespace Parameter

def text : Parameter → List Char
  | plain text _ => text
  | annotated a => a.text

def annotated? : Parameter → Option Annotated
  | plain _ _ => none
  | annotated a => some a

end Parameter

/-- The text of parameters between commas. -/
def separated (ps : List Parameter) : List Char := [','].intercalate (ps.map Parameter.text)

/-- The parameters of an entry point; no brace stands in them. -/
structure ParameterList where
  parameters : List Parameter
  unbraced : '\x7b' ∉ separated parameters

namespace ParameterList

def text (l : ParameterList) : List Char := separated l.parameters

/-- The annotated parameters, in order. -/
def annotated (l : ParameterList) : List Annotated := l.parameters.filterMap (·.annotated?)

end ParameterList

/-- Behind the first parameter, each one is written behind a comma. -/
theorem separated_cons (p : Parameter) (ps : List Parameter) :
    separated (p :: ps) = p.text ++ ps.flatMap fun q => ',' :: q.text := by
  induction ps generalizing p with
  | nil => simp [separated]
  | cons q ps ih =>
    have hcons : separated (p :: q :: ps) = p.text ++ [','] ++ separated (q :: ps) :=
      List.intercalate_cons_cons
    rw [hcons, ih, List.flatMap_cons]
    simp

/-! ### One parameter -/

variable {c : Cursor}

/-- Where an annotation begins, no occurrence has begun before. -/
theorem Annotated.clear_declarator (a : Annotated) : Clear slotMark.toList a.declarator := by
  have hspace : a.space ∉ slotMark.toList := fun h => by
    have hmark : slotMark.toList.any isBlank = false := by decide
    exact List.any_eq_false.mp hmark a.space h a.separated
  have hopen : '[' ∉ a.name.text ++ a.nameBlanks.text := by
    have hname : '[' ∉ a.name.text := fun h => absurd (a.name.word _ h) (by decide)
    have hblanks : '[' ∉ a.nameBlanks.text := fun h =>
      absurd (a.nameBlanks.isBlank _ h) (by decide)
    simp [hname, hblanks]
  have hlead : Clear slotMark.toList (a.lead ++ [a.space]) := Clear.of_free a.unmarked hspace
  rw [declarator, ← List.singleton_append, ← List.append_assoc]
  exact hlead.append (Clear.of_notMem (x := '[') (by decide) hopen)

/-- The brackets that close an annotation begin no other one. -/
theorem Annotated.closing_free (a : Annotated) : ¬slotMark.toList <:+: a.closing := by
  have hbrackets : Clear slotMark.toList [']', ']'] :=
    Clear.of_notMem (x := '[') (by decide) (by decide)
  intro h
  exact a.single (hbrackets a.behind h)

/-- The name is the last word in front of the annotation. -/
theorem parameterName_declarator (front : List Char) (a : Annotated) :
    parameterName (front ++ a.declarator) = a.name.text := by
  have hsplit : front ++ a.declarator =
      (front ++ a.lead ++ [a.space]) ++ a.name.text ++ a.nameBlanks.text := by
    simp [Annotated.declarator]
  have htrim : trimEnd (front ++ a.declarator) = front ++ a.lead ++ [a.space] ++ a.name.text := by
    rw [hsplit, trimEnd_append _ a.nameBlanks.isBlank, Word.trimEnd_append]
  have hname : ∀ x ∈ a.name.text.reverse, (!isBlank x && x != ',') = true := by
    intro x hx
    have hword : isWord x = true := a.name.word x (List.mem_reverse.mp hx)
    have hcomma : x ≠ ',' := by rintro rfl; exact absurd hword (by decide)
    simp [isBlank_of_isWord hword, hcomma]
  rw [parameterName, htrim, List.reverse_append, List.takeWhile_append_of_pos hname]
  simp [a.separated]

/-- The annotation of a named parameter binds its slot. -/
theorem inSlot_slot (a : Annotated) : inSlot a.name.text (trim a.slot.text) = .ok a.binding :=
  inSlot_eq_ok.mpr ⟨a.name.nonempty, a.slot.accepted, a.slot.text_accepted.symm, rfl⟩

theorem slotMark_closed : Closed slotMark.toList :=
  ⟨"[[texture".toList, '(', by decide, by decide⟩

theorem parenthesis_closed : Closed ")".toList := ⟨[], ')', by decide, by decide⟩

/-- **One step reads one annotated parameter**, whatever clear text comes before it, and
    stands behind the parentheses. -/
theorem parameter?_annotated (a : Annotated) (hc : c.OnBoundary) {front after : List Char}
    (hfront : Clear slotMark.toList front) (hrest : c.rest = front ++ (a.text ++ after)) :
    ∃ next, parameter? c = some (.move (some a.binding) next) ∧ next.OnBoundary ∧
      next.rest = a.closing ++ after := by
  have hfree : ¬slotMark.toList <:+: front ++ a.declarator :=
    (hfront.append a.clear_declarator).free (by decide)
  have hslot : ¬")".toList <:+: a.slot.text := by
    intro h
    exact a.slot.accepted.parenthesis_notMem (h.subset (by decide))
  have hparts : c.rest = (front ++ a.declarator) ++
      (slotMark.toList ++ (a.slot.text ++ (")".toList ++ (a.closing ++ after)))) := by
    simp [hrest, Annotated.text]
  obtain ⟨c₁, hcut, hc₁, hrest₁⟩ := Cursor.cut?_eq hc slotMark_closed hparts hfree
  obtain ⟨c₂, hclose, hc₂, hrest₂⟩ := Cursor.cut?_eq hc₁ parenthesis_closed hrest₁ hslot
  refine ⟨c₂, ?_, hc₂, hrest₂⟩
  simp [parameter?, hcut, hclose, parameterName_declarator, inSlot_slot]

/-! ### All parameters -/

/-- A run ends where no annotation is left, and has found nothing. -/
theorem run?_unmarked (hc : c.OnBoundary) (hfree : ¬slotMark.toList <:+: c.rest) :
    parameters.run? c = some ⟨[], .complete⟩ := by
  have hnone : c.cut? slotMark = some none := Cursor.cut?_eq_none hc hfree
  exact parameters.run?_finish (by simp [parameters, parameter?, hnone])

/-- A run over one parameter finds its texture, if it has one, and goes on behind text that
    is left of it. -/
theorem run?_parameter (p : Parameter) (hc : c.OnBoundary) {front after : List Char}
    (hfront : Clear slotMark.toList front) (hrest : c.rest = front ++ (p.text ++ after)) :
    ∃ next left, next.OnBoundary ∧ ¬slotMark.toList <:+: left ∧ next.rest = left ++ after ∧
      parameters.run? c = (parameters.run? next).map fun f =>
        (p.annotated?.map Annotated.binding).elim f f.offer := by
  cases p with
  | plain text unmarked =>
    refine ⟨c, front ++ text, hc, fun h => unmarked (hfront text h), by simp [hrest, Parameter.text],
      ?_⟩
    simp [Parameter.annotated?]
  | annotated a =>
    obtain ⟨next, hstep, hnext, hrest'⟩ := parameter?_annotated a hc hfront hrest
    exact ⟨next, a.closing, hnext, a.closing_free, hrest', parameters.run?_move hstep⟩

/-- A run over parameters behind commas finds all their textures, whatever clear text comes
    before the first one. -/
theorem run?_following (p : Parameter) (ps : List Parameter) (hc : c.OnBoundary)
    {front : List Char} (hfront : Clear slotMark.toList front)
    (hrest : c.rest = front ++ (p.text ++ ps.flatMap fun q => ',' :: q.text)) :
    parameters.run? c =
      some ⟨((p :: ps).filterMap (·.annotated?)).map Annotated.binding, .complete⟩ := by
  -- the induction is on the parameters that follow; the clear text is what is left of earlier ones
  induction ps generalizing c p front with
  | nil =>
    obtain ⟨next, left, hnext, hleft, hrest', hrun⟩ := run?_parameter p hc hfront hrest
    rw [List.flatMap_nil, List.append_nil] at hrest'
    rw [hrun, run?_unmarked hnext (by rwa [hrest'])]
    cases p <;> rfl
  | cons q ps ih =>
    obtain ⟨next, left, hnext, hleft, hrest', hrun⟩ := run?_parameter p hc hfront hrest
    have hcomma : Clear slotMark.toList (left ++ [',']) := Clear.of_free hleft (by decide)
    have hfollowing : next.rest =
        (left ++ [',']) ++ (q.text ++ ps.flatMap fun q => ',' :: q.text) := by
      simp [hrest']
    rw [hrun, ih q hnext hcomma hfollowing]
    cases p <;> rfl

/-- A run finds the textures of all annotated parameters of a list. -/
theorem run?_parameters (l : ParameterList) (hc : c.OnBoundary) (hrest : c.rest = l.text) :
    parameters.run? c = some ⟨l.annotated.map Annotated.binding, .complete⟩ := by
  obtain ⟨ps, unbraced⟩ := l
  cases ps with
  | nil =>
    have hnothing : c.rest = [] := hrest
    exact run?_unmarked hc (by rw [hnothing]; decide)
  | cons p ps =>
    rw [ParameterList.text, separated_cons] at hrest
    exact run?_following p ps hc Clear.nil hrest

theorem opening_closed : Closed opening.toList :=
  ⟨"xlatMtlShaderOutput xlatMtlMain ".toList, '(', by decide, by decide⟩

theorem bodyOpening_closed : Closed bodyOpening.toList := ⟨[], '\x7b', by decide, by decide⟩

/-- Only what stands between the opening of the entry point and its body is searched. -/
theorem scan?_encloses {source : String} {list : List Char}
    (h : Encloses opening.toList bodyOpening.toList list source.toList) :
    scan? source = parameters.run? (.ofList list) := by
  obtain ⟨before, c₁, c₂, hopen, hclose⟩ :=
    Cursor.cut?_encloses (Cursor.onBoundary_ofList source.toList) opening_closed
      bodyOpening_closed h
  simp [scan?, hopen, hclose]

/-- **The textures of an entry point are recovered exactly**, whatever stands around the
    parameters: in front of them, only a second opening would matter. -/
theorem scan_parameters (l : ParameterList) {source : String} {before after : List Char}
    (hsource : source.toList =
      before ++ (opening.toList ++ (l.text ++ (bodyOpening.toList ++ after))))
    (hfirst : ¬opening.toList <:+: before) :
    scan source = ⟨l.annotated.map Annotated.binding, .complete⟩ := by
  have hunbraced : ¬bodyOpening.toList <:+: l.text := fun h =>
    l.unbraced (h.subset (by decide))
  have hscan := scan?_encloses ⟨before, after, hsource, hfirst, hunbraced⟩
  have hrun := run?_parameters l (Cursor.onBoundary_ofList l.text) rfl
  exact Option.get_of_eq_some _ (hscan.trans hrun)

end ShaderPack.Recovery.EntryTextures
