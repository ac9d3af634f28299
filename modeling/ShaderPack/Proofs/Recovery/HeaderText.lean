import ShaderPack.Proofs.Recovery.HeaderScan
import ShaderPack.Source.Directives

namespace ShaderPack.Recovery

open Source (afterLine)
open Text

/-!
# Declaration headers — the scan as a function of the text

A scan moves a cursor, but what it finds depends on the text alone.  Here it is said without
offsets: `readDeclaration` is the binding that a statement declares or why there is none,
`declared?` is that without the reason, `progress` is what the first statement of a text does to
the scan, and `bindings?` repeats that.

* `declaration?_text` — a declaration is read as `readDeclaration` says;
* `statement?_text` — all that one step of the scan does with a statement;
* `statement?_progress` — one step of the scan makes the progress that `progress` says;
* `table_scan` — the table of a source is made of `bindings?`, and there is none exactly where
  `bindings?` has no answer.
-/

/-! ### Findings -/

/-- What a search found, unless a declaration is malformed. -/
def Findings.bindings? (f : Findings) : Option (List Binding) :=
  match f.ending with
  | .malformed _ => none
  | _ => some f.offered

namespace Findings

/-- The table of a search is made of what it found. -/
theorem toOption_table (f : Findings) :
    f.table.toOption = f.bindings?.map BindingTable.ofList := by
  unfold table bindings?
  cases f.ending <;> rfl

/-- What is found before a search is found before all that it finds. -/
theorem bindings?_offer (f : Findings) (found : Option Binding) :
    (found.elim f f.offer).bindings? = f.bindings?.map (found.toList ++ ·) := by
  obtain ⟨offered, ending⟩ := f
  cases found <;> cases ending <;> rfl

theorem bindings?_of_regular {ending : Ending} (h : ∀ cause, ending ≠ .malformed cause) :
    bindings? ⟨[], ending⟩ = some [] := by
  cases ending with
  | malformed cause => exact absurd rfl (h cause)
  | _ => rfl

end Findings

namespace Header

/-! ### One declaration -/

/-- The name of the type that a text begins with, behind a precision or not, and the text
    behind it. -/
def typeIn (s : List Char) : List Char × List Char :=
  if firstWord s ∈ precisions.map String.toList then
    (firstWord (behindWord s), behindWord (behindWord s))
  else (firstWord s, behindWord s)

/-- The array size in front of the first closing bracket, if it is well-formed. -/
def sizeInside? (text : List Char) : Option UInt8 :=
  (cutAt? ']' text).bind fun (inside, _) =>
    (Decimal.parse? arraySizeLimit (trim inside)).bind fun size =>
      if 1 ≤ size ∧ size ≤ 255 then some (.ofNat size) else none

/-- The array size that a text begins with, if it is well-formed; 1 without brackets. -/
def sizeIn? (s : List Char) : Option UInt8 :=
  if s.head? = some '[' then sizeInside? s.tail else some 1

/-- The binding that a statement declares, given the text behind its first word, if nothing
    in it is malformed. -/
def declared? (s : List Char) : Option Binding :=
  let (type, behind) := typeIn s
  let name := firstWord behind
  if type = [] ∨ name = [] then none
  else (sizeIn? (behindWord behind)).map fun size =>
    .declared (.ofList name) (.ofName (.ofList type)) size

/-- The array size that a text begins with, for the array of this name; 1 without brackets. -/
def readSize (name : String) (s : List Char) : Except Malformed UInt8 :=
  if s.head? = some '[' then arraySize s.tail name else .ok 1

/-- The binding that a statement declares, given the text behind its first word, or why it
    cannot be read. -/
def readDeclaration (statement s : List Char) : Except Malformed Binding :=
  let (type, behind) := typeIn s
  let name := firstWord behind
  if type = [] ∨ name = [] then .error (.incompleteUniform (.ofList statement))
  else (readSize (.ofList name) (behindWord behind)).map fun size =>
    .declared (.ofList name) (.ofName (.ofList type)) size

/-! ### Reading one declaration -/

variable {c : Cursor} {before after : List Char} {eol : Nat}

/-- An array size is well-formed whatever the name of the array is. -/
theorem toOption_arraySize (text : List Char) (name : String) :
    (arraySize text name).toOption = sizeInside? text := by
  unfold arraySize sizeInside?
  cases cutAt? ']' text with
  | none => rfl
  | some cut =>
    simp only [Option.bind_some]
    cases Decimal.parse? arraySizeLimit (trim cut.1) with
    | none => rfl
    | some size =>
      simp only [Option.bind_some]
      split <;> rfl

/-- The `;` of a statement is no part of its array size. -/
theorem arraySize_append (text : List Char) (name : String) :
    arraySize (text ++ [';']) name = arraySize text name := by
  unfold arraySize
  rcases cutAt?_cases ']' text with ⟨hnone, hcut⟩ | ⟨inside, behind, rfl, hinside, hcut⟩
  · rw [hcut, cutAt?_eq_none (by simp [hnone])]
  · rw [hcut, List.append_assoc, List.cons_append, cutAt?_append_cons hinside]

theorem toOption_readSize (name : String) (s : List Char) :
    (readSize name s).toOption = sizeIn? s := by
  unfold readSize sizeIn?
  split
  · exact toOption_arraySize s.tail name
  · rfl

/-- A declaration is well-formed whatever the statement it stands in. -/
theorem toOption_readDeclaration (statement s : List Char) :
    (readDeclaration statement s).toOption = declared? s := by
  simp only [readDeclaration, declared?]
  split
  · rfl
  · rw [← toOption_readSize (.ofList (firstWord (typeIn s).2))]
    cases readSize (.ofList (firstWord (typeIn s).2)) (behindWord (typeIn s).2) <;> rfl

/-- The size of a declaration is read off the text behind its name. -/
theorem sizeBehind?_text (h : c.Faces before ';' after eol) (name : String) :
    sizeBehind? c eol name = some (readSize name before) := by
  have hhead : c.rest.head? = some '[' ↔ before.head? = some '[' := by
    rw [h.rest_eq]
    cases before <;> simp
  by_cases hopen : before.head? = some '['
  · obtain ⟨inside, rfl⟩ := List.head?_eq_some_iff.mp hopen
    have hslice : c.bump.sliceTo? (eol + 1) = some (inside ++ [';']) :=
      (Cursor.Faces.bump (y := '[') h rfl).sliceTo?_through
    simp [sizeBehind?, Cursor.rest?_eq h.onBoundary, hhead, hslice, readSize, arraySize_append]
  · simp [sizeBehind?, Cursor.rest?_eq h.onBoundary, hhead, readSize, hopen]

/-- The type of a declaration is read off the text behind its first word. -/
theorem typeName?_text (h : c.Faces before ';' after eol) :
    ∃ next, typeName? c = some ((typeIn before).1, next) ∧
      next.Faces (typeIn before).2 ';' after eol := by
  have hany : precisions.any (·.toList = firstWord before) = true ↔
      firstWord before ∈ precisions.map String.toList := by simp
  obtain ⟨c₁, h₁, hf₁⟩ := h.nextWord? rfl rfl
  by_cases hprecision : firstWord before ∈ precisions.map String.toList
  · obtain ⟨c₂, h₂, hf₂⟩ := hf₁.nextWord? rfl rfl
    rw [typeIn, if_pos hprecision]
    refine ⟨c₂, ?_, hf₂⟩
    simp only [typeName?, h₁, Option.bind_eq_bind, Option.bind_some, if_pos (hany.mpr hprecision),
      h₂]
  · rw [typeIn, if_neg hprecision]
    refine ⟨c₁, ?_, hf₁⟩
    simp only [typeName?, h₁, Option.bind_eq_bind, Option.bind_some,
      if_neg (mt hany.mp hprecision)]
    rfl

/-- A declaration is read as `readDeclaration` says; behind it the scan goes on in the next
    line. -/
theorem declaration?_text (h : c.Faces before ';' after eol) (statement : List Char) :
    ∃ next, next.OnBoundary ∧ next.rest = nextLine (';' :: after) ∧
      declaration? c eol statement = some (match readDeclaration statement before with
        | .error cause => .finish (.malformed cause)
        | .ok b => .move (some b) next) := by
  obtain ⟨c₁, h₁, hf₁⟩ := typeName?_text h
  obtain ⟨c₂, h₂, hf₂⟩ := hf₁.nextWord? rfl rfl
  have hseek : c₂.seek eol = ⟨eol, 0, ';' :: after⟩ := hf₂.ahead.seek
  obtain ⟨next, hnext, hboundary, hrest⟩ :=
    Cursor.skipLine?_eq (Cursor.onBoundary_mk eol (';' :: after))
  refine ⟨next, hboundary, hrest, ?_⟩
  simp only [declaration?, readDeclaration, h₁, h₂, Option.bind_eq_bind, Option.bind_some,
    Bool.or_eq_true, List.isEmpty_iff]
  by_cases hempty : (typeIn before).1 = [] ∨ firstWord (typeIn before).2 = []
  · rw [if_pos hempty, if_pos hempty]
    rfl
  · rw [if_neg hempty, if_neg hempty, sizeBehind?_text hf₂, Option.bind_some]
    cases readSize (.ofList (firstWord (typeIn before).2)) (behindWord (typeIn before).2) with
    | error cause => rfl
    | ok size =>
      rw [hseek, hnext]
      rfl

/-- Behind a declaration the scan stands in the next line. -/
theorem at_afterLine {next : Cursor} {line : List Char} (hnext : next.OnBoundary)
    (hrest : next.rest = nextLine (';' :: line)) : At next (afterLine line) := by
  have hline : afterLine (';' :: line) = afterLine line := rfl
  exact ⟨hnext, by rw [hrest, nextLine_eq, hline, dropWhile_dropWhile]⟩

/-! ### One statement -/

/-- What the first statement of a text does to a scan. -/
inductive Progress
  /-- The header ends in front of it, or no statement is left. -/
  | ends
  | malformed
  /-- The scan goes on in front of `rest`, having found a binding or not. -/
  | goesOn (found : Option Binding) (rest : List Char)
  deriving DecidableEq

/-- The progress at the beginning of a text. -/
def progress (s : List Char) : Progress :=
  match cutAt? ';' s with
  | none => .ends
  | some (before, after) =>
    if Skippable before then .goesOn none after
    else if firstWord before = "uniform".toList then
      match declared? (behindWord before) with
      | none => .malformed
      | some b => .goesOn (some b) (afterLine after)
    else .ends

/-- A step of the scan makes some progress. -/
def Progress.Describes (step : Option Step) : Progress → Prop
  | ends => ∃ ending, step = some (.finish ending) ∧ ∀ cause, ending ≠ .malformed cause
  | malformed => ∃ cause, step = some (.finish (.malformed cause))
  | goesOn found rest => ∃ next, step = some (.move found next) ∧ At next rest

/-- A scan goes on exactly behind a statement that is passed over, and in the line behind one
    that declares a binding. -/
theorem progress_eq_goesOn {s rest : List Char} {found : Option Binding} :
    progress s = .goesOn found rest ↔
      ∃ before after, s = before ++ ';' :: after ∧ ';' ∉ before ∧
        (Skippable before ∧ found = none ∧ rest = after ∨
          ¬Skippable before ∧ firstWord before = "uniform".toList ∧
            ∃ b, declared? (behindWord before) = some b ∧ found = some b ∧
              rest = afterLine after) := by
  constructor
  · intro h
    rcases cutAt?_cases ';' s with ⟨-, hcut⟩ | ⟨before, after, rfl, hsingle, hcut⟩
    · simp [progress, hcut] at h
    · refine ⟨before, after, rfl, hsingle, ?_⟩
      simp only [progress, hcut] at h
      by_cases hskip : Skippable before
      · rw [if_pos hskip] at h
        cases h
        exact .inl ⟨hskip, rfl, rfl⟩
      · rw [if_neg hskip] at h
        by_cases hopens : firstWord before = "uniform".toList
        · rw [if_pos hopens] at h
          cases hdeclared : declared? (behindWord before) with
          | none => simp [hdeclared] at h
          | some b =>
            rw [hdeclared] at h
            cases h
            exact .inr ⟨hskip, hopens, b, rfl, rfl, rfl⟩
        · rw [if_neg hopens] at h
          cases h
  · rintro ⟨before, after, rfl, hsingle, ⟨hskip, rfl, rfl⟩ | ⟨hkept, hopens, b, hb, rfl, rfl⟩⟩
    · simp only [progress, cutAt?_append_cons hsingle, if_pos hskip]
    · simp only [progress, cutAt?_append_cons hsingle, if_neg hkept, if_pos hopens, hb]

/-- Going on leaves less text. -/
theorem length_lt_of_progress {s rest : List Char} {found : Option Binding}
    (h : progress s = .goesOn found rest) : rest.length < s.length := by
  obtain ⟨before, after, rfl, -, hcases⟩ := progress_eq_goesOn.mp h
  have hline := Source.length_afterLine_le after
  simp only [List.length_append, List.length_cons]
  rcases hcases with ⟨-, -, rfl⟩ | ⟨-, -, b, -, -, rfl⟩
  · omega
  · omega

/-- **What a step does** with a statement is said by the statement alone, but for the offset at
    which a header ends. -/
theorem statement?_text (h : At c (before ++ ';' :: after)) (hsingle : ';' ∉ before) :
    ∃ behind next offset, At behind after ∧ At next (afterLine after) ∧
      statement? c = some (
        if Skippable before then .move none behind
        else if firstWord before = "uniform".toList then
          match readDeclaration (before.dropWhile isSpace) (behindWord before) with
          | .error cause => .finish (.malformed cause)
          | .ok b => .move (some b) next
        else .finish (.headerEnd offset (.ofList (firstWord before)))) := by
  obtain ⟨c₁, eol, hf₁, hstatement⟩ := statement?_eq h hsingle
  obtain ⟨c₂, hf₂, hbefore⟩ := statementBefore?_eq hf₁
  rw [behindWord_dropWhile] at hf₂
  obtain ⟨next, hboundary, hrest, hread⟩ := declaration?_text hf₂ (before.dropWhile isSpace)
  refine ⟨⟨eol + 1, 0, after⟩, next, c₂.pos, ⟨rfl, rfl⟩, at_afterLine hboundary hrest, ?_⟩
  rw [hstatement, hbefore, hread]
  simp only [skippable_dropWhile, firstWord_dropWhile, apply_ite some]

/-- **One step of a scan** makes the progress that the text in front of the cursor says. -/
theorem statement?_progress {s : List Char} (h : At c s) :
    (progress s).Describes (statement? c) := by
  rcases cutAt?_cases ';' s with ⟨hendless, hcut⟩ | ⟨before, after, rfl, hsingle, hcut⟩
  · rw [progress, hcut]
    exact ⟨_, statement?_unfinished h hendless, by simp⟩
  · obtain ⟨behind, next, offset, hbehind, hnext, hstep⟩ := statement?_text h hsingle
    rw [hstep]
    simp only [progress, hcut]
    by_cases hskip : Skippable before
    · rw [if_pos hskip, if_pos hskip]
      exact ⟨behind, rfl, hbehind⟩
    · rw [if_neg hskip, if_neg hskip]
      by_cases huniform : firstWord before = "uniform".toList
      · rw [if_pos huniform, if_pos huniform,
          ← toOption_readDeclaration (before.dropWhile isSpace)]
        cases readDeclaration (before.dropWhile isSpace) (behindWord before) with
        | error cause => exact ⟨cause, rfl⟩
        | ok b => exact ⟨next, rfl, hnext⟩
      · rw [if_neg huniform, if_neg huniform]
        exact ⟨_, rfl, by simp⟩

/-! ### Whole headers -/

/-- The bindings that the header of a text declares, of known type or not, unless one of its
    declarations is malformed. -/
def bindings? (s : List Char) : Option (List Binding) :=
  match h : progress s with
  | .ends => some []
  | .malformed => none
  | .goesOn found rest =>
    have := length_lt_of_progress h
    (bindings? rest).map (found.toList ++ ·)
termination_by s.length

theorem bindings?_ends {s : List Char} (h : progress s = .ends) : bindings? s = some [] := by
  unfold bindings?
  split <;> simp_all

theorem bindings?_malformed {s : List Char} (h : progress s = .malformed) :
    bindings? s = none := by
  unfold bindings?
  split <;> simp_all

theorem bindings?_goesOn {s rest : List Char} {found : Option Binding}
    (h : progress s = .goesOn found rest) :
    bindings? s = (bindings? rest).map (found.toList ++ ·) := by
  conv => lhs; unfold bindings?
  split <;> simp_all

/-- **A run finds what the text in front of the cursor declares.** -/
theorem run?_bindings {c : Cursor} {s : List Char} (h : At c s) :
    ∃ f, statements.run? c = some f ∧ f.bindings? = bindings? s := by
  -- the induction is on what is left of the text; `At` is what a step hands on
  induction hlen : s.length using Nat.strongRecOn generalizing c s with
  | _ len ih =>
    have hstep := statement?_progress h
    cases hprogress : progress s with
    | ends =>
      rw [hprogress] at hstep
      obtain ⟨ending, hfinish, hregular⟩ := hstep
      exact ⟨_, statements.run?_finish hfinish, by
        rw [bindings?_ends hprogress, Findings.bindings?_of_regular hregular]⟩
    | malformed =>
      rw [hprogress] at hstep
      obtain ⟨cause, hfinish⟩ := hstep
      exact ⟨_, statements.run?_finish hfinish, (bindings?_malformed hprogress).symm⟩
    | goesOn found rest =>
      rw [hprogress] at hstep
      obtain ⟨next, hmove, hat⟩ := hstep
      obtain ⟨f, hrun, hfound⟩ := ih _ (hlen ▸ length_lt_of_progress hprogress) hat rfl
      refine ⟨found.elim f f.offer, ?_, ?_⟩
      · rw [statements.run?_move hmove, hrun]
        rfl
      · rw [Findings.bindings?_offer, hfound, bindings?_goesOn hprogress]

/-- **The table of a source** is made of the bindings that its header declares; without them
    there is none. -/
theorem table_scan (source : String) :
    (scan source).table.toOption = (bindings? source.toList).map BindingTable.ofList := by
  have hat : At (.ofList source.toList) source.toList := ⟨rfl, rfl⟩
  obtain ⟨f, hrun, hfound⟩ := run?_bindings hat
  have hscan : scan source = f := Option.get_of_eq_some _ hrun
  rw [hscan, Findings.toOption_table, hfound]

theorem table_scan_eq_ok {source : String} {table : BindingTable} :
    (scan source).table = .ok table ↔
      ∃ found, bindings? source.toList = some found ∧ .ofList found = table := by
  rw [← Option.map_eq_some_iff, ← table_scan]
  cases (scan source).table <;> simp [Except.toOption]

/-- The table of a source with one declaration. -/
theorem table_scan_single {source : String} {b : Binding}
    (h : progress source.toList = .goesOn (some b) []) :
    (scan source).table = .ok (.ofList [b]) := by
  refine table_scan_eq_ok.mpr ⟨[b], ?_, rfl⟩
  rw [bindings?_goesOn h, bindings?_ends rfl]
  rfl

end Header

end ShaderPack.Recovery
