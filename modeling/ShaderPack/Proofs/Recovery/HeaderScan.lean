import ShaderPack.Proofs.Recovery.HeaderGrammar

namespace ShaderPack.Recovery.Header

open Text

/-!
# Declaration headers — scanning what was written

A header is scanned statement by statement.  Each statement is read off the text up to its
`;` (`Cursor.Faces`), and what is left is the text that comes behind it, except for blanks
(`At`); so the scan of a `Layout` goes through its items in order.

* `statement?_item` — one step reads one item and stands in front of the next;
* `run?_layout` — a run finds the declarations of all items and of the tail;
* `table_scan_text` — the table of a header holds the bindings of exactly those declarations
  whose types are known.
-/

variable {c : Cursor} {after : List Char} {eol : Nat}

/-! ### Parts of a declaration -/

/-- A type is read with or without a precision in front of it. -/
theorem typeName?_eq {p : Option Precision} {type : Word} {rest : List Char}
    (hplain : type.text ∉ precisions.map String.toList) (hrest : Stops rest)
    (h : c.Faces (p.elim [] Precision.text ++ (type.text ++ rest)) ';' after eol) :
    ∃ next, typeName? c = some (type.text, next) ∧
      next.Faces (rest.dropWhile isSpace) ';' after eol := by
  have hany (word : List Char) : precisions.any (·.toList = word) = true ↔
      word ∈ precisions.map String.toList := by simp
  cases p with
  | none =>
    -- the first word is the type, since it is no precision
    obtain ⟨c₁, h₁, hf₁⟩ := h.nextWord? rfl rfl
    rw [Option.elim_none, List.nil_append, firstWord_word type hrest] at h₁
    rw [Option.elim_none, List.nil_append, behindWord_word type hrest] at hf₁
    refine ⟨c₁, ?_, hf₁⟩
    simp only [typeName?, h₁, Option.bind_eq_bind, Option.bind_some,
      if_neg (mt (hany type.text).mp hplain)]
    rfl
  | some p =>
    -- the first word is the precision, and the type is read behind its gap
    have hstops : Stops (p.gap.text ++ (type.text ++ rest)) := Stops.gap p.gap _
    rw [Option.elim_some, Precision.text, List.append_assoc] at h
    obtain ⟨c₁, h₁, hf₁⟩ := h.nextWord? rfl rfl
    rw [firstWord_word p.keyword hstops] at h₁
    rw [behindWord_word p.keyword hstops, Blanks.dropWhile_append, Word.dropWhile_append] at hf₁
    obtain ⟨c₂, h₂, hf₂⟩ := hf₁.nextWord? rfl rfl
    rw [firstWord_word type hrest] at h₂
    rw [behindWord_word type hrest] at hf₂
    refine ⟨c₂, ?_, hf₂⟩
    simp only [typeName?, h₁, Option.bind_eq_bind, Option.bind_some,
      if_pos ((hany p.keyword.text).mpr p.known), h₂]

/-- An array size is read in its brackets; without brackets there is one element. -/
theorem sizeBehind?_eq {array : Option Brackets}
    (h : c.Faces (array.elim [] Brackets.text) ';' after eol) (name : String) :
    sizeBehind? c eol name = some (.ok (array.elim 1 fun b => b.inside.size)) := by
  cases array with
  | none =>
    have hrest : c.rest = ';' :: after := h.rest_eq
    simp [sizeBehind?, Cursor.rest?_eq h.onBoundary, hrest]
  | some b =>
    have hhead : c.rest.head? = some '[' := by rw [h.rest_eq]; rfl
    have hslice : c.bump.sliceTo? (eol + 1) =
        some (b.inside.text ++ ']' :: b.blanks.text ++ [';']) :=
      (Cursor.Faces.bump (y := '[') h rfl).sliceTo?_through
    simp only [sizeBehind?, Cursor.rest?_eq h.onBoundary, hhead, hslice, Option.bind_eq_bind,
      Option.bind_some, if_pos, List.append_assoc, List.cons_append, b.inside.arraySize_text]
    rfl

/-- What comes behind a name stops it. -/
theorem Brackets.stops (array : Option Brackets) : Stops (array.elim [] Brackets.text) := by
  cases array with
  | none => exact Stops.nil
  | some b => exact Stops.cons (by decide) _

/-- No blanks stand in front of brackets. -/
theorem Brackets.dropWhile_eq (array : Option Brackets) :
    (array.elim [] Brackets.text).dropWhile isSpace = array.elim [] Brackets.text := by
  cases array with
  | none => rfl
  | some b => rfl

/-! ### Declarations -/

namespace Declaration

/-- No blanks stand in front of a precision or a type. -/
theorem dropWhile_specification (d : Declaration) :
    d.specification.dropWhile isSpace = d.specification := by
  unfold specification
  cases d.precision with
  | none => exact d.type.dropWhile_append _
  | some p =>
    rw [Option.elim_some, Precision.text, List.append_assoc]
    exact p.keyword.dropWhile_append _

/-- A declaration opens with `uniform`. -/
theorem firstWord_text (d : Declaration) : firstWord d.text = "uniform".toList :=
  firstWord_word uniformWord (Stops.gap d.gap _)

/-- Behind `uniform` comes the precision or the type. -/
theorem behindWord_text (d : Declaration) : behindWord d.text = d.specification := by
  rw [text, behindWord_word uniformWord (Stops.gap d.gap _), Blanks.dropWhile_append,
    d.dropWhile_specification]

/-- No declaration is passed over. -/
theorem not_skippable (d : Declaration) : ¬Skippable d.text := by
  -- the second word is the precision or the type, and neither is the name of a temporary
  have hprecision : ∀ word ∈ precisions.map String.toList, ¬Temporary word := by decide
  have hnext : ¬Temporary (firstWord d.specification) := by
    unfold specification
    cases d.precision with
    | none =>
      rw [Option.elim_none, List.nil_append, firstWord_word d.type (Stops.gap d.typeGap _)]
      exact d.lasting
    | some p =>
      rw [Option.elim_some, Precision.text, List.append_assoc,
        firstWord_word p.keyword (Stops.gap p.gap _)]
      exact hprecision _ p.known
  unfold Skippable
  rw [d.firstWord_text, d.behindWord_text]
  rintro (hskipped | htemporary | htemporary)
  · exact absurd hskipped (by decide)
  · exact absurd htemporary (by decide)
  · exact hnext htemporary

/-- A declaration is a single statement. -/
theorem semicolon_notMem (d : Declaration) : ';' ∉ d.text := by
  have hword (w : Word) : ';' ∉ w.text := fun h => absurd (w.word _ h) (by decide)
  have hblank (b : Blanks) : ';' ∉ b.text := fun h => absurd (b.blank _ h) (by decide)
  have harray : ';' ∉ d.array.elim [] Brackets.text := by
    cases d.array with
    | none => simp
    | some b =>
      have hsize : ';' ∉ b.inside.text := b.inside.notMem_text (by decide) (by decide)
      simp [Brackets.text, hsize, hblank]
  have hprecision : ';' ∉ d.precision.elim [] Precision.text := by
    cases d.precision with
    | none => simp
    | some p => simp [Precision.text, hword, hblank]
  simp only [text, specification, declarator, List.mem_append, not_or]
  exact ⟨hword _, hblank _, hprecision, hword _, hblank _, hword _, hblank _, harray⟩

/-- A declaration is known exactly if its type is. -/
theorem isKnown_binding (d : Declaration) : d.binding.isKnown = decide (d.kind ≠ .unknown) := by
  show (d.kind != .unknown) = decide (d.kind ≠ .unknown)
  cases d.kind <;> rfl

end Declaration

/-! ### One statement -/

/-- The binding of a declaration is found, and the search goes on in the next line. -/
theorem declaration?_eq (d : Declaration) (h : c.Faces d.specification ';' after eol)
    (statement : List Char) :
    ∃ next, declaration? c eol statement = some (.move (some d.binding) next) ∧
      next.OnBoundary ∧ next.rest = nextLine (';' :: after) := by
  -- each word is read with the blanks behind it, so the next part is what is faced then
  obtain ⟨c₁, h₁, hf₁⟩ := typeName?_eq d.plain (Stops.gap d.typeGap _) h
  have hstops : Stops (d.nameBlanks.text ++ d.array.elim [] Brackets.text) :=
    Stops.blanks d.nameBlanks (Brackets.stops d.array)
  rw [Blanks.dropWhile_append, Declaration.declarator, Word.dropWhile_append] at hf₁
  obtain ⟨c₂, h₂, hf₂⟩ := hf₁.nextWord? rfl rfl
  rw [firstWord_word d.name hstops] at h₂
  rw [behindWord_word d.name hstops, Blanks.dropWhile_append, Brackets.dropWhile_eq] at hf₂
  have hsize : sizeBehind? c₂ eol (.ofList d.name.text) = some (.ok d.size) :=
    sizeBehind?_eq hf₂ _
  have hcomplete : (d.type.text.isEmpty || d.name.text.isEmpty) = false := by
    simp [d.type.nonempty, d.name.nonempty]
  have hseek : c₂.seek eol = ⟨eol, 0, ';' :: after⟩ := hf₂.ahead.seek
  obtain ⟨next, hnext, hboundary, hrest⟩ :=
    Cursor.skipLine?_eq (Cursor.onBoundary_mk eol (';' :: after))
  refine ⟨next, ?_, hboundary, hrest⟩
  simp only [declaration?, h₁, h₂, hsize, hcomplete, hseek, hnext, Option.bind_eq_bind,
    Option.bind_some]
  rfl

/-- What is done with a statement is decided by its words. -/
theorem statementBefore?_eq {before : List Char} (h : c.Faces before ';' after eol) :
    ∃ c₁, c₁.Faces (behindWord before) ';' after eol ∧
      statementBefore? c eol =
        if Skippable before then some (.move none ⟨eol + 1, 0, after⟩)
        else if firstWord before = "uniform".toList then declaration? c₁ eol before
        else some (.finish (.headerEnd c₁.pos (.ofList (firstWord before)))) := by
  obtain ⟨c₁, h₁, hf₁⟩ := h.nextWord? rfl rfl
  refine ⟨c₁, hf₁, ?_⟩
  -- the code looks at all that remains, but a `;` belongs to no word
  have hskipped : isSkipped (firstWord before) c₁.rest = true ↔ Skippable before := by
    rw [hf₁.rest_eq, ← firstWord_append_cons (x := ';') rfl rfl before after,
      ← behindWord_append_cons rfl rfl before after, isSkipped_iff, skippable_append]
  have hseek : c₁.seek (eol + 1) = ⟨eol + 1, 0, after⟩ := hf₁.ahead.seek_through
  simp only [statementBefore?, h.sliceTo?, h₁, Cursor.rest?_eq hf₁.onBoundary, hskipped, hseek,
    Option.bind_eq_bind, Option.bind_some]
  rfl

/-- The cursor can read, and it stands in front of `s`, except for blanks. -/
structure At (c : Cursor) (s : List Char) : Prop where
  onBoundary : c.OnBoundary
  rest_eq : c.rest.dropWhile isSpace = s.dropWhile isSpace

/-- The blanks in front of a text make no difference. -/
theorem At.of_blanks {b : Blanks} {s : List Char} (h : At c (b.text ++ s)) : At c s :=
  ⟨h.onBoundary, by rw [h.rest_eq, Blanks.dropWhile_append]⟩

/-- A text up to a `;` is read as one statement. -/
theorem statement?_eq {before : List Char} (h : At c (before ++ ';' :: after))
    (hsingle : ';' ∉ before) :
    ∃ c₁ eol, c₁.Faces (before.dropWhile isSpace) ';' after eol ∧
      statement? c = statementBefore? c₁ eol := by
  have hrest : c.rest.dropWhile isSpace = before.dropWhile isSpace ++ ';' :: after := by
    rw [h.rest_eq, Cursor.dropWhile_append_cons (by decide)]
  have hfirst : ';' ∉ before.dropWhile isSpace := fun hx =>
    hsingle ((List.dropWhile_suffix isSpace).subset hx)
  obtain ⟨c₁, eol, hskip, hmore, hfind, hfaces⟩ :=
    Cursor.Faces.of_skipSpace h.onBoundary hrest hfirst (show ";".toList = [';'] from rfl)
  refine ⟨c₁, eol, hfaces, ?_⟩
  simp [statement?, hskip, hmore, hfind]

/-- A text without a `;` has no statement. -/
theorem statement?_unfinished {s : List Char} (h : At c s) (hendless : ';' ∉ s) :
    statement? c = some (.finish .complete) := by
  have hskip : c.skipSpace? = _ := Cursor.skipWhile?_eq isSpace h.onBoundary
  rw [h.rest_eq] at hskip
  have hnone : ';' ∉ s.dropWhile isSpace := fun hx =>
    hendless ((List.dropWhile_suffix isSpace).subset hx)
  have hfind (start : Nat) :
      (Cursor.mk start 0 (s.dropWhile isSpace)).find? ";" = some none := by
    simp [Cursor.find?, Cursor.rest?_eq, offset?_eq_none hnone]
  simp [statement?, hskip, hfind]

/-! ### Items, tails and whole headers -/

/-- A declaration is found, and the search goes on in the next line. -/
theorem statement?_declaration {l : DeclarationLine} {rest : List Char}
    (h : At c (l.declaration.text ++ ';' :: (l.behind ++ rest))) :
    ∃ next, statement? c = some (.move (some l.declaration.binding) next) ∧
      next.OnBoundary ∧ next.rest = nextLine (';' :: l.behind ++ rest) := by
  obtain ⟨c₁, eol, hf₁, hstatement⟩ := statement?_eq h l.declaration.semicolon_notMem
  have hopens : l.declaration.text.dropWhile isSpace = l.declaration.text :=
    uniformWord.dropWhile_append _
  rw [hopens] at hf₁
  obtain ⟨c₂, hf₂, hbefore⟩ := statementBefore?_eq hf₁
  rw [l.declaration.behindWord_text] at hf₂
  rw [if_neg l.declaration.not_skippable, if_pos l.declaration.firstWord_text] at hbefore
  obtain ⟨next, hnext, hboundary, hrest⟩ :=
    declaration?_eq l.declaration hf₂ l.declaration.text
  refine ⟨next, ?_, hboundary, hrest⟩
  rw [hstatement, hbefore, hnext]

/-- **One step reads one item.** It finds the binding of a declaration and stands in front of
    the next item, except for blanks. -/
theorem statement?_item (blanks : Blanks) (item : Item) {rest : List Char}
    (h : At c (blanks.text ++ item.text ++ rest)) :
    ∃ next, statement? c = some (.move (item.declaration?.map Declaration.binding) next) ∧
      At next rest := by
  rw [List.append_assoc] at h
  cases item with
  | declared l =>
    have hitem : At c (l.declaration.text ++ ';' :: (l.behind ++ '\n' :: rest)) := by
      simpa [Item.text, DeclarationLine.text] using h.of_blanks
    obtain ⟨next, hnext, hboundary, hrest⟩ := statement?_declaration hitem
    have hline : '\n' ∉ ';' :: l.behind := by simp [l.line]
    refine ⟨next, hnext, hboundary, ?_⟩
    rw [hrest, nextLine_append hline, dropWhile_dropWhile]
  | skipped s =>
    have hitem : At c (s.text ++ ';' :: rest) := by simpa [Item.text] using h.of_blanks
    obtain ⟨c₁, eol, hf₁, hstatement⟩ := statement?_eq hitem s.single
    obtain ⟨c₂, -, hbefore⟩ := statementBefore?_eq hf₁
    rw [if_pos ((skippable_dropWhile s.text).mpr s.skippable)] at hbefore
    exact ⟨⟨eol + 1, 0, rest⟩, hstatement.trans hbefore, rfl, rfl⟩

/-- A run ends in front of code, or where no statement ends, and has found nothing. -/
theorem run?_text {s : List Char} (h : At c s)
    (hend : ';' ∉ s ∨ (firstWord s ≠ "uniform".toList ∧ ¬Skippable s)) :
    ∃ ending, statements.run? c = some ⟨[], ending⟩ ∧ ∀ cause, ending ≠ .malformed cause := by
  by_cases hendless : ';' ∈ s
  · -- the statement is not passed over and does not open with `uniform`
    obtain ⟨hother, hkept⟩ := hend.resolve_left (not_not_intro hendless)
    obtain ⟨before, after, rfl, hsingle⟩ := List.eq_append_cons_of_mem hendless
    obtain ⟨c₁, eol, hf₁, hstatement⟩ := statement?_eq h hsingle
    obtain ⟨c₂, -, hbefore⟩ := statementBefore?_eq hf₁
    rw [skippable_append] at hkept
    rw [firstWord_append_cons (by decide) (by decide)] at hother
    rw [if_neg (mt (skippable_dropWhile before).mp hkept), firstWord_dropWhile,
      if_neg hother] at hbefore
    exact ⟨_, statements.run?_finish (hstatement.trans hbefore), by simp⟩
  · exact ⟨_, statements.run?_finish (statement?_unfinished h hendless), by simp⟩

/-- A run finds the declaration of a tail, if it has one. -/
theorem run?_tail (tail : Tail) (h : At c tail.text) :
    ∃ ending, statements.run? c =
        some ⟨tail.declaration?.toList.map Declaration.binding, ending⟩ ∧
      ∀ cause, ending ≠ .malformed cause := by
  cases tail with
  | unfinished s hendless => exact run?_text h (.inl hendless)
  | code s hother hkept => exact run?_text h (.inr ⟨hother, hkept⟩)
  | lastLine blanks l =>
    have hline : '\n' ∉ ';' :: l.behind := by simp [l.line]
    -- behind the last line nothing is left to read
    have hitem : At c (l.declaration.text ++ ';' :: (l.behind ++ [])) := by
      simpa [Tail.text, DeclarationLine.text] using At.of_blanks h
    obtain ⟨next, hnext, hboundary, hrest⟩ := statement?_declaration hitem
    rw [List.append_nil, nextLine_eq_nil hline] at hrest
    obtain ⟨ending, hrun, hregular⟩ :=
      run?_text (c := next) (s := []) ⟨hboundary, by rw [hrest]⟩ (.inl (by simp))
    refine ⟨ending, ?_, hregular⟩
    rw [statements.run?_move hnext, hrun]
    rfl

/-- **A run reads one item after another**: whatever the items are, the cursor stands in
    front of the text of those that remain, except for blanks. -/
theorem run?_layout (h : Layout) (hc : At c h.text) :
    ∃ ending, statements.run? c = some ⟨h.declarations.map Declaration.binding, ending⟩ ∧
      ∀ cause, ending ≠ .malformed cause := by
  obtain ⟨items, tail⟩ := h
  -- the induction is on the items: `At` is what a step hands on to the next one
  induction items generalizing c with
  | nil => exact run?_tail tail hc
  | cons item items ih =>
    obtain ⟨blanks, item⟩ := item
    simp only [Layout.text, List.flatMap_cons, List.append_assoc] at hc
    rw [← List.append_assoc] at hc
    obtain ⟨next, hnext, hat⟩ := statement?_item blanks item hc
    obtain ⟨ending, hrun, hregular⟩ := ih hat
    refine ⟨ending, ?_, hregular⟩
    rw [statements.run?_move hnext, hrun]
    cases item <;> rfl

/-- **Every well-formed header is recovered exactly.** The table of its text holds the
    bindings of the declarations whose types are known, in order, and nothing else. -/
theorem table_scan_text (h : Layout) :
    ∃ table, (scan (.ofList h.text)).table = .ok table ∧
      table.toList = (h.declarations.filter (·.kind ≠ .unknown)).map Declaration.binding := by
  have hat : At (.ofList (String.ofList h.text).toList) h.text := by
    rw [String.toList_ofList]
    exact ⟨rfl, rfl⟩
  obtain ⟨ending, hrun, hregular⟩ := run?_layout h hat
  have hscan : scan (.ofList h.text) = ⟨h.declarations.map Declaration.binding, ending⟩ :=
    Option.get_of_eq_some _ hrun
  refine ⟨_, by rw [hscan]; exact Findings.table_eq_ok hregular, ?_⟩
  rw [BindingTable.toList_ofList, List.filter_map]
  have hknown : ∀ d ∈ h.declarations,
      (Binding.isKnown ∘ Declaration.binding) d = decide (d.kind ≠ .unknown) :=
    fun d _ => d.isKnown_binding
  rw [List.filter_congr hknown]

/-- The only declaration of the sample is found. -/
theorem table_scan_sample :
    ∃ table,
      (scan ("in vec2 v_uv; uniform highp mat4 u_bones[ 32 ]; // skinning\n" ++
        "void main () \x7b; \x7d")).table = .ok table ∧
      table.toList = [.declared "u_bones" .mat4 32] := by
  have htext : String.ofList Layout.sample.text =
      "in vec2 v_uv; uniform highp mat4 u_bones[ 32 ]; // skinning\n" ++
        "void main () \x7b; \x7d" := by decide
  obtain ⟨table, htable, hlist⟩ := table_scan_text Layout.sample
  rw [htext] at htable
  exact ⟨table, htable, hlist.trans (by decide)⟩

end ShaderPack.Recovery.Header
