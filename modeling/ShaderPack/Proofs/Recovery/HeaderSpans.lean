import Mathlib.Data.List.Forall2
import ShaderPack.Proofs.Recovery.HeaderReach
import ShaderPack.Proofs.Text.Slicing

namespace ShaderPack.Recovery.Header

open Text

/-!
# Declaration headers — where the bindings stand

Nothing in a table is made up: each of its bindings is declared by a span of the source, and
the spans follow one another as the bindings do.  A `Declaration` is what is written; what is
accepted is more, since nothing is asked of the text behind a name or behind the brackets there
(`AcceptedDeclaration`).

* `exists_accepted` — a statement that declares a binding is an accepted declaration, behind
  blanks;
* `bindings?_spans` — what is declared behind any parts has its spans behind them;
* `table_spans` — the spans of a table.
-/

/-! ### Declarations that are accepted -/

/-- What stands behind a name and its blanks. -/
inductive Subscript
  /-- An array size in brackets, and any text. -/
  | array (size : AcceptedSize) (behind : List Char)
  /-- Any text that does not begin with a bracket. -/
  | absent (behind : List Char) (bare : ∀ c ∈ behind.head?, c ≠ '[' ∧ isSpace c = false)

namespace Subscript

def text : Subscript → List Char
  | array size behind => '[' :: (size.text ++ ']' :: behind)
  | absent behind _ => behind

/-- The number of array elements; 1 for what is no array. -/
def size : Subscript → UInt8
  | array size _ => size.size
  | absent _ _ => 1

end Subscript

/-- The word `uniform`, a precision or not, a type and a name, which ends there, and what stands
    behind it. -/
structure AcceptedDeclaration where
  gap : Gap
  precision : Option Precision
  type : Word
  typeGap : Gap
  name : Word
  nameBlanks : Blanks
  subscript : Subscript
  ended : Stops (nameBlanks.text ++ subscript.text)

namespace AcceptedDeclaration

/-- The text up to the `;`. -/
def text (d : AcceptedDeclaration) : List Char :=
  uniformWord.text ++ (d.gap.text ++ (d.precision.elim [] Precision.text ++
    (d.type.text ++ (d.typeGap.text ++ (d.name.text ++ (d.nameBlanks.text ++
      d.subscript.text))))))

/-- The binding that is declared. -/
def binding (d : AcceptedDeclaration) : Binding :=
  .declared (.ofList d.name.text) (.ofName (.ofList d.type.text)) d.subscript.size

end AcceptedDeclaration

/-- Where a size is read, an accepted one stands, or there is no bracket. -/
theorem exists_subscript {s : List Char} {size : UInt8} (hfront : s.dropWhile isSpace = s)
    (h : sizeIn? s = some size) : ∃ sub : Subscript, s = sub.text ∧ sub.size = size := by
  by_cases hopen : s.head? = some '['
  · obtain ⟨inside, rfl⟩ := List.head?_eq_some_iff.mp hopen
    rw [sizeIn?, if_pos hopen, List.tail_cons, ← toOption_arraySize inside ""] at h
    cases hread : arraySize inside "" with
    | error cause => simp [hread, Except.toOption] at h
    | ok read =>
      rw [hread] at h
      cases h
      obtain ⟨a, behind, rfl, rfl⟩ := arraySize_eq_ok.mp hread
      exact ⟨.array a behind, rfl, rfl⟩
  · rw [sizeIn?, if_neg hopen] at h
    cases h
    refine ⟨.absent s fun c hc => ⟨?_, ?_⟩, rfl, rfl⟩
    · rintro rfl
      exact hopen hc
    · -- no blank is in front
      have hhead := List.head?_dropWhile_not isSpace s
      rw [hfront, Option.mem_def.mp hc] at hhead
      simpa using hhead

/-- Where a type is read, it stands behind a precision or not. -/
theorem exists_type {s : List Char} (hfront : s.dropWhile isSpace = s)
    (htype : (typeIn s).1 ≠ []) (hname : firstWord (typeIn s).2 ≠ []) :
    firstWord s ≠ [] ∧ (typeIn s).2.dropWhile isSpace = (typeIn s).2 ∧
      ∃ (p : Option Precision) (type : Word) (g : Gap), type.text = (typeIn s).1 ∧
        s = p.elim [] Precision.text ++ (type.text ++ (g.text ++ (typeIn s).2)) := by
  unfold typeIn at htype hname ⊢
  split at htype
  · next hprecision =>
    rw [if_pos hprecision] at hname ⊢
    have hnonempty : firstWord s ≠ [] := by
      have hwords : ∀ word ∈ precisions.map String.toList, word ≠ [] := by decide
      exact hwords _ hprecision
    obtain ⟨keyword, gap, hkeyword, hs⟩ := exists_gap hfront hnonempty htype
    obtain ⟨type, g, htext, hbehind⟩ := exists_gap (dropWhile_behindWord s) htype hname
    refine ⟨hnonempty, dropWhile_behindWord _, some ⟨keyword, hkeyword ▸ hprecision, gap⟩, type,
      g, htext, ?_⟩
    rw [Option.elim_some, Precision.text, ← hbehind, List.append_assoc]
    exact hs
  · next hprecision =>
    rw [if_neg hprecision] at hname ⊢
    obtain ⟨type, g, htext, hs⟩ := exists_gap hfront htype hname
    exact ⟨htype, dropWhile_behindWord s, none, type, g, htext, hs⟩

/-- **A statement that declares a binding** is an accepted declaration, behind blanks. -/
theorem exists_accepted {statement : List Char} {b : Binding} (h : Declares statement b) :
    ∃ (blanks : Blanks) (d : AcceptedDeclaration), statement = blanks.text ++ d.text ∧
      d.binding = b := by
  have hread := h.declares
  simp only [declared?] at hread
  split at hread
  · cases hread
  · next hcomplete =>
    rw [not_or] at hcomplete
    obtain ⟨size, hsize, rfl⟩ := Option.map_eq_some_iff.mp hread
    obtain ⟨hnext, hbehindType, p, type, typeGap, htype, hspecification⟩ :=
      exists_type (dropWhile_behindWord statement) hcomplete.1 hcomplete.2
    obtain ⟨name, nameBlanks, hname, hdeclarator, hended⟩ :=
      exists_word hbehindType hcomplete.2
    obtain ⟨subscript, hsubscript, rfl⟩ := exists_subscript (dropWhile_behindWord _) hsize
    -- the statement begins with blanks and its first word
    obtain ⟨blanks, hblanks⟩ := exists_blanks statement
    have hopens : firstWord (statement.dropWhile isSpace) = "uniform".toList := by
      rw [firstWord_dropWhile, h.opens]
    obtain ⟨opening, gap, hopening, hopen⟩ :=
      exists_gap (dropWhile_dropWhile isSpace statement) (by rw [hopens]; decide)
        (by rwa [behindWord_dropWhile])
    rw [hsubscript] at hended hdeclarator
    refine ⟨blanks, ⟨gap, p, type, typeGap, name, nameBlanks, subscript, hended⟩, ?_, ?_⟩
    · rw [hopening, hopens, behindWord_dropWhile, hspecification, hdeclarator] at hopen
      exact hblanks.trans (congrArg (blanks.text ++ ·) hopen)
    · rw [AcceptedDeclaration.binding, hname, htype]

/-! ### Spans -/

/-- A scan reads a statement from this place of a text on: parts and blanks make up the text in
    front of it. -/
def Begins (text : List Char) (start : Nat) : Prop :=
  ∃ (parts : List Part) (blanks : Blanks) (rest : List Char),
    text = parts.flatMap Part.text ++ (blanks.text ++ rest) ∧
      start = width (parts.flatMap Part.text) + width blanks.text

/-- The span of the text in which a statement declares a binding, with its `;`. -/
structure Marks (text : List Char) (span : Slice) (b : Binding) : Prop where
  within : span.text = text
  begins : Begins text span.start
  declares : ∃ d : AcceptedDeclaration, span.Holds (d.text ++ [';']) ∧ ';' ∉ d.text ∧
    d.binding = b
  known : b.kind ≠ .unknown

/-- Spans of a text, each in front of the next and none in front of `start`, that mark these
    bindings. -/
structure Spans (text : List Char) (start : Nat) (spans : List Slice)
    (bindings : List Binding) : Prop where
  ordered : spans.Pairwise fun a b => a.start < b.start ∧ a.stop ≤ b.start
  behind : ∀ span ∈ spans, start ≤ span.start
  marks : List.Forall₂ (Marks text) spans bindings

namespace Spans

variable {text : List Char} {start start' : Nat} {spans : List Slice} {bindings : List Binding}

theorem nil (text : List Char) (start : Nat) : Spans text start [] [] :=
  ⟨.nil, by simp, .nil⟩

theorem mono (h : Spans text start spans bindings) (hle : start' ≤ start) :
    Spans text start' spans bindings :=
  ⟨h.ordered, fun span hspan => Nat.le_trans hle (h.behind span hspan), h.marks⟩

/-- A span in front of others. -/
theorem cons {span : Slice} {b : Binding} (h : Spans text span.stop spans bindings)
    (hmarks : Marks text span b) (hstart : start ≤ span.start) (hlt : span.start < span.stop) :
    Spans text start (span :: spans) (b :: bindings) := by
  refine ⟨List.pairwise_cons.mpr ⟨?_, h.ordered⟩, ?_, .cons hmarks h.marks⟩
  · intro next hnext
    have hbehind : span.stop ≤ next.start := h.behind next hnext
    exact ⟨Nat.lt_of_lt_of_le hlt hbehind, hbehind⟩
  · intro next hnext
    rcases List.mem_cons.mp hnext with rfl | hnext
    · exact hstart
    · have hbehind : span.stop ≤ next.start := h.behind next hnext
      omega

/-- Spans behind some parts and another one are spans behind that one. -/
theorem behind_part {parts : List Part} {part : Part} {rest : List Char}
    (h : Spans ((parts ++ [part]).flatMap Part.text ++ rest)
      (width ((parts ++ [part]).flatMap Part.text)) spans bindings) :
    Spans (parts.flatMap Part.text ++ (part.text ++ rest))
      (width (parts.flatMap Part.text) + width part.text) spans bindings := by
  simpa using h

end Spans

/-- A statement behind parts that declares a binding of known kind has a span. -/
theorem Declares.marks {statement : List Char} {b : Binding} (h : Declares statement b)
    (hknown : b.isKnown = true) (parts : List Part) (after : List Char) :
    ∃ span : Slice, Marks (parts.flatMap Part.text ++ (statement ++ ';' :: after)) span b ∧
      width (parts.flatMap Part.text) ≤ span.start ∧ span.start < span.stop ∧
      span.stop = width (parts.flatMap Part.text) + width statement + 1 := by
  obtain ⟨blanks, d, rfl, rfl⟩ := exists_accepted h
  have hsingle : ';' ∉ d.text := fun hx => h.single (List.mem_append_right _ hx)
  have hsemicolon : width (d.text ++ [';']) = width d.text + 1 := by simp [Char.utf8Size]
  refine ⟨⟨_, width (parts.flatMap Part.text) + width blanks.text,
    width (parts.flatMap Part.text) + width blanks.text + width (d.text ++ [';'])⟩,
    ⟨rfl, ⟨parts, blanks, d.text ++ ';' :: after, by rw [List.append_assoc], rfl⟩,
      ⟨d, ⟨parts.flatMap Part.text ++ blanks.text, after, by simp, (width_append _ _).symm, rfl⟩,
        hsingle, rfl⟩, by simpa [Binding.isKnown] using hknown⟩, ?_, ?_, ?_⟩
  · exact Nat.le_add_right _ _
  · simp only [hsemicolon]
    omega
  · simp only [hsemicolon, width_append]
    omega

/-- **The bindings that a text declares have spans**, whatever parts stand in front of it. -/
theorem bindings?_spans (parts : List Part) {s : List Char} {found : List Binding}
    (h : bindings? s = some found) :
    ∃ spans, Spans (parts.flatMap Part.text ++ s) (width (parts.flatMap Part.text)) spans
      (found.filter Binding.isKnown) := by
  -- the induction is on what is left of the text; what a step leaves behind becomes a part
  induction hlen : s.length using Nat.strongRecOn generalizing parts s found with
  | _ len ih =>
    cases hprogress : progress s with
    | ends =>
      rw [bindings?_ends hprogress] at h
      cases h
      exact ⟨[], .nil _ _⟩
    | malformed => simp [bindings?_malformed hprogress] at h
    | goesOn first rest =>
      have hless : rest.length < len := hlen ▸ length_lt_of_progress hprogress
      rw [bindings?_goesOn hprogress, Option.map_eq_some_iff] at h
      obtain ⟨others, hothers, rfl⟩ := h
      cases first with
      | none =>
        obtain ⟨skipped, rfl⟩ := progress_eq_goesOn_none.mp hprogress
        obtain ⟨spans, hspans⟩ := ih _ hless (parts ++ [.skipped skipped]) hothers rfl
        have hbehind := hspans.behind_part
        rw [Part.text, List.append_assoc, List.singleton_append] at hbehind
        exact ⟨spans, hbehind.mono (Nat.le_add_right _ _)⟩
      | some b =>
        obtain ⟨statement, after, rfl, hdeclares, rfl⟩ := progress_eq_goesOn_some.mp hprogress
        have hothers' : ∃ spans, Spans (parts.flatMap Part.text ++ (statement ++ ';' :: after))
            (width (parts.flatMap Part.text) + width statement + 1) spans
            (others.filter Binding.isKnown) := by
          by_cases hended : '\n' ∈ after
          · obtain ⟨unread, behind, rfl, hunread⟩ := List.eq_append_cons_of_mem hended
            rw [afterLine_append hunread] at hothers hless
            obtain ⟨spans, hspans⟩ :=
              ih _ hless (parts ++ [.declared statement b hdeclares unread hunread]) hothers rfl
            have hbehind := hspans.behind_part
            have htext : Part.text (.declared statement b hdeclares unread hunread) ++ behind =
                statement ++ ';' :: (unread ++ '\n' :: behind) := by simp [Part.text]
            rw [htext] at hbehind
            refine ⟨spans, hbehind.mono ?_⟩
            have hsemicolon : ';'.utf8Size = 1 := rfl
            simp only [Part.text, width_append, width_cons]
            omega
          · -- the line of the last declaration is not ended
            rw [afterLine_eq_nil hended, bindings?_ends rfl] at hothers
            cases hothers
            exact ⟨[], .nil _ _⟩
        obtain ⟨spans, hspans⟩ := hothers'
        cases hknown : b.isKnown with
        | false => exact ⟨spans, by simpa [hknown] using hspans.mono (by omega)⟩
        | true =>
          obtain ⟨span, hmarks, hstart, hlt, hstop⟩ := hdeclares.marks hknown parts after
          rw [← hstop] at hspans
          exact ⟨span :: spans, by simpa [hknown] using hspans.cons hmarks hstart hlt⟩

/-- **Every binding of a table is declared in the source.** There is one span for each of them,
    in the order of the table and without overlap: a statement that the scan reads, which ends at
    its only `;` and is an accepted declaration of that binding. -/
theorem table_spans {source : String} {table : BindingTable}
    (h : (scan source).table = .ok table) :
    ∃ spans : List Slice,
      (spans.Pairwise fun a b => a.start < b.start ∧ a.stop ≤ b.start) ∧
        List.Forall₂ (Marks source.toList) spans table.toList := by
  obtain ⟨found, hfound, rfl⟩ := table_scan_eq_ok.mp h
  obtain ⟨spans, hspans⟩ := bindings?_spans [] hfound
  exact ⟨spans, hspans.ordered, hspans.marks⟩

/-- The two declarations of the sample have their spans. -/
theorem spans_sampleParts :
    (scan "in vec2 v; uniform vec4 u_a; discard;\nuniform vec4 u_b;\n").table =
        .ok (.ofList [.declared "u_a" .vec4 1, .declared "u_b" .vec4 1]) ∧
      ∃ spans : List Slice,
        (spans.Pairwise fun a b => a.start < b.start ∧ a.stop ≤ b.start) ∧
          List.Forall₂
            (Marks "in vec2 v; uniform vec4 u_a; discard;\nuniform vec4 u_b;\n".toList) spans
            [.declared "u_a" .vec4 1, .declared "u_b" .vec4 1] :=
  ⟨table_sampleParts, table_spans table_sampleParts⟩

end ShaderPack.Recovery.Header
