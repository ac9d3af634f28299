import ShaderPack.Proofs.Compilation.Messages
import ShaderPack.Proofs.Recovery.HeaderGrowth
import ShaderPack.Proofs.Recovery.ModernizedHeader
import ShaderPack.Proofs.Source.LeadingLines

namespace ShaderPack

open Source Text

/-!
# Compilations — text in front of a header

Blanks in front of a header make no difference to the bindings that are found in it
(`table_scan_blanks`), and a directive there ends it before it begins (`table_scan_hash`).
Bringing a text up to date keeps both (`modernize_blanks`).  So a compilation finds the bindings
of a header behind any leading lines, unless a directive among them stands behind a blank line,
which is not dropped: then it finds none (`bindings_behind_lines`).
-/

/-! ### Scanning -/

namespace Recovery

/-- Findings that are kept in each other have the same table. -/
theorem Findings.Kept.table_eq {f f' : Findings} (h : f.Kept f') (h' : f'.Kept f) :
    f.table = f'.table := by
  cases htable : f.table with
  | error cause => rw [h.table_error htable]
  | ok table =>
    cases htable' : f'.table with
    | error cause => rw [← htable, h'.table_error htable']
    | ok table' =>
      have hsame : table.toList = table'.toList :=
        (h.table_prefix htable htable').eq_of_length_le (h'.table_prefix htable' htable).length_le
      rw [BindingTable.ext hsame]

namespace Header

/-- Sources that are the same text behind blanks have the same table. -/
theorem table_scan_eq {source source' : String} {s : List Char}
    (h : At (.ofList source.toList) s) (h' : At (.ofList source'.toList) s) :
    (scan source).table = (scan source').table := by
  have hmore {c : Cursor} (hc : At c s) : At c (s ++ []) := by rwa [List.append_nil]
  obtain ⟨f, f', hrun, hrun', hkept⟩ := run?_more h (hmore h')
  obtain ⟨g', g, hagain', hagain, hkept'⟩ := run?_more h' (hmore h)
  obtain rfl : f = g := Option.some.inj (hrun.symm.trans hagain)
  obtain rfl : f' = g' := Option.some.inj (hrun'.symm.trans hagain')
  have hscan : scan source = f := Option.get_of_eq_some _ hrun
  have hscan' : scan source' = f' := Option.get_of_eq_some _ hrun'
  rw [hscan, hscan', hkept.table_eq hkept']

/-- **Blanks in front of a source** make no difference to its table. -/
theorem table_scan_blanks (b : Blanks) (s : List Char) :
    (scan (.ofList (b.text ++ s))).table = (scan (.ofList s)).table :=
  table_scan_eq (s := s) (At.of_blanks ⟨rfl, congrArg _ String.toList_ofList⟩)
    ⟨rfl, congrArg _ String.toList_ofList⟩

/-- A text that is neither passed over nor opens a declaration ends the header. -/
theorem progress_code {s : List Char} (hkept : ¬Skippable s)
    (hopens : firstWord s ≠ "uniform".toList) : progress s = .ends := by
  rcases cutAt?_cases ';' s with ⟨-, hcut⟩ | ⟨before, after, rfl, -, hcut⟩
  · rw [progress, hcut]
  · rw [skippable_append] at hkept
    rw [firstWord_append_cons (by decide) (by decide)] at hopens
    rw [progress, hcut]
    simp only [if_neg hkept, if_neg hopens]

/-- **A directive behind blanks** ends the header before it begins. -/
theorem table_scan_hash (b : Blanks) (s : List Char) :
    (scan (.ofList (b.text ++ '#' :: s))).table = .ok .empty := by
  have hfirst : firstWord (b.text ++ '#' :: s) = [] := by
    rw [firstWord, b.dropWhile_append]
    rfl
  have hbehind : behindWord (b.text ++ '#' :: s) = '#' :: s := by
    rw [behindWord, b.dropWhile_append]
    rfl
  have hkept : ¬Skippable (b.text ++ '#' :: s) := by
    rw [Skippable, hfirst, hbehind]
    rintro (hqualifier | htemporary | htemporary)
    · exact absurd hqualifier (by decide)
    · exact absurd htemporary (by decide)
    · have hword : firstWord ('#' :: s) = [] := rfl
      rw [hword] at htemporary
      exact absurd htemporary (by decide)
  have hends := progress_code hkept (by rw [hfirst]; decide)
  refine table_scan_eq_ok.mpr ⟨[], ?_, rfl⟩
  rw [String.toList_ofList, bindings?_ends hends]

end Header

end Recovery

/-! ### Bringing up to date -/

namespace Text.WordWise

variable {r : List Char → List Char}

/-- Blanks stay in front of a rewritten text. -/
theorem blanks_append (hr : WordWise r) (b : Blanks) (s : List Char) :
    r (b.text ++ s) = b.text ++ r s := by
  obtain ⟨blanks, hblank⟩ := b
  induction blanks with
  | nil => rfl
  | cons x blanks ih =>
    rw [List.all_cons, Bool.and_eq_true] at hblank
    rw [List.cons_append, hr.cons (isWord_of_isSpace hblank.1), ih hblank.2]
    rfl

end Text.WordWise

/-! ### Compilations -/

namespace Compilation

open Recovery

variable {σ τ : Type} {r : Request} {optimize : Optimizer} {optimized : String}

/-- The table that a compilation comes to. -/
def Outcome.table (out : Outcome σ) : Except Failure BindingTable :=
  out.result.map (·.packed.bindings)

/-- The text that is left of optimized text to be scanned. -/
def scannedText (r : Request) (optimized : List Char) : List Char :=
  replaceEach (passes r.stage r.call.dialect) (afterDirectives optimized)

theorem modernize_dropDirectives (r : Request) (optimized : String) :
    modernize r.stage r.call.dialect (dropDirectives optimized) =
      .ofList (scannedText r optimized.toList) := by
  rw [← String.toList_inj, toList_modernize, dropDirectives, String.toList_ofList,
    String.toList_ofList, scannedText]

/-- Optimized text comes to the table that is read off it once it is brought up to date, or to
    the failure to read it. -/
theorem table_finish (call : Call) (optimized : String) (s : σ) :
    (finish call optimized s).table =
      (call.dialect.method.scan
        (modernize call.stage call.dialect (dropDirectives optimized))).table.mapError
          fun cause => .malformed cause.message := by
  unfold Outcome.table finish
  dsimp only
  split
  · next cause htable => rw [htable]; rfl
  · next bindings htable => rw [htable]; rfl

/-- In the GL family that is the table of a declaration header. -/
theorem table_compile (hfamily : r.call.dialect.isMetal = false)
    (h : optimize.answer r.call = .ok optimized) (w : Writer σ) (s : σ) :
    (compile optimize r w s).table =
      (Header.scan (.ofList (scannedText r optimized.toList))).table.mapError
        fun cause => .malformed cause.message := by
  have hmethod : r.call.dialect.method = .header := by
    rw [Dialect.method, hfamily]
    rfl
  have hfinish := table_finish r.call optimized s
  rw [hmethod, show r.call.stage = r.stage from rfl, modernize_dropDirectives] at hfinish
  rw [compile_eq, h]
  exact hfinish

/-- The passes keep blanks and directives in front of a text. -/
theorem passes_wordWise (r : Request) : WordWise (replaceEach (passes r.stage r.call.dialect)) :=
  (Header.keepsHeaders_replaceEach (Header.passes_subset r.stage r.call.dialect)).toWordWise

/-- Behind leading lines, the scanned text begins with what is not dropped of them. -/
theorem scannedText_leading (lines : List LeadingLine) {header : String}
    (h : header.toList.head? ≠ some '#') :
    scannedText r (String.ofList (leadingText lines) ++ header).toList =
      replaceEach (passes r.stage r.call.dialect)
        (leadingText (lines.dropWhile LeadingLine.isDirective) ++ header.toList) := by
  rw [String.toList_append, String.toList_ofList, scannedText, afterDirectives_leading lines h]

section

variable {lines : List LeadingLine} {header : String} {alone : Optimizer}

/-- If no directive stands behind a blank line, the header is found behind the lines. -/
theorem table_of_directivesFirst (hfirst : DirectivesFirst lines)
    (hfamily : r.call.dialect.isMetal = false) (hheader : header.toList.head? ≠ some '#')
    (hlines : optimize.answer r.call = .ok (.ofList (leadingText lines) ++ header))
    (halone : alone.answer r.call = .ok header) (w : Writer σ) (s : σ) (w' : Writer τ) (s' : τ) :
    (compile optimize r w s).table = (compile alone r w' s').table := by
  obtain ⟨-, b, hb⟩ | ⟨hhidden, -⟩ :=
    leading_cases (lines.dropWhile LeadingLine.isDirective)
  · have hwhole : scannedText r header.toList =
        replaceEach (passes r.stage r.call.dialect) header.toList := by
      rw [scannedText, afterDirectives_of_head? hheader]
    rw [table_compile hfamily hlines, table_compile hfamily halone,
      scannedText_leading lines hheader, hb, (passes_wordWise r).blanks_append,
      Header.table_scan_blanks, hwhole]
  · exact absurd hfirst hhidden

/-- If a directive stands behind a blank line, nothing is found. -/
theorem table_of_hidden (hhidden : ¬DirectivesFirst lines)
    (hfamily : r.call.dialect.isMetal = false) (hheader : header.toList.head? ≠ some '#')
    (hlines : optimize.answer r.call = .ok (.ofList (leadingText lines) ++ header))
    (w : Writer σ) (s : σ) : (compile optimize r w s).table = .ok .empty := by
  obtain ⟨hfirst, -⟩ | ⟨-, b, rest, hb⟩ :=
    leading_cases (lines.dropWhile LeadingLine.isDirective)
  · exact absurd hfirst hhidden
  · have hdirective : isWord '#' = false := rfl
    rw [table_compile hfamily hlines, scannedText_leading lines hheader, hb, List.append_assoc,
      (passes_wordWise r).blanks_append, List.cons_append, (passes_wordWise r).cons hdirective,
      Header.table_scan_hash]
    rfl

/-- **Leading lines hide a header only if a directive stands behind a blank line.**  Without such
    a directive, a compilation comes to the same table, or the same failure, as with the header
    alone; with one, it comes to the table without bindings. -/
theorem table_behind_lines (hfamily : r.call.dialect.isMetal = false)
    (hheader : header.toList.head? ≠ some '#')
    (hlines : optimize.answer r.call = .ok (.ofList (leadingText lines) ++ header))
    (halone : alone.answer r.call = .ok header) (w : Writer σ) (s : σ) (w' : Writer τ) (s' : τ) :
    (DirectivesFirst lines →
      (compile optimize r w s).table = (compile alone r w' s').table) ∧
    (¬DirectivesFirst lines → (compile optimize r w s).table = .ok .empty) :=
  ⟨fun hfirst => table_of_directivesFirst hfirst hfamily hheader hlines halone w s w' s',
    fun hhidden => table_of_hidden hhidden hfamily hheader hlines w s⟩

end

/-- An optimizer that answers everything with this text. -/
def answering (text : String) : Optimizer := fun _ _ _ => .ok text

/-- A fragment shader for desktop GL. -/
def sampleFragment : Request := ⟨.fragment, 120, .none, ""⟩

/-- A directive and a blank line. -/
def sampleLines : List LeadingLine :=
  [.directive "version 120".toList (by decide), .blank ⟨[], rfl⟩ (by decide)]

/-- Behind a directive and then a blank line the header is found; behind a blank line and then a
    directive it is not. -/
theorem table_behind_sampleLines :
    (compile (answering "#version 120\n\nuniform vec4 u_a;\n") sampleFragment
        (Script.writer {}) (Script.start {})).table =
      (compile (answering "uniform vec4 u_a;\n") sampleFragment
        (Script.writer {}) (Script.start {})).table ∧
    (compile (answering "\n#version 120\nuniform vec4 u_a;\n") sampleFragment
        (Script.writer {}) (Script.start {})).table = .ok .empty := by
  have hfamily : sampleFragment.call.dialect.isMetal = false := by decide
  have hheader : "uniform vec4 u_a;\n".toList.head? ≠ some '#' := by decide
  have hlines : (answering "#version 120\n\nuniform vec4 u_a;\n").answer sampleFragment.call =
      .ok (.ofList (leadingText sampleLines) ++ "uniform vec4 u_a;\n") :=
    congrArg Except.ok (by cbv)
  have hreversed : (answering "\n#version 120\nuniform vec4 u_a;\n").answer sampleFragment.call =
      .ok (.ofList (leadingText sampleLines.reverse) ++ "uniform vec4 u_a;\n") :=
    congrArg Except.ok (by cbv)
  have halone : (answering "uniform vec4 u_a;\n").answer sampleFragment.call =
      .ok "uniform vec4 u_a;\n" := rfl
  have hfirst : DirectivesFirst sampleLines := by decide
  have hhidden : ¬DirectivesFirst sampleLines.reverse := by decide
  exact ⟨(table_behind_lines hfamily hheader hlines halone _ _ _ _).1 hfirst,
    (table_behind_lines hfamily hheader hreversed halone _ _ (Script.writer {})
      (Script.start {})).2 hhidden⟩

/-- A directive behind a blank line hides the declaration that the header alone has. -/
theorem directive_hides_header :
    (compile (answering "\n#version 120\nuniform vec4 u_a;\n") sampleFragment
        (Script.writer {}) (Script.start {})).table = .ok .empty ∧
    (compile (answering "uniform vec4 u_a;\n") sampleFragment
        (Script.writer {}) (Script.start {})).table = .ok (.ofList [.declared "u_a" .vec4 1]) := by
  have hfamily : sampleFragment.call.dialect.isMetal = false := by decide
  refine ⟨?_, ?_⟩
  · have hheader : "uniform vec4 u_a;\n".toList.head? ≠ some '#' := by decide
    have hlines : (answering "\n#version 120\nuniform vec4 u_a;\n").answer sampleFragment.call =
        .ok (.ofList (leadingText sampleLines.reverse) ++ "uniform vec4 u_a;\n") :=
      congrArg Except.ok (by cbv)
    have hhidden : ¬DirectivesFirst sampleLines.reverse := by decide
    exact table_of_hidden hhidden hfamily hheader hlines _ _
  · have halone : (answering "uniform vec4 u_a;\n").answer sampleFragment.call =
        .ok "uniform vec4 u_a;\n" := rfl
    have htext : String.ofList (scannedText sampleFragment "uniform vec4 u_a;\n".toList) =
        "uniform vec4 u_a;\n" := by decide +kernel
    have hscan : (Header.scan "uniform vec4 u_a;\n").table =
        .ok (.ofList [.declared "u_a" .vec4 1]) := Header.table_scan_single (by decide +kernel)
    rw [table_compile hfamily halone, htext, hscan]
    rfl

end Compilation

end ShaderPack
