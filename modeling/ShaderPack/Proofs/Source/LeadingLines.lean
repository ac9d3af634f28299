import ShaderPack.Proofs.Text.Words

namespace ShaderPack

/-!
# Leading lines — which directives are dropped

Blank lines and directives may stand in front of a text in any order.  A directive is dropped
only as long as no blank line comes before it, so what is left begins with the first blank line
(`afterDirectives_leading`).  If no directive stands behind that one, it is a run of blanks;
otherwise the next text is a directive (`leading_cases`).
-/

namespace Text.Blanks

/-- Blanks with a line feed behind them. -/
def line (b : Blanks) : Blanks := ⟨b.text ++ ['\n'], by simp [b.blanks, isSpace]⟩

def append (b b' : Blanks) : Blanks := ⟨b.text ++ b'.text, by simp [b.blanks, b'.blanks]⟩

/-- A blank line is no directive. -/
theorem head?_line (b : Blanks) (s : List Char) : (b.line.text ++ s).head? ≠ some '#' := by
  obtain ⟨c, rest, htext⟩ : ∃ c rest, b.line.text = c :: rest :=
    List.exists_cons_of_ne_nil (by simp [line])
  have hc : isSpace c = true := b.line.blank c (htext ▸ List.mem_cons_self)
  rw [htext, List.cons_append, List.head?_cons]
  rintro ⟨⟩
  exact absurd hc (by decide)

end Text.Blanks

namespace Source

open Text

/-- A whole line that is blank or a directive. -/
inductive LeadingLine
  | blank (blanks : Blanks) (single : '\n' ∉ blanks.text)
  | directive (rest : List Char) (single : '\n' ∉ rest)

namespace LeadingLine

/-- The line with its line feed. -/
def text : LeadingLine → List Char
  | blank blanks _ => blanks.line.text
  | directive rest _ => '#' :: (rest ++ ['\n'])

def isDirective : LeadingLine → Bool
  | blank _ _ => false
  | directive _ _ => true

end LeadingLine

/-- No directive stands behind a blank line. -/
def DirectivesFirst (lines : List LeadingLine) : Prop :=
  ∀ line ∈ lines.dropWhile LeadingLine.isDirective, line.isDirective = false

instance (lines : List LeadingLine) : Decidable (DirectivesFirst lines) :=
  inferInstanceAs (Decidable (∀ line ∈ _, _))

/-- The lines as a text. -/
def leadingText (lines : List LeadingLine) : List Char := lines.flatMap LeadingLine.text

/-! ### Dropping directives -/

variable {s : List Char}

theorem afterDirectives_cons (s : List Char) :
    afterDirectives ('#' :: s) = afterDirectives (afterLine s) := by
  rw [afterDirectives]

theorem afterDirectives_of_head? (h : s.head? ≠ some '#') : afterDirectives s = s := by
  unfold afterDirectives
  split
  · exact absurd rfl h
  · rfl

theorem afterDirectives_nil : afterDirectives [] = [] := afterDirectives_of_head? nofun

/-- **Directives are dropped up to the first blank line**, and nothing else is. -/
theorem afterDirectives_leading (lines : List LeadingLine) (h : s.head? ≠ some '#') :
    afterDirectives (leadingText lines ++ s) =
      leadingText (lines.dropWhile LeadingLine.isDirective) ++ s := by
  induction lines with
  | nil => exact afterDirectives_of_head? h
  | cons line lines ih =>
    rw [leadingText, List.flatMap_cons, List.append_assoc]
    cases line with
    | directive rest single =>
      show afterDirectives ('#' :: (rest ++ ['\n']) ++ (leadingText lines ++ s)) = _
      rw [List.cons_append, afterDirectives_cons, ← List.append_cons, afterLine_append single, ih]
      rfl
    | blank blanks single =>
      show afterDirectives (blanks.line.text ++ (leadingText lines ++ s)) =
        blanks.line.text ++ leadingText lines ++ s
      rw [afterDirectives_of_head? (blanks.head?_line _), List.append_assoc]

/-- Lines without a directive are blanks; otherwise the first directive stands behind blanks. -/
theorem leading_cases (lines : List LeadingLine) :
    ((∀ line ∈ lines, line.isDirective = false) ∧ ∃ b : Blanks, leadingText lines = b.text) ∨
      (¬∀ line ∈ lines, line.isDirective = false) ∧
        ∃ (b : Blanks) (rest : List Char), leadingText lines = b.text ++ '#' :: rest := by
  induction lines with
  | nil => exact .inl ⟨List.forall_mem_nil _, ⟨[], rfl⟩, rfl⟩
  | cons line lines ih =>
    rw [List.forall_mem_cons]
    cases line with
    | directive rest single =>
      exact .inr ⟨fun hall => Bool.noConfusion hall.1, ⟨[], rfl⟩, _, rfl⟩
    | blank blanks single =>
      have htext : leadingText (.blank blanks single :: lines) =
          blanks.line.text ++ leadingText lines := rfl
      rw [and_iff_right (show (LeadingLine.blank blanks single).isDirective = false from rfl),
        htext]
      rcases ih with ⟨hnone, b, hb⟩ | ⟨hsome, b, rest, hb⟩
      · exact .inl ⟨hnone, blanks.line.append b, by rw [hb]; rfl⟩
      · refine .inr ⟨hsome, blanks.line.append b, rest, ?_⟩
        rw [hb, ← List.append_assoc]
        rfl

end Source

end ShaderPack
