import ShaderPack.Proofs.Source.LeadingLines
import ShaderPack.Proofs.Text.Lines

namespace ShaderPack.Source

open Text

/-!
# Directives — a text is divided behind the leading ones

Directives in front of a text are whole lines; only the last of them may go without its line feed,
and then nothing is left behind it.  What else may stand behind directives is any text that does not
begin with another one (`Directives.Before`).

* `Directives.afterDirectives_text` — directives are dropped from a text that may stand behind them;
* `Directives.exists_text` — what is dropped from a text are directives;
* `Directives.text_injective` — directives are read off their text in one way only.
-/

/-- Directives in front of a text, each without its `#` and its line feed. -/
inductive Directives
  | nil
  /-- One directive that no line feed ends. -/
  | unended (line : List Char) (single : '\n' ∉ line)
  | cons (line : List Char) (single : '\n' ∉ line) (rest : Directives)

namespace Directives

variable {s out : List Char}

/-- The directives as they stand in the text. -/
def text : Directives → List Char
  | nil => []
  | unended line _ => '#' :: line
  | cons line _ rest => '#' :: (line ++ '\n' :: rest.text)

/-- No line feed ends the last directive. -/
def IsUnended : Directives → Prop
  | nil => False
  | unended _ _ => True
  | cons _ _ rest => rest.IsUnended

/-- A text may stand behind directives if it begins with no further one, and if it is empty where
    the last directive has no line feed. -/
structure Before (d : Directives) (out : List Char) : Prop where
  head? : out.head? ≠ some '#'
  eq_nil : d.IsUnended → out = []

/-! ### Existence -/

/-- Directives are dropped, and the text behind them is left. -/
theorem afterDirectives_text (d : Directives) (h : d.Before out) :
    afterDirectives (d.text ++ out) = out := by
  induction d with
  | nil => exact afterDirectives_of_head? h.head?
  | unended line single =>
    obtain rfl := h.eq_nil trivial
    rw [List.append_nil, text, afterDirectives_cons, afterLine_eq_nil single, afterDirectives_nil]
  | cons line single rest ih =>
    have hrest : rest.Before out := ⟨h.head?, h.eq_nil⟩
    rw [text, List.cons_append, List.append_assoc, List.cons_append, afterDirectives_cons,
      afterLine_append single]
    exact ih hrest

/-- What is dropped from a text are directives, and what is left may stand behind them. -/
theorem exists_text (s : List Char) :
    ∃ d : Directives, s = d.text ++ afterDirectives s ∧ d.Before (afterDirectives s) := by
  have hnone {s : List Char} (h : s.head? ≠ some '#') :
      ∃ d : Directives, s = d.text ++ afterDirectives s ∧ d.Before (afterDirectives s) := by
    rw [afterDirectives_of_head? h]
    exact ⟨nil, rfl, h, False.elim⟩
  induction s using lines_induction with
  | nil => exact hnone nofun
  | last s hs hne =>
    by_cases hhead : s.head? = some '#'
    · obtain ⟨line, rfl⟩ := List.head?_eq_some_iff.mp hhead
      have hline : '\n' ∉ line := mt (List.mem_cons_of_mem _) hs
      rw [afterDirectives_cons, afterLine_eq_nil hline, afterDirectives_nil]
      exact ⟨unended line hline, (List.append_nil _).symm, nofun, fun _ => rfl⟩
    · exact hnone hhead
  | line front rest hfront ih =>
    by_cases hhead : front.head? = some '#'
    · obtain ⟨line, rfl⟩ := List.head?_eq_some_iff.mp hhead
      have hline : '\n' ∉ line := mt (List.mem_cons_of_mem _) hfront
      obtain ⟨d, htext, hbefore⟩ := ih
      rw [List.cons_append, afterDirectives_cons, afterLine_append hline]
      refine ⟨cons line hline d, ?_, hbefore.head?, hbefore.eq_nil⟩
      rw [text, List.cons_append, List.append_assoc, List.cons_append, ← htext]
    · refine hnone ?_
      cases front with
      | nil => nofun
      | cons c front => exact hhead

/-! ### Uniqueness -/

/-- Directives are read off their text in one way only. -/
theorem text_injective : Function.Injective text := by
  intro d d' h
  induction d generalizing d' with
  | nil =>
    cases d' with
    | nil => rfl
    | unended => cases h
    | cons => cases h
  | unended line single =>
    cases d' with
    | nil => cases h
    | unended line' single' =>
      obtain rfl := List.tail_eq_of_cons_eq h
      rfl
    | cons line' single' rest' =>
      have hline : line = line' ++ '\n' :: rest'.text := List.tail_eq_of_cons_eq h
      exact absurd (hline ▸ List.mem_append_cons_self) single
  | cons line single rest ih =>
    cases d' with
    | nil => cases h
    | unended line' single' =>
      have hline : line ++ '\n' :: rest.text = line' := List.tail_eq_of_cons_eq h
      exact absurd (hline ▸ List.mem_append_cons_self) single'
    | cons line' single' rest' =>
      obtain ⟨rfl, hrest⟩ := append_cons_inj single single' (List.tail_eq_of_cons_eq h)
      rw [ih hrest]

/-- A text is divided in one way into directives and a text that may stand behind them. -/
theorem division_unique {d d' : Directives} {out' : List Char} (hd : d.Before out)
    (hd' : d'.Before out') (h : d.text ++ out = d'.text ++ out') : d = d' ∧ out = out' := by
  have hout : out = out' := by
    rw [← d.afterDirectives_text hd, h, d'.afterDirectives_text hd']
  subst hout
  exact ⟨text_injective (List.append_cancel_right h), rfl⟩

end Directives

/-- **Exactly the leading directives are dropped from a source.**  What is left stands behind them
    and begins with no directive, a source is divided like that in one way only, and dropping
    directives once more changes nothing. -/
theorem dropDirectives_divides (source : String) :
    (∃ d : Directives, source.toList = d.text ++ (dropDirectives source).toList ∧
      d.Before (dropDirectives source).toList ∧
      ∀ (d' : Directives) (out' : List Char), source.toList = d'.text ++ out' → d'.Before out' →
        d' = d ∧ out' = (dropDirectives source).toList) ∧
    dropDirectives (dropDirectives source) = dropDirectives source := by
  have hleft : (dropDirectives source).toList = afterDirectives source.toList := String.toList_ofList
  obtain ⟨d, htext, hbefore⟩ := Directives.exists_text source.toList
  rw [← hleft] at htext hbefore
  refine ⟨⟨d, htext, hbefore, fun d' out' htext' hbefore' => ?_⟩, ?_⟩
  · exact Directives.division_unique hbefore' hbefore (htext'.symm.trans htext)
  · rw [dropDirectives, afterDirectives_of_head? hbefore.head?, String.ofList_toList]

-- a `#` alone is a directive, and one behind other text stays
example : dropDirectives "#version 1\n#\nx\n#y" = "x\n#y" := by cbv

end ShaderPack.Source
