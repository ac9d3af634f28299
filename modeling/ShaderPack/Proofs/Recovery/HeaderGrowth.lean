import ShaderPack.Proofs.Recovery.HeaderReach

namespace ShaderPack.Recovery

open Source (afterLine)
open Text

/-!
# Declaration headers — text behind a source

A step reads its statement up to the `;` and, behind a declaration, the rest of that line.  So
where a scan goes on or fails, it does the same if more text comes behind the source.  Only
two things can turn out differently: a header that was complete may go on, and the line of the
last declaration may go on, which is not read.

* `statement?_more` — one step with more text behind;
* `run?_more` — a run finds what it found, and a malformed declaration stays what it was;
* `table_scan_append` — a table only grows, and an error persists.
-/

/-! ### Findings -/

/-- What was found in `f` is found first in `f'`, and a malformed declaration in `f` leaves
    nothing else to find. -/
structure Findings.Kept (f f' : Findings) : Prop where
  offered : f.offered <+: f'.offered
  malformed : ∀ cause, f.ending = .malformed cause → f' = f

namespace Findings.Kept

variable {f f' : Findings}

/-- Nothing found is kept in all findings. -/
theorem nothing {ending : Ending} (hregular : ∀ cause, ending ≠ .malformed cause)
    (f' : Findings) : Kept ⟨[], ending⟩ f' :=
  ⟨List.nil_prefix, fun cause h => absurd h (hregular cause)⟩

theorem refl (f : Findings) : Kept f f := ⟨List.prefix_rfl, fun _ _ => rfl⟩

/-- What is found before both is kept. -/
theorem offer (h : Kept f f') (found : Option Binding) :
    Kept (found.elim f f.offer) (found.elim f' f'.offer) := by
  cases found with
  | none => exact h
  | some b =>
    exact ⟨List.prefix_cons_inj b |>.mpr h.offered, fun cause hcause =>
      congrArg (Findings.offer · b) (h.malformed cause hcause)⟩

/-- The error of a search is that of the findings it is kept in. -/
theorem table_error (h : Kept f f') {cause : Malformed} (herror : f.table = .error cause) :
    f'.table = .error cause := by
  rcases f.table_cases with ⟨other, hending, -⟩ | hok
  · rw [h.malformed other hending, herror]
  · cases herror.symm.trans hok

/-- The table of a search is a leading part of that of the findings it is kept in. -/
theorem table_prefix (h : Kept f f') {table table' : BindingTable} (hok : f.table = .ok table)
    (hok' : f'.table = .ok table') : table.toList <+: table'.toList := by
  have hlist {f : Findings} {table : BindingTable} (hok : f.table = .ok table) :
      table.toList = f.offered.filter Binding.isKnown := by
    rcases f.table_cases with ⟨cause, -, herror⟩ | hall
    · cases hok.symm.trans herror
    · cases hok.symm.trans hall
      rfl
  rw [hlist hok, hlist hok']
  exact h.offered.filter _

end Findings.Kept

namespace Header

variable {c c' : Cursor} {s : List Char}

/-! ### One step -/

/-- What a step does in front of the text `s`, and what it does with `more` behind. -/
inductive Keeps (s more : List Char) : Step → Step → Prop
  /-- Where the search ends, more text may change that. -/
  | ends {ending : Ending} (regular : ∀ cause, ending ≠ .malformed cause) (step : Step) :
    Keeps s more (.finish ending) step
  | malformed (cause : Malformed) :
    Keeps s more (.finish (.malformed cause)) (.finish (.malformed cause))
  /-- The search goes on in front of `rest`, which goes on with `more` unless it is empty. -/
  | goesOn (found : Option Binding) {next next' : Cursor} {rest rest' : List Char}
    (shorter : rest.length < s.length) (at_rest : At next rest) (at_rest' : At next' rest')
    (continued : rest ≠ [] → rest' = rest ++ more) :
    Keeps s more (.move found next) (.move found next')

/-- **One step with more text behind** reads the same statement. -/
theorem statement?_more {more : List Char} (h : At c s) (h' : At c' (s ++ more)) :
    ∃ step step', statement? c = some step ∧ statement? c' = some step' ∧
      Keeps s more step step' := by
  rcases cutAt?_cases ';' s with ⟨hendless, -⟩ | ⟨before, after, rfl, hsingle, -⟩
  · obtain ⟨step', hstep', -⟩ := statement?_reads c' h'.onBoundary
    exact ⟨_, step', statement?_unfinished h hendless, hstep', .ends (by simp) step'⟩
  · rw [List.append_assoc, List.cons_append] at h'
    obtain ⟨behind, next, offset, hbehind, hnext, hstep⟩ := statement?_text h hsingle
    obtain ⟨behind', next', offset', hbehind', hnext', hstep'⟩ := statement?_text h' hsingle
    refine ⟨_, _, hstep, hstep', ?_⟩
    have hshorter : after.length < (before ++ ';' :: after).length := by
      rw [List.length_append, List.length_cons]
      omega
    -- the cases are those of the statement, which is the same for both
    by_cases hskip : Skippable before
    · rw [if_pos hskip, if_pos hskip]
      exact .goesOn none hshorter hbehind hbehind' fun _ => rfl
    · rw [if_neg hskip, if_neg hskip]
      by_cases hopens : firstWord before = "uniform".toList
      · rw [if_pos hopens, if_pos hopens]
        cases readDeclaration (before.dropWhile isSpace) (behindWord before) with
        | error cause => exact .malformed cause
        | ok b =>
          have hline : (afterLine after).length ≤ after.length := Source.length_afterLine_le after
          exact .goesOn (some b) (Nat.lt_of_le_of_lt hline hshorter) hnext hnext'
            fun hne => afterLine_append_of_ne_nil hne more
      · rw [if_neg hopens, if_neg hopens]
        exact .ends (by simp) _

/-! ### Whole runs -/

/-- A run has findings. -/
theorem run?_eq_some (h : c.OnBoundary) : ∃ f, statements.run? c = some f :=
  Option.isSome_iff_exists.mp (statements.run?_isSome c h)

/-- **A run with more text behind** finds what it found, and then it may find more. -/
theorem run?_more {more : List Char} (h : At c s) (h' : At c' (s ++ more)) :
    ∃ f f', statements.run? c = some f ∧ statements.run? c' = some f' ∧ f.Kept f' := by
  -- the induction is on what is left of the shorter text; both runs take the same steps there
  induction hlen : s.length using Nat.strongRecOn generalizing c c' s with
  | _ len ih =>
    obtain ⟨step, step', hstep, hstep', hkeeps⟩ := statement?_more h h'
    cases hkeeps with
    | ends hregular =>
      obtain ⟨f', hrun'⟩ := run?_eq_some h'.onBoundary
      exact ⟨_, f', statements.run?_finish hstep, hrun', .nothing hregular f'⟩
    | malformed cause =>
      exact ⟨_, _, statements.run?_finish hstep, statements.run?_finish hstep', .refl _⟩
    | @goesOn found next next' rest rest' hshorter hat hat' hcontinued =>
      have hrest : ∃ f f', statements.run? next = some f ∧ statements.run? next' = some f' ∧
          f.Kept f' := by
        by_cases hnil : rest = []
        · -- the line of the last declaration is not ended
          obtain ⟨f', hrun'⟩ := run?_eq_some hat'.onBoundary
          have hdone := statement?_unfinished hat (by simp [hnil])
          exact ⟨_, f', statements.run?_finish hdone, hrun', .nothing (by simp) f'⟩
        · rw [hcontinued hnil] at hat'
          exact ih _ (hlen ▸ hshorter) hat hat' rfl
      obtain ⟨f, f', hrun, hrun', hkept⟩ := hrest
      refine ⟨_, _, ?_, ?_, hkept.offer found⟩
      · rw [statements.run?_move hstep, hrun]
        rfl
      · rw [statements.run?_move hstep', hrun']
        rfl

/-- A scan keeps what it found if more text comes behind its source. -/
theorem scan_kept (source more : String) : (scan source).Kept (scan (source ++ more)) := by
  have hat : At (.ofList source.toList) source.toList := ⟨rfl, rfl⟩
  have hat' : At (.ofList (source ++ more).toList) (source.toList ++ more.toList) :=
    ⟨rfl, congrArg _ String.toList_append⟩
  obtain ⟨f, f', hrun, hrun', hkept⟩ := run?_more hat hat'
  have hscan : scan source = f := Option.get_of_eq_some _ hrun
  have hscan' : scan (source ++ more) = f' := Option.get_of_eq_some _ hrun'
  rwa [hscan, hscan']

/-- **A table only grows.** With more text behind a source, an error stays the same, and a table
    is a leading part of the new one, if there is one: no later text changes, reorders or removes
    a binding. -/
theorem table_scan_append (source more : String) :
    (∀ cause, (scan source).table = .error cause →
      (scan (source ++ more)).table = .error cause) ∧
    ∀ table, (scan source).table = .ok table →
      (∃ cause, (scan (source ++ more)).table = .error cause) ∨
        ∃ longer, (scan (source ++ more)).table = .ok longer ∧
          table.toList <+: longer.toList := by
  have hkept := scan_kept source more
  refine ⟨fun cause => hkept.table_error, fun table hok => ?_⟩
  cases hmore : (scan (source ++ more)).table with
  | error cause => exact .inl ⟨cause, rfl⟩
  | ok longer => exact .inr ⟨longer, rfl, hkept.table_prefix hok hmore⟩

/-- A malformed declaration stays what it was, and the declaration of the sample's first line is
    found with the second line behind it. -/
theorem table_scan_continued :
    (∃ cause, (scan "uniform vec4 u_a[0];").table = .error cause ∧
      (scan ("uniform vec4 u_a[0];" ++ "\nuniform vec4 u_b;")).table = .error cause) ∧
    ∃ longer,
      (scan ("in vec2 v; uniform vec4 u_a; discard;\n" ++ "uniform vec4 u_b;\n")).table =
        .ok longer ∧ [.declared "u_a" .vec4 1] <+: longer.toList := by
  constructor
  · have hnone : (scan "uniform vec4 u_a[0];").table.toOption = none := by
      rw [table_scan, bindings?_malformed (by decide)]
      rfl
    cases herror : (scan "uniform vec4 u_a[0];").table with
    | ok table => simp [herror, Except.toOption] at hnone
    | error cause => exact ⟨cause, rfl, (table_scan_append _ _).1 cause herror⟩
  · have hline : String.ofList ((sampleParts.take 2).flatMap Part.text ++ []) =
        "in vec2 v; uniform vec4 u_a; discard;\n" := by cbv
    have hsource : "in vec2 v; uniform vec4 u_a; discard;\n" ++ "uniform vec4 u_b;\n" =
        "in vec2 v; uniform vec4 u_a; discard;\nuniform vec4 u_b;\n" := by cbv
    have hfirst : (scan "in vec2 v; uniform vec4 u_a; discard;\n").table =
        .ok (.ofList [.declared "u_a" .vec4 1]) :=
      hline ▸ table_parts (sampleParts.take 2) rfl
    have hboth := hsource ▸ table_sampleParts
    refine ((table_scan_append _ _).2 _ hfirst).resolve_left ?_
    rintro ⟨cause, herror⟩
    cases hboth.symm.trans herror

end Header

end ShaderPack.Recovery
