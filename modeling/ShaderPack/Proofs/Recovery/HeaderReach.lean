import ShaderPack.Proofs.Recovery.HeaderText

namespace ShaderPack.Recovery.Header

open Source (afterLine)
open Text

/-!
# Declaration headers — how far a scan reaches

A declaration is captured exactly if nothing but `Part`s stands in front of it: declarations,
each with the rest of its line, and statements that are passed over.  So nothing behind a
statement of any other kind is captured, however the statements are spread over lines.

The rest of a declaration's line is the one place where other text may stand, since it is not
read; `captured_behind_unread` shows a statement there.
-/

/-! ### Parts of a header -/

/-- A statement that declares a binding. -/
structure Declares (statement : List Char) (b : Binding) : Prop where
  single : ';' ∉ statement
  kept : ¬Skippable statement
  opens : firstWord statement = "uniform".toList
  declares : declared? (behindWord statement) = some b

/-- What a scan leaves behind on its way to a declaration. -/
inductive Part
  /-- A declaration with its line, which is ended. -/
  | declared (statement : List Char) (b : Binding) (declares : Declares statement b)
    (unread : List Char) (line : '\n' ∉ unread)
  | skipped (statement : SkippedStatement)

namespace Part

def text : Part → List Char
  | declared statement _ _ unread _ => statement ++ ';' :: (unread ++ ['\n'])
  | skipped statement => statement.text ++ [';']

def binding? : Part → Option Binding
  | declared _ b _ _ _ => some b
  | skipped _ => none

end Part

/-- What several parts declare. -/
def declaredIn (parts : List Part) : List Binding := parts.filterMap Part.binding?

/-! ### One step -/

/-- The scan goes on without a binding exactly behind a statement that is passed over. -/
theorem progress_eq_goesOn_none {s rest : List Char} :
    progress s = .goesOn none rest ↔
      ∃ statement : SkippedStatement, s = statement.text ++ ';' :: rest := by
  rw [progress_eq_goesOn]
  constructor
  · rintro ⟨before, after, rfl, hsingle, ⟨hskip, -, rfl⟩ | ⟨-, -, b, -, hnone, -⟩⟩
    · exact ⟨⟨before, hsingle, hskip⟩, rfl⟩
    · cases hnone
  · rintro ⟨⟨text, hsingle, hskip⟩, rfl⟩
    exact ⟨text, rest, rfl, hsingle, .inl ⟨hskip, rfl, rfl⟩⟩

/-- The scan goes on with a binding exactly in the line behind a statement that declares it. -/
theorem progress_eq_goesOn_some {s rest : List Char} {b : Binding} :
    progress s = .goesOn (some b) rest ↔
      ∃ statement after, s = statement ++ ';' :: after ∧ Declares statement b ∧
        rest = afterLine after := by
  rw [progress_eq_goesOn]
  constructor
  · rintro ⟨before, after, rfl, hsingle, ⟨-, hsome, -⟩ | ⟨hkept, hopens, b, hb, hsome, rfl⟩⟩
    · cases hsome
    · cases hsome
      exact ⟨before, after, rfl, ⟨hsingle, hkept, hopens, hb⟩, rfl⟩
  · rintro ⟨statement, after, rfl, h, rfl⟩
    exact ⟨statement, after, rfl, h.single,
      .inr ⟨h.kept, h.opens, b, h.declares, rfl, rfl⟩⟩

/-- A part in front is left behind. -/
theorem progress_part (part : Part) (s : List Char) :
    progress (part.text ++ s) = .goesOn part.binding? s := by
  cases part with
  | skipped statement =>
    exact progress_eq_goesOn_none.mpr ⟨statement, by simp [Part.text]⟩
  | declared statement b hdeclares unread hline =>
    exact progress_eq_goesOn_some.mpr
      ⟨statement, unread ++ '\n' :: s, by simp [Part.text], hdeclares,
        (afterLine_append hline s).symm⟩

/-! ### Whole headers -/

/-- What several parts declare is found before what the text behind them declares. -/
theorem bindings?_parts (parts : List Part) (s : List Char) :
    bindings? (parts.flatMap Part.text ++ s) = (bindings? s).map (declaredIn parts ++ ·) := by
  induction parts with
  | nil => simp [declaredIn]
  | cons part parts ih =>
    rw [List.flatMap_cons, List.append_assoc, bindings?_goesOn (progress_part part _), ih]
    cases hpart : part.binding? <;>
      simp [declaredIn, hpart, Function.comp_def]

/-- Each binding of a header is declared behind parts, which declare the bindings in front of
    it. -/
theorem bindings?_reached {s : List Char} {before after : List Binding} {b : Binding}
    (h : bindings? s = some (before ++ b :: after)) :
    ∃ (parts : List Part) (statement rest : List Char),
      s = parts.flatMap Part.text ++ (statement ++ ';' :: rest) ∧ Declares statement b ∧
        declaredIn parts = before := by
  -- the induction is on what is left of the text, one part at a time
  induction hlen : s.length using Nat.strongRecOn generalizing s before with
  | _ len ih =>
    cases hprogress : progress s with
    | ends => simp [bindings?_ends hprogress] at h
    | malformed => simp [bindings?_malformed hprogress] at h
    | goesOn found rest =>
      have hless : rest.length < len := hlen ▸ length_lt_of_progress hprogress
      rw [bindings?_goesOn hprogress, Option.map_eq_some_iff] at h
      obtain ⟨others, hothers, hfound⟩ := h
      cases found with
      | none =>
        obtain ⟨skipped, rfl⟩ := progress_eq_goesOn_none.mp hprogress
        obtain ⟨parts, statement, tail, rfl, hdeclares, hparts⟩ :=
          ih rest.length hless (hothers.trans (congrArg some hfound)) rfl
        exact ⟨.skipped skipped :: parts, statement, tail, by simp [Part.text], hdeclares,
          by rw [← hparts]; rfl⟩
      | some first =>
        obtain ⟨opening, line, rfl, hopening, rfl⟩ := progress_eq_goesOn_some.mp hprogress
        cases before with
        | nil =>
          obtain ⟨rfl, -⟩ := List.cons.inj hfound
          exact ⟨[], opening, line, rfl, hopening, rfl⟩
        | cons second before =>
          obtain ⟨rfl, rfl⟩ := List.cons.inj hfound
          -- another binding follows, so the line of this one is ended
          by_cases hended : '\n' ∈ line
          · obtain ⟨unread, behind, rfl, hunread⟩ := List.eq_append_cons_of_mem hended
            rw [afterLine_append hunread] at hothers hless
            obtain ⟨parts, statement, tail, rfl, hdeclares, hparts⟩ :=
              ih behind.length hless hothers rfl
            exact ⟨.declared opening first hopening unread hunread :: parts, statement, tail,
              by simp [Part.text], hdeclares, by rw [← hparts]; rfl⟩
          · rw [afterLine_eq_nil hended, bindings?_ends rfl] at hothers
            simp at hothers

/-- Parts in front of the end of a header make up its table. -/
theorem table_parts (parts : List Part) {tail : List Char} (hends : progress tail = .ends) :
    (scan (.ofList (parts.flatMap Part.text ++ tail))).table =
      .ok (.ofList (declaredIn parts)) := by
  refine table_scan_eq_ok.mpr ⟨declaredIn parts, ?_, rfl⟩
  rw [String.toList_ofList, bindings?_parts, bindings?_ends hends]
  simp

/-- **How far a scan reaches.** A source with a table captures a declaration exactly if
    nothing but parts stands in front of it, and then the bindings in front of it in the table
    are those that these parts declare, as far as their kinds are known. -/
theorem captured_iff_parts {source : String} {table : BindingTable}
    (h : (scan source).table = .ok table) (before : List Binding) (b : Binding) :
    before ++ [b] <+: table.toList ↔
      b.isKnown = true ∧ ∃ (parts : List Part) (statement rest : List Char),
        source.toList = parts.flatMap Part.text ++ (statement ++ ';' :: rest) ∧
          Declares statement b ∧ (declaredIn parts).filter Binding.isKnown = before := by
  obtain ⟨found, hfound, rfl⟩ := table_scan_eq_ok.mp h
  rw [BindingTable.toList_ofList]
  constructor
  · rintro ⟨after, hafter⟩
    rw [List.append_assoc, List.singleton_append] at hafter
    obtain ⟨reached, behind, rfl, hreached, hbehind⟩ := List.filter_eq_append_iff.mp hafter.symm
    obtain ⟨unknown, others, rfl, hunknown, hb, -⟩ := List.filter_eq_cons_iff.mp hbehind
    rw [← List.append_assoc] at hfound
    obtain ⟨parts, statement, rest, hsource, hdeclares, hparts⟩ := bindings?_reached hfound
    refine ⟨hb, parts, statement, rest, hsource, hdeclares, ?_⟩
    rw [hparts, List.filter_append, hreached, List.filter_eq_nil_iff.mpr hunknown,
      List.append_nil]
  · rintro ⟨hb, parts, statement, rest, hsource, hdeclares, hparts⟩
    have hstep : progress (statement ++ ';' :: rest) = .goesOn (some b) (afterLine rest) :=
      progress_eq_goesOn_some.mpr ⟨statement, rest, rfl, hdeclares, rfl⟩
    rw [hsource, bindings?_parts, bindings?_goesOn hstep, Option.map_map,
      Option.map_eq_some_iff] at hfound
    obtain ⟨others, -, rfl⟩ := hfound
    refine ⟨others.filter Binding.isKnown, ?_⟩
    simp [hparts, hb]

/-- A statement in the rest of a declaration's line is no part of its own. -/
def sampleParts : List Part :=
  [.skipped ⟨"in vec2 v".toList, by decide, by decide⟩,
   .declared " uniform vec4 u_a".toList (.declared "u_a" .vec4 1)
    ⟨by decide, by decide, by decide, by decide⟩ " discard;".toList (by decide),
   .declared "uniform vec4 u_b".toList (.declared "u_b" .vec4 1)
    ⟨by decide, by decide, by decide, by decide⟩ [] (by decide)]

theorem table_sampleParts :
    (scan "in vec2 v; uniform vec4 u_a; discard;\nuniform vec4 u_b;\n").table =
      .ok (.ofList [.declared "u_a" .vec4 1, .declared "u_b" .vec4 1]) := by
  have htext : String.ofList (sampleParts.flatMap Part.text ++ []) =
      "in vec2 v; uniform vec4 u_a; discard;\nuniform vec4 u_b;\n" := by cbv
  rw [← htext]
  exact table_parts sampleParts rfl

/-- The last declaration of the sample is captured behind the one before it. -/
theorem captured_behind_first :
    ∃ table,
      (scan "in vec2 v; uniform vec4 u_a; discard;\nuniform vec4 u_b;\n").table = .ok table ∧
        [.declared "u_a" .vec4 1] ++ [.declared "u_b" .vec4 1] <+: table.toList :=
  ⟨_, table_sampleParts, (captured_iff_parts table_sampleParts _ _).mpr
    ⟨rfl, sampleParts.take 2, "uniform vec4 u_b".toList, ['\n'], by decide,
      ⟨by decide, by decide, by decide, by decide⟩, by decide⟩⟩

/-- Between the semicolons in front of a captured declaration a text may stand that is neither
    a declaration nor passed over: the rest of an earlier declaration's line. -/
theorem captured_behind_unread :
    ∃ table,
      (scan "in vec2 v; uniform vec4 u_a; discard;\nuniform vec4 u_b;\n").table = .ok table ∧
      .declared "u_b" .vec4 1 ∈ table.toList ∧
      pieces ';' "in vec2 v; uniform vec4 u_a; discard;\nuniform vec4 u_b;\n".toList =
        ["in vec2 v".toList, " uniform vec4 u_a".toList, " discard".toList,
          "\nuniform vec4 u_b".toList, "\n".toList] ∧
      Declares "\nuniform vec4 u_b".toList (.declared "u_b" .vec4 1) ∧
      ¬(firstWord " discard".toList = "uniform".toList ∨ Skippable " discard".toList) :=
  ⟨_, table_sampleParts, by decide, by decide, ⟨by decide, by decide, by decide, by decide⟩,
    by decide⟩

end ShaderPack.Recovery.Header
