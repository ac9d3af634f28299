import ShaderPack.Proofs.Text.Replacement
import ShaderPack.Source.Modernize

namespace ShaderPack.Source

open Text

/-!
# Bringing text up to date — once is enough

A text is `Modern` for some passes if it holds nothing that they replace; then they leave it as
it is.  So bringing a text up to date twice does no more than doing it once exactly if nothing
to replace is left after the first time (`modernize_modernize_iff`).

Precisions are never left.  A legacy name may be left: the passes go once through the text and
each replacement shortens it, so that what stands behind may complete another legacy name.
Where every legacy name ends a word, nothing can come behind it, and none is left.
-/

/-! ### Passes -/

/-- The passes that raise precisions. -/
def raisingPasses : List (String × String) := reducedPrecisions.map (·, "highp")

/-- The passes for a stage and dialect, in order. -/
def passes (stage : Stage) (dialect : Dialect) : List (String × String) :=
  if dialect.isMetal then []
  else if stage = .vertex then legacyNames ++ raisingPasses
  else legacyNames

variable {stage : Stage} {dialect : Dialect} {pairs : List (String × String)} {s : List Char}
  {q : String × String}

@[simp] theorem replaceEach_nil (s : List Char) : replaceEach [] s = s := rfl

@[simp] theorem replaceEach_cons (p : String × String) (pairs : List (String × String))
    (s : List Char) :
    replaceEach (p :: pairs) s = replaceEach pairs (replaceAll p.1.toList p.2.toList s) := rfl

theorem replaceEach_append (pairs others : List (String × String)) (s : List Char) :
    replaceEach (pairs ++ others) s = replaceEach others (replaceEach pairs s) :=
  List.foldl_append

/-- Bringing a source up to date is running its passes. -/
theorem toList_modernize (stage : Stage) (dialect : Dialect) (source : String) :
    (modernize stage dialect source).toList =
      replaceEach (passes stage dialect) source.toList := by
  unfold modernize passes
  split
  · rfl
  · split
    · rw [replaceEach_append]
      simp [raisePrecision, renameLegacy, raisingPasses]
    · simp [renameLegacy]

/-! ### Texts with nothing to replace -/

/-- The text holds nothing that the passes replace. -/
def Modern (pairs : List (String × String)) (s : List Char) : Prop :=
  ∀ p ∈ pairs, ¬p.1.toList <:+: s

theorem replaceEach_eq_self (h : Modern pairs s) : replaceEach pairs s = s := by
  induction pairs with
  | nil => rfl
  | cons p pairs ih =>
    have hrest : Modern pairs s := fun q hq => h q (List.mem_cons_of_mem p hq)
    rw [replaceEach_cons, replaceAll_eq_self (h p List.mem_cons_self), ih hrest]

/-- A word is not left if each pass traces its occurrences, under an invariant that each pass
    keeps, and one of the passes replaces it or the text does not hold it. -/
theorem free_replaceEach (Inv : List Char → Prop)
    (hstep : ∀ p ∈ pairs, ∀ s, Inv s → Inv (replaceAll p.1.toList p.2.toList s) ∧
      Traced p.1.toList p.2.toList q.1.toList s (replaceAll p.1.toList p.2.toList s))
    (hs : Inv s) (h : q ∈ pairs ∨ ¬q.1.toList <:+: s) :
    ¬q.1.toList <:+: replaceEach pairs s := by
  induction pairs generalizing s with
  | nil => simpa using h
  | cons p pairs ih =>
    obtain ⟨hkept, htraced⟩ := hstep p List.mem_cons_self s hs
    refine ih (fun p hp => hstep p (List.mem_cons_of_mem _ hp)) hkept ?_
    rcases h with h | h
    · rcases List.mem_cons.mp h with rfl | h
      · exact .inr (htraced.free (.inl rfl))
      · exact .inl h
    · exact .inr (htraced.free (.inr h))

/-- A word is not left by passes that it stands apart from. -/
theorem free_of_apart (hne : ∀ p ∈ pairs, p.1.toList ≠ []) (hq : q.1.toList ≠ [])
    (hapart : ∀ p ∈ pairs, Apart q.1.toList.tail p.2.toList ∧ Apart p.2.toList q.1.toList)
    (h : q ∈ pairs ∨ ¬q.1.toList <:+: s) : ¬q.1.toList <:+: replaceEach pairs s := by
  refine free_replaceEach (fun _ => True) (fun p hp s _ => ⟨trivial, ?_⟩) trivial h
  have hreplaced := replaced_replaceAll (hne p hp) p.2.toList s
  exact hreplaced.traced_of_apart hq (hapart p hp).1 (hapart p hp).2

/-! ### Shorter texts -/

/-- Passes that shorten words do not make a text longer. -/
theorem length_replaceEach_le
    (hshort : ∀ p ∈ pairs, p.1.toList ≠ [] ∧ p.2.toList.length < p.1.toList.length) :
    (replaceEach pairs s).length ≤ s.length := by
  induction pairs generalizing s with
  | nil => exact Nat.le_refl _
  | cons p pairs ih =>
    obtain ⟨hne, hlen⟩ := hshort p List.mem_cons_self
    have hpass := (replaced_replaceAll hne p.2.toList s).length_le (Nat.le_of_lt hlen)
    have hrest := ih (s := replaceAll p.1.toList p.2.toList s)
      fun p hp => hshort p (List.mem_cons_of_mem _ hp)
    exact Nat.le_trans hrest hpass

/-- They make it shorter if there is something to replace. -/
theorem length_replaceEach_lt
    (hshort : ∀ p ∈ pairs, p.1.toList ≠ [] ∧ p.2.toList.length < p.1.toList.length)
    (h : ¬Modern pairs s) : (replaceEach pairs s).length < s.length := by
  induction pairs with
  | nil => exact absurd (fun p hp => by simp at hp) h
  | cons p pairs ih =>
    obtain ⟨hne, hlen⟩ := hshort p List.mem_cons_self
    have hrest : ∀ p ∈ pairs, p.1.toList ≠ [] ∧ p.2.toList.length < p.1.toList.length :=
      fun p hp => hshort p (List.mem_cons_of_mem _ hp)
    rw [replaceEach_cons]
    by_cases hfound : p.1.toList <:+: s
    · have hpass := (replaced_replaceAll hne p.2.toList s).length_lt hlen hfound
      exact Nat.lt_of_le_of_lt (length_replaceEach_le hrest) hpass
    · rw [replaceAll_eq_self hfound]
      exact ih hrest fun hmodern => h (List.forall_mem_cons.mpr ⟨hfound, hmodern⟩)

/-! ### The words of the passes -/

/-- How the words begin that are replaced. -/
def oldLeads : List (List Char) := [['g', 'l', '_'], ['t', 'e'], ['s', 'h'], ['l', 'o'], ['m', 'e']]

/-- How the words begin that replace them. -/
def newLeads : List (List Char) := [['g', 'l', '_'], ['t', 'e'], ['s', 'h'], ['h', 'i']]

/-- A pass replaces a word by a word, and none that is put begins within one that is replaced. -/
structure Regular (old new : List Char) : Prop where
  word : old ≠ [] ∧ old.all isWord = true
  newWord : new.all isWord = true
  lead : ∃ lead ∈ oldLeads, lead <+: old
  newLead : ∃ lead ∈ newLeads, lead <+: new
  apart : ∀ lead ∈ newLeads, Apart old.tail lead

instance (old new : List Char) : Decidable (Regular old new) :=
  decidable_of_iff (_ ∧ _ ∧ _ ∧ _ ∧ _)
    ⟨fun ⟨h₁, h₂, h₃, h₄, h₅⟩ => ⟨h₁, h₂, h₃, h₄, h₅⟩,
      fun h => ⟨h.word, h.newWord, h.lead, h.newLead, h.apart⟩⟩

/-- A renaming pass drops the tag of an extension.  Its words have capitals, and no reduced
    precision begins in the one that is put. -/
structure Renames (old new : List Char) : Prop extends Regular old new where
  shorter : new.length < old.length
  tagged : 'T' ∈ old ∨ 'B' ∈ old
  untagged : 'T' ∉ new ∧ 'B' ∉ new
  capitals : old.any Char.isUpper = true ∧ new.any Char.isUpper = true
  precisions : Apart new ['l', 'o'] ∧ Apart new ['m', 'e']

instance (old new : List Char) : Decidable (Renames old new) :=
  decidable_of_iff (Regular old new ∧ _ ∧ _ ∧ _ ∧ _ ∧ _)
    ⟨fun ⟨h, h₁, h₂, h₃, h₄, h₅⟩ => ⟨h, h₁, h₂, h₃, h₄, h₅⟩,
      fun h => ⟨h.toRegular, h.shorter, h.tagged, h.untagged, h.capitals, h.precisions⟩⟩

theorem legacyNames_renames : ∀ p ∈ legacyNames, Renames p.1.toList p.2.toList := by
  simp only [legacyNames, List.forall_mem_cons, List.not_mem_nil, false_implies, implies_true,
    and_true]
  and_intros <;> exact of_chars (P := fun old => Renames old _) (of_chars (by decide))

theorem raisingPasses_regular : ∀ p ∈ raisingPasses, Regular p.1.toList p.2.toList := by
  decide

theorem highp_apart : ∀ lead ∈ oldLeads, Apart "highp".toList lead := by
  decide

theorem passes_regular {p : String × String} (hp : p ∈ legacyNames ++ raisingPasses) :
    Regular p.1.toList p.2.toList := by
  rcases List.mem_append.mp hp with hlegacy | hraising
  · exact (legacyNames_renames p hlegacy).toRegular
  · exact raisingPasses_regular p hraising

section

variable {old new w : List Char}

/-- A text apart from all beginnings is apart from what a pass replaces. -/
theorem Regular.apart_old (hp : Regular old new) (h : ∀ lead ∈ oldLeads, Apart w lead) :
    Apart w old := by
  obtain ⟨lead, hmem, hlead⟩ := hp.lead
  exact (h lead hmem).of_lead hlead

/-- A text apart from all beginnings is apart from what a pass puts. -/
theorem Regular.apart_new (hp : Regular old new) (h : ∀ lead ∈ newLeads, Apart w lead) :
    Apart w new := by
  obtain ⟨lead, hmem, hlead⟩ := hp.newLead
  exact (h lead hmem).of_lead hlead

/-- No reduced precision begins in a later name. -/
theorem Renames.apart_precision (hp : Renames old new) (hq : q ∈ raisingPasses) :
    Apart new q.1.toList := by
  obtain ⟨word, hword, rfl⟩ := List.mem_map.mp hq
  have hcases : word = "lowp" ∨ word = "mediump" := by simpa [reducedPrecisions] using hword
  rcases hcases with rfl | rfl
  · exact hp.precisions.1.of_lead (by decide)
  · exact hp.precisions.2.of_lead (by decide)

/-- No later name holds a legacy name. -/
theorem Renames.free (hp : Renames old new) {legacy later : List Char}
    (hq : Renames legacy later) : ¬legacy <:+: new := by
  intro h
  rcases hq.tagged with htag | htag
  · exact hp.untagged.1 (h.subset htag)
  · exact hp.untagged.2 (h.subset htag)

end

/-! ### What is left -/

/-- No reduced precision is left, and no pass makes a legacy name of a raised one. -/
theorem free_raised (hq : Regular q.1.toList q.2.toList)
    (h : q ∈ raisingPasses ∨ ¬q.1.toList <:+: s) :
    ¬q.1.toList <:+: replaceEach raisingPasses s := by
  refine free_of_apart (fun p hp => (raisingPasses_regular p hp).word.1) hq.word.1
    (fun p hp => ?_) h
  have hhighp : p.2 = "highp" := by
    obtain ⟨word, -, rfl⟩ := List.mem_map.mp hp
    rfl
  refine ⟨(raisingPasses_regular p hp).apart_new hq.apart, ?_⟩
  rw [hhighp]
  exact hq.apart_old highp_apart

/-- Renaming makes no reduced precision. -/
theorem modern_renamed (h : Modern raisingPasses s) :
    Modern raisingPasses (replaceEach legacyNames s) := by
  intro q hq
  have hregular := raisingPasses_regular q hq
  refine free_of_apart (fun p hp => (legacyNames_renames p hp).word.1) hregular.word.1
    (fun p hp => ?_) (.inr (h q hq))
  have hrenames := legacyNames_renames p hp
  exact ⟨hrenames.apart_new hregular.apart, hrenames.apart_precision hq⟩

/-- No legacy name is left where each ended a word. -/
theorem modern_of_endsWord (h : ∀ q ∈ legacyNames, EndsWord q.1.toList s) :
    Modern legacyNames (replaceEach legacyNames s) := by
  intro q hq
  refine free_replaceEach (fun s => ∀ q ∈ legacyNames, EndsWord q.1.toList s)
    (fun p hp s hs => ?_) h (.inl hq)
  have hrenames := legacyNames_renames p hp
  obtain ⟨hne, hword⟩ := hrenames.word
  have htraced : ∀ q ∈ legacyNames, Traced p.1.toList p.2.toList q.1.toList s
      (replaceAll p.1.toList p.2.toList s) := fun q hq => by
    have hq' := legacyNames_renames q hq
    exact (replaced_replaceAll hne p.2.toList s).traced_of_endsWord hq'.word.1
      (List.all_eq_true.mp hq'.word.2) (hrenames.apart_new hq'.apart) (hrenames.free hq')
      hne (List.all_eq_true.mp hword) (hs p hp)
  exact ⟨fun q hq => (htraced q hq).endsWord hne (List.all_eq_true.mp hword) (hs q hq),
    htraced q hq⟩

/-- The second time there are only legacy names to replace. -/
theorem replaceEach_again (hmetal : dialect.isMetal = false) (s : List Char) :
    replaceEach (passes stage dialect) (replaceEach (passes stage dialect) s) =
      replaceEach legacyNames (replaceEach (passes stage dialect) s) := by
  unfold passes
  rw [if_neg (by simp [hmetal])]
  split
  · have hraised : Modern raisingPasses (replaceEach (legacyNames ++ raisingPasses) s) := by
      intro q hq
      rw [replaceEach_append]
      exact free_raised (raisingPasses_regular q hq) (.inl hq)
    rw [replaceEach_append legacyNames, replaceEach_eq_self (modern_renamed hraised)]
  · rfl

/-- **Twice is once** exactly if no legacy name is left. -/
theorem modernize_modernize_iff (stage : Stage) (dialect : Dialect) (source : String) :
    modernize stage dialect (modernize stage dialect source) = modernize stage dialect source ↔
      dialect.isMetal = true ∨ Modern legacyNames (modernize stage dialect source).toList := by
  rw [← String.toList_inj, toList_modernize, toList_modernize]
  cases hmetal : dialect.isMetal with
  | true => simp [passes, hmetal]
  | false =>
    rw [replaceEach_again hmetal]
    simp only [Bool.false_eq_true, false_or]
    constructor
    · intro h
      refine Classical.byContradiction fun hleft => ?_
      have hless := length_replaceEach_lt
        (fun p hp => ⟨(legacyNames_renames p hp).word.1, (legacyNames_renames p hp).shorter⟩) hleft
      rw [h] at hless
      exact Nat.lt_irrefl _ hless
    · exact replaceEach_eq_self

/-- **Bringing text up to date is complete** where every legacy name ends a word: no legacy
    name is left, and a second time changes nothing. -/
theorem modern_modernize (stage : Stage) (dialect : Dialect) (source : String)
    (h : ∀ p ∈ legacyNames, EndsWord p.1.toList source.toList) :
    (dialect.isMetal = false → Modern legacyNames (modernize stage dialect source).toList) ∧
      modernize stage dialect (modernize stage dialect source) =
        modernize stage dialect source := by
  have hmodern (hmetal : dialect.isMetal = false) :
      Modern legacyNames (modernize stage dialect source).toList := by
    have hrenamed := modern_of_endsWord h
    rw [toList_modernize, passes, if_neg (by simp [hmetal])]
    split
    · intro q hq
      rw [replaceEach_append]
      exact free_raised (legacyNames_renames q hq).toRegular (.inr (hrenamed q hq))
    · exact hrenamed
  refine ⟨hmodern, (modernize_modernize_iff stage dialect source).mpr ?_⟩
  cases hmetal : dialect.isMetal with
  | true => exact .inl rfl
  | false => exact .inr (hmodern hmetal)

/-- Nothing is left of the legacy name and the precision of the sample. -/
theorem modern_sample :
    (∀ p ∈ legacyNames, EndsWord p.1.toList "lowp float d = gl_FragDepthEXT;".toList) ∧
      Modern legacyNames (modernize .vertex .gles2 "lowp float d = gl_FragDepthEXT;").toList := by
  have hends : ∀ p ∈ legacyNames,
      EndsWord p.1.toList "lowp float d = gl_FragDepthEXT;".toList := by
    simp only [legacyNames, List.forall_mem_cons, List.not_mem_nil, false_implies, implies_true,
      and_true]
    and_intros <;> exact of_chars (P := fun old => EndsWord old _) (of_chars (by decide))
  exact ⟨hends, (modern_modernize .vertex .gles2 _ hends).1 rfl⟩

/-- A legacy name is left where the rest of a word completes it, and a second time replaces
    it. -/
theorem modernize_left :
    modernize .fragment .gles2 "gl_FragDepthEXTEXT = 1.0;" = "gl_FragDepthEXT = 1.0;" ∧
      modernize .fragment .gles2 "gl_FragDepthEXT = 1.0;" = "gl_FragDepth = 1.0;" := by
  decide +kernel

end ShaderPack.Source
