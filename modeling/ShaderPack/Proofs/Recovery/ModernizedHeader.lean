import ShaderPack.Proofs.Recovery.HeaderRewriting
import ShaderPack.Proofs.Source.Modernize

namespace ShaderPack.Recovery.Header

open Source Text

/-!
# Declaration headers — scanning a text that was brought up to date

Legacy names and precisions are replaced wherever they stand, also within other words.  Still
the passes keep headers: the words that a scan looks for neither hold a word of a pass nor
begin one, a raised precision is a precision again, and numbers hold no letters.

So bringing a source up to date changes no binding but for its name, and a name only where it
holds a word of a pass: `table_scan_modernize`.  In a vertex shader `u_lowpass` is then called
`u_highpass`.
-/

/-! ### The words of the passes and those of a scan -/

/-- The words that a scan looks for have no capitals. -/
theorem keywords_lower : ∀ k ∈ keywords ++ precisions, k.toList.any Char.isUpper = false := by
  simp only [keywords, skippedQualifiers, Kind.typeNames, precisions, List.cons_append,
    List.nil_append, List.forall_mem_cons, List.not_mem_nil, false_implies, implies_true, and_true]
  and_intros <;> exact of_chars (P := fun k => k.any Char.isUpper = false) (by decide)

/-- None of them holds a precision, but for the precisions. -/
theorem keywords_free : ∀ k ∈ keywords, ∀ w ∈ precisions, ¬w.toList <:+: k.toList := by
  simp only [keywords, skippedQualifiers, Kind.typeNames, precisions, List.cons_append,
    List.nil_append, List.forall_mem_cons, List.not_mem_nil, false_implies, implies_true, and_true]
  and_intros <;>
    exact of_chars (P := fun w => ¬w <:+: _) (of_chars (P := fun k => ¬_ <:+: k) (by decide))

theorem leads_apart :
    ∀ lead ∈ leads, (∀ old ∈ oldLeads, Apart lead.toList old) ∧
      ∀ new ∈ newLeads, Apart lead.toList new := by
  simp only [leads, temporaryLead, Kind.samplerLeads, List.forall_mem_cons, List.not_mem_nil,
    false_implies, implies_true, and_true]
  and_intros <;> exact of_chars (P := fun lead => ∀ word ∈ _, Apart lead word) (by decide)

theorem leads_lettered : ∀ lead ∈ oldLeads ++ newLeads, Lettered lead := by decide

/-- A precision is raised to a precision, which no other one holds. -/
theorem precisions_raised :
    ∀ p ∈ raisingPasses, (p.1 ∈ precisions ∧ p.2 ∈ precisions) ∧ ¬p.1.toList <:+: p.2.toList ∧
      ∀ k ∈ precisions, (replaceAll p.1.toList p.2.toList k.toList ∈ precisions.map String.toList) ∧
          (p.2.toList <:+: k.toList → k = p.2) := by
  decide +kernel

variable {old new : List Char}

theorem old_lettered (hp : Regular old new) : Lettered old := by
  obtain ⟨lead, hmem, hlead⟩ := hp.lead
  obtain ⟨c, hc, hletter⟩ := leads_lettered lead (List.mem_append_left _ hmem)
  exact ⟨c, hlead.subset hc, hletter⟩

theorem new_lettered (hp : Regular old new) : Lettered new := by
  obtain ⟨lead, hmem, hlead⟩ := hp.newLead
  obtain ⟨c, hc, hletter⟩ := leads_lettered lead (List.mem_append_right _ hmem)
  exact ⟨c, hlead.subset hc, hletter⟩

theorem new_ne_nil (hp : Regular old new) : new ≠ [] := by
  obtain ⟨c, hc, -⟩ := new_lettered hp
  exact List.ne_nil_of_mem hc

/-! ### Passes keep headers -/

/-- A word without capitals is made of itself only when legacy names are replaced. -/
theorem eq_iff_of_renames (hp : Renames old new) {k : String} (hk : k ∈ keywords ++ precisions)
    (w : List Char) : replaceAll old new w = k.toList ↔ w = k.toList := by
  have hfree {word : List Char} (hword : word.any Char.isUpper = true) :
      ¬word <:+: k.toList := fun h => by
    obtain ⟨c, hc, hcapital⟩ := List.any_eq_true.mp hword
    exact List.any_eq_false.mp (keywords_lower k hk) c (h.subset hc) hcapital
  exact replaceAll_eq_iff hp.word.1 (hfree hp.capitals.1) (hfree hp.capitals.2)

/-- What a scan looks for at the beginning of a word is seen in the result. -/
theorem lead_iff_of_regular (hp : Regular old new) {lead : String} (hlead : lead ∈ leads)
    (w : List Char) : lead.toList <+: replaceAll old new w ↔ lead.toList <+: w := by
  have hreplaced := replaced_replaceAll hp.word.1 new w
  obtain ⟨hold, hnew⟩ := leads_apart lead hlead
  constructor
  · rintro ⟨behind, hbehind⟩
    rw [← hbehind] at hreplaced
    obtain ⟨t, rfl, -⟩ := hreplaced.of_append (hp.apart_new hnew)
    exact List.prefix_append _ t
  · rintro ⟨t, rfl⟩
    obtain ⟨behind, hbehind, -⟩ := hreplaced.append (hp.apart_old hold)
    rw [hbehind]
    exact List.prefix_append _ behind

/-- A text is kept, or it held letters and still does. -/
theorem number_of_regular (hp : Regular old new) (s : List Char) :
    replaceAll old new s = s ∨ Lettered s ∧ Lettered (replaceAll old new s) := by
  obtain ⟨c, hc, hletter⟩ := old_lettered hp
  obtain ⟨d, hd, hletter'⟩ := new_lettered hp
  by_cases hfound : old <:+: s
  · have hput := (replaced_replaceAll hp.word.1 new s).infix_new hp.word.1 hfound
    exact .inr ⟨⟨c, hfound.subset hc, hletter⟩, d, hput.subset hd, hletter'⟩
  · exact .inl (replaceAll_eq_self hfound new)

variable {p : String × String}

/-- A precision is made of precisions only when precisions are raised. -/
theorem precision_iff_of_raising (hp : p ∈ raisingPasses) (w : List Char) :
    replaceAll p.1.toList p.2.toList w ∈ precisions.map String.toList ↔
      w ∈ precisions.map String.toList := by
  have hregular := raisingPasses_regular p hp
  have hne := hregular.word.1
  obtain ⟨⟨hold, hnew⟩, hfree, hprecision⟩ := precisions_raised p hp
  constructor
  · intro h
    by_cases hfound : p.1.toList <:+: w
    · -- the result holds the highest precision, so it is this one
      have hput := (replaced_replaceAll hne p.2.toList w).infix_new hne hfound
      obtain ⟨k, hk, hresult⟩ := List.mem_map.mp h
      rw [← hresult] at hput
      rw [(hprecision k hk).2 hput] at hresult
      rcases (replaceAll_eq_new_iff hne (new_ne_nil hregular) hfree).mp hresult.symm with rfl | rfl
      · exact List.mem_map_of_mem hold
      · exact List.mem_map_of_mem hnew
    · rwa [replaceAll_eq_self hfound] at h
  · intro h
    obtain ⟨k, hk, rfl⟩ := List.mem_map.mp h
    exact (hprecision k hk).1

/-- **A pass keeps headers.** -/
theorem keepsHeaders_pass (hp : p ∈ legacyNames ++ raisingPasses) :
    KeepsHeaders (replaceAll p.1.toList p.2.toList) where
  toWordWise :=
    have hregular := passes_regular hp
    .replaceAll hregular.word.1 (List.all_eq_true.mp hregular.word.2) (new_ne_nil hregular)
      (List.all_eq_true.mp hregular.newWord)
  keyword k hk w := by
    rcases List.mem_append.mp hp with hlegacy | hraising
    · exact eq_iff_of_renames (legacyNames_renames p hlegacy) (List.mem_append_left _ hk) w
    · obtain ⟨⟨hold, hnew⟩, -⟩ := precisions_raised p hraising
      exact replaceAll_eq_iff (raisingPasses_regular p hraising).word.1
        (keywords_free k hk p.1 hold) (keywords_free k hk p.2 hnew)
  lead lead hlead w := lead_iff_of_regular (passes_regular hp) hlead w
  precision w := by
    rcases List.mem_append.mp hp with hlegacy | hraising
    · simp only [List.mem_map, @eq_comm _ (String.toList _)]
      exact exists_congr fun k => and_congr_right fun hk =>
        eq_iff_of_renames (legacyNames_renames p hlegacy) (List.mem_append_right _ hk) w
    · exact precision_iff_of_raising hraising w
  number s := number_of_regular (passes_regular hp) s

theorem keepsHeaders_replaceEach {pairs : List (String × String)}
    (h : pairs ⊆ legacyNames ++ raisingPasses) : KeepsHeaders (replaceEach pairs) := by
  induction pairs with
  | nil => exact .id
  | cons p pairs ih =>
    have hrest : pairs ⊆ legacyNames ++ raisingPasses := fun q hq => h (List.mem_cons_of_mem p hq)
    exact (keepsHeaders_pass (h List.mem_cons_self)).comp (ih hrest)

theorem passes_subset (stage : Stage) (dialect : Dialect) :
    passes stage dialect ⊆ legacyNames ++ raisingPasses := by
  unfold passes
  split
  · exact List.nil_subset _
  · split
    · exact fun _ h => h
    · exact List.subset_append_left _ _

/-! ### Scanning -/

theorem onString_replaceEach (stage : Stage) (dialect : Dialect) :
    onString (replaceEach (passes stage dialect)) = modernize stage dialect := by
  funext source
  rw [onString, ← toList_modernize, String.ofList_toList]

/-- **Bringing a source up to date keeps its bindings.** A table is recovered from it exactly
    if one is recovered from the source.  It holds the same bindings in the same order, with
    each name brought up to date as the source is; and it is the same table if no name holds
    anything to replace. -/
theorem table_scan_modernize (stage : Stage) (dialect : Dialect) (source : String) :
    (scan (modernize stage dialect source)).table.toOption =
        (scan source).table.toOption.map (BindingTable.rename (modernize stage dialect)) ∧
      ∀ table, (scan source).table = .ok table →
        (∀ b ∈ table.toList, Modern (passes stage dialect) b.name.toList) →
          (scan (modernize stage dialect source)).table = .ok table := by
  have hkeeps := keepsHeaders_replaceEach (passes_subset stage dialect)
  have htable := table_rewritten hkeeps source
  rw [onString_replaceEach] at htable
  refine ⟨htable, fun table hok hmodern => ?_⟩
  have hrename : table.rename (modernize stage dialect) = table := by
    ext1
    refine List.map_congr_left (fun b hb => ?_) |>.trans (List.map_id table.toList)
    have hname : modernize stage dialect b.name = b.name := by
      rw [← String.toList_inj, toList_modernize, replaceEach_eq_self (hmodern b hb)]
    rw [Binding.rename, hname]
    rfl
  rw [hok] at htable
  cases hscan : (scan (modernize stage dialect source)).table with
  | error cause => simp [hscan, Except.toOption] at htable
  | ok other => simpa [hscan, Except.toOption, hrename] using htable

/-- A raised precision changes no table. -/
theorem table_scan_raised :
    ∃ table, (scan "uniform lowp vec4 u_a[2];\n").table = .ok table ∧
      (∀ b ∈ table.toList, Modern (passes .vertex .desktopGL) b.name.toList) ∧
      (scan (modernize .vertex .desktopGL "uniform lowp vec4 u_a[2];\n")).table = .ok table := by
  have hscan : (scan "uniform lowp vec4 u_a[2];\n").table =
      .ok (.ofList [.declared "u_a" .vec4 2]) :=
    table_scan_single (by decide +kernel)
  have hmodern : ∀ b ∈ (BindingTable.ofList [.declared "u_a" .vec4 2]).toList,
      Modern (passes .vertex .desktopGL) b.name.toList := by
    unfold Modern
    decide +kernel
  exact ⟨_, hscan, hmodern, (table_scan_modernize .vertex .desktopGL _).2 _ hscan hmodern⟩

/-- A name that holds a word of a pass is not kept. -/
theorem table_scan_renamed :
    (scan "uniform vec4 u_lowpass;\n").table = .ok (.ofList [.declared "u_lowpass" .vec4 1]) ∧
      (scan (modernize .vertex .desktopGL "uniform vec4 u_lowpass;\n")).table =
        .ok (.ofList [.declared "u_highpass" .vec4 1]) := by
  have hmodernize : modernize .vertex .desktopGL "uniform vec4 u_lowpass;\n" =
      "uniform vec4 u_highpass;\n" := by
    decide +kernel
  rw [hmodernize]
  exact ⟨table_scan_single (by decide +kernel), table_scan_single (by decide +kernel)⟩

end ShaderPack.Recovery.Header
