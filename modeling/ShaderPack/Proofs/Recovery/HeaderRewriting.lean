import ShaderPack.Proofs.Recovery.HeaderText
import ShaderPack.Proofs.Text.WordWise

namespace ShaderPack

open Source (afterLine)
open Text

/-!
# Declaration headers — scanning a rewritten text

A rewriting `KeepsHeaders` if it goes word by word and changes neither the words that a scan
looks for nor the numbers in a text.  Such a rewriting shows in the names of the bindings and
nowhere else: `Header.bindings?_rewritten`.
-/

/-! ### Bindings under other names -/

/-- The binding under another name. -/
def Binding.rename (f : String → String) (b : Binding) : Binding := { b with name := f b.name }

/-- The table with every binding under another name. -/
def BindingTable.rename (f : String → String) (t : BindingTable) : BindingTable :=
  ⟨t.toList.map (Binding.rename f), by
    intro b hb
    obtain ⟨a, ha, rfl⟩ := List.mem_map.mp hb
    exact t.known a ha⟩

/-- A binding is of known kind under any name. -/
theorem BindingTable.ofList_rename (f : String → String) (bindings : List Binding) :
    ofList (bindings.map (Binding.rename f)) = (ofList bindings).rename f := by
  ext1
  simp only [toList_ofList, rename, List.filter_map]
  rfl

namespace Kind

/-- The type names that stand for a kind as they are. -/
def typeNames : List String := ["int", "vec4", "float4", "mat3", "float3x3", "mat4", "float4x4"]

theorem ofName_eq_unknown {name : String} (hlead : samplerLeads.any (startsWith · name) = false)
    (h : name ∉ typeNames) : ofName name = .unknown := by
  unfold ofName
  rw [hlead]
  simp only [typeNames, List.mem_cons, List.not_mem_nil, or_false, not_or] at h
  simp [h]

/-- The kind of a type name depends on how it begins and on its being a known one. -/
theorem ofName_congr {name other : String}
    (hlead : ∀ lead ∈ samplerLeads, lead.toList <+: name.toList ↔ lead.toList <+: other.toList)
    (hname : ∀ known ∈ typeNames, name = known ↔ other = known) :
    ofName name = ofName other := by
  have hany : samplerLeads.any (startsWith · name) = samplerLeads.any (startsWith · other) := by
    rw [Bool.eq_iff_iff]
    simp only [List.any_eq_true, startsWith, List.isPrefixOf_iff_prefix]
    exact exists_congr fun lead => and_congr_right (hlead lead)
  by_cases hknown : name ∈ typeNames
  · rw [(hname name hknown).mp rfl]
  · have hother : other ∉ typeNames := fun h => hknown ((hname other h).mpr rfl ▸ h)
    cases hleads : samplerLeads.any (startsWith · other) with
    | true => simp only [ofName, hany, hleads, if_true]
    | false => rw [ofName_eq_unknown (hany.trans hleads) hknown, ofName_eq_unknown hleads hother]

end Kind

namespace Recovery

/-! ### Numbers -/

/-- The text holds a letter or an underscore. -/
def Lettered (s : List Char) : Prop := ∃ c ∈ s, isWord c = true ∧ c.isDigit = false

instance (s : List Char) : Decidable (Lettered s) :=
  decidable_of_iff (s.any fun c => isWord c && !c.isDigit) (by simp [Lettered])

/-- What holds a letter is no number. -/
theorem parse?_lettered {s : List Char} (h : Lettered s) (limit : Nat) :
    Decimal.parse? limit (trim s) = none := by
  obtain ⟨c, hc, hword, hdigit⟩ := h
  have htrim : c ∈ trim s := mem_trim (isBlank_of_isWord hword) hc
  have hplus : c ≠ '+' := by
    rintro rfl
    exact absurd hword (by decide)
  have hunsigned : c ∈ Decimal.unsigned (trim s) := by
    unfold Decimal.unsigned
    split
    · next rest heq => exact (List.mem_cons.mp (heq ▸ htrim)).resolve_left hplus
    · exact htrim
  have hall : (Decimal.unsigned (trim s)).all Char.isDigit = false := by
    rw [List.all_eq_false]
    exact ⟨c, hunsigned, by simp [hdigit]⟩
  simp [Decimal.parse?, hall]

/-! ### What a scan looks for -/

namespace Header

/-- The words that a scan knows besides the precisions. -/
def keywords : List String := ("uniform" :: skippedQualifiers) ++ Kind.typeNames

/-- The beginnings of words that a scan knows. -/
def leads : List String := temporaryLead :: Kind.samplerLeads

/-- A rewriting that goes word by word and keeps what a scan looks for. -/
structure KeepsHeaders (r : List Char → List Char) : Prop extends WordWise r where
  keyword : ∀ k ∈ keywords, ∀ w, r w = k.toList ↔ w = k.toList
  lead : ∀ lead ∈ leads, ∀ w, lead.toList <+: r w ↔ lead.toList <+: w
  precision : ∀ w, r w ∈ precisions.map String.toList ↔ w ∈ precisions.map String.toList
  number : ∀ s, r s = s ∨ Lettered s ∧ Lettered (r s)

/-- The rewriting of a text as one of a string. -/
def onString (r : List Char → List Char) (s : String) : String := .ofList (r s.toList)

namespace KeepsHeaders

variable {r q : List Char → List Char} (hr : KeepsHeaders r)

theorem id : KeepsHeaders fun s => s :=
  ⟨.id, fun _ _ _ => .rfl, fun _ _ _ => .rfl, fun _ => .rfl, fun _ => .inl rfl⟩

include hr

theorem comp (hq : KeepsHeaders q) : KeepsHeaders fun s => q (r s) where
  toWordWise := hr.toWordWise.comp hq.toWordWise
  keyword k hk w := (hq.keyword k hk (r w)).trans (hr.keyword k hk w)
  lead lead hlead w := (hq.lead lead hlead (r w)).trans (hr.lead lead hlead w)
  precision w := (hq.precision (r w)).trans (hr.precision w)
  number s := by
    rcases hr.number s with h | ⟨h, hletter⟩
    · rw [h]
      exact hq.number s
    · rcases hq.number (r s) with h' | ⟨-, h'⟩
      · exact .inr ⟨h, h'.symm ▸ hletter⟩
      · exact .inr ⟨h, h'⟩

theorem temporary (w : List Char) : Temporary (r w) ↔ Temporary w :=
  hr.lead temporaryLead (by simp [leads]) w

/-- The same statements are passed over. -/
theorem skippable (s : List Char) : Skippable (r s) ↔ Skippable s := by
  have hqualifier (w : List Char) :
      r w ∈ skippedQualifiers.map String.toList ↔ w ∈ skippedQualifiers.map String.toList := by
    have hkeyword (k : String) (hk : k ∈ skippedQualifiers) := hr.keyword k (by simp [keywords, hk]) w
    simp only [List.mem_map, eq_comm]
    exact exists_congr fun k => and_congr_right (hkeyword k)
  simp only [Skippable, hr.firstWord_eq, hr.behindWord_eq, hqualifier, hr.temporary]

/-- Types keep their kinds. -/
theorem ofName (w : List Char) : Kind.ofName (.ofList (r w)) = Kind.ofName (.ofList w) := by
  refine Kind.ofName_congr (fun lead hlead => ?_) (fun known hknown => ?_)
  · simp only [String.toList_ofList]
    exact hr.lead lead (List.mem_cons_of_mem _ hlead) w
  · simp only [← String.toList_inj, String.toList_ofList]
    exact hr.keyword known (List.mem_append_right _ hknown) w

/-- Array sizes are the same numbers. -/
theorem sizeInside? (text : List Char) :
    Header.sizeInside? (r text) = Header.sizeInside? text := by
  unfold Header.sizeInside?
  rw [hr.cutAt?_eq (by decide)]
  cases cutAt? ']' text with
  | none => rfl
  | some cut =>
    simp only [Option.map_some, Option.bind_some, Prod.map_fst]
    rcases hr.number cut.1 with h | ⟨h, h'⟩
    · rw [h]
    · rw [parse?_lettered h, parse?_lettered h']

theorem sizeIn? (s : List Char) : Header.sizeIn? (r s) = Header.sizeIn? s := by
  have hbracket : isWord '[' = false := by decide
  unfold Header.sizeIn?
  by_cases hopen : s.head? = some '['
  · obtain ⟨inside, rfl⟩ := List.head?_eq_some_iff.mp hopen
    rw [hr.cons hbracket, if_pos (by simp), if_pos (by simp), List.tail_cons, List.tail_cons,
      hr.sizeInside?]
  · rw [if_neg hopen, if_neg (mt (hr.head?_iff hbracket).mp hopen)]

theorem typeIn (s : List Char) : Header.typeIn (r s) = Prod.map r r (Header.typeIn s) := by
  unfold Header.typeIn
  simp only [hr.firstWord_eq, hr.behindWord_eq, hr.precision]
  split <;> rfl

/-- The same is declared, under the rewritten name. -/
theorem declared? (s : List Char) :
    Header.declared? (r s) = (Header.declared? s).map (Binding.rename (onString r)) := by
  simp only [Header.declared?, hr.typeIn, Prod.map_fst, Prod.map_snd, hr.firstWord_eq,
    hr.behindWord_eq, hr.eq_nil_iff, hr.sizeIn?, hr.ofName]
  split
  · rfl
  · rw [Option.map_map]
    congr 1
    funext size
    simp [Binding.rename, Binding.declared, onString]

end KeepsHeaders

/-! ### Scanning -/

/-- The progress in a rewritten text. -/
def Progress.rewrite (r : List Char → List Char) : Progress → Progress
  | ends => ends
  | malformed => malformed
  | goesOn found rest => goesOn (found.map (Binding.rename (onString r))) (r rest)

variable {r : List Char → List Char}

/-- **One step of a scan** of a rewritten text is a step of the scan of the text. -/
theorem progress_rewritten (hr : KeepsHeaders r) (s : List Char) :
    progress (r s) = (progress s).rewrite r := by
  unfold progress
  rw [hr.cutAt?_eq (by decide)]
  cases cutAt? ';' s with
  | none => rfl
  | some cut =>
    obtain ⟨before, after⟩ := cut
    have huniform : r (firstWord before) = "uniform".toList ↔
        firstWord before = "uniform".toList := hr.keyword "uniform" (by simp [keywords]) _
    simp only [Option.map_some, Prod.map_apply, hr.skippable, hr.firstWord_eq, hr.behindWord_eq,
      huniform, hr.declared?, hr.afterLine_eq]
    split
    · rfl
    · split
      · cases Header.declared? (behindWord before) <;> rfl
      · rfl

/-- **A scan of a rewritten text** finds the bindings of the text under rewritten names. -/
theorem bindings?_rewritten (hr : KeepsHeaders r) (s : List Char) :
    bindings? (r s) = (bindings? s).map (List.map (Binding.rename (onString r))) := by
  induction hlen : s.length using Nat.strongRecOn generalizing s with
  | _ len ih =>
    have hstep := progress_rewritten hr s
    cases hprogress : progress s with
    | ends =>
      rw [hprogress] at hstep
      rw [bindings?_ends hstep, bindings?_ends hprogress]
      rfl
    | malformed =>
      rw [hprogress] at hstep
      rw [bindings?_malformed hstep, bindings?_malformed hprogress]
      rfl
    | goesOn found rest =>
      rw [hprogress] at hstep
      have hless : rest.length < len := hlen ▸ length_lt_of_progress hprogress
      rw [bindings?_goesOn hstep, bindings?_goesOn hprogress, ih rest.length hless rest rfl,
        Option.map_map, Option.map_map]
      congr 1
      funext others
      cases found <;> rfl

/-- The table of a rewritten source is the table of the source under rewritten names. -/
theorem table_rewritten (hr : KeepsHeaders r) (source : String) :
    (scan (onString r source)).table.toOption =
      (scan source).table.toOption.map (BindingTable.rename (onString r)) := by
  rw [table_scan, table_scan, onString, String.toList_ofList, bindings?_rewritten hr,
    Option.map_map, Option.map_map]
  congr 1
  funext bindings
  exact BindingTable.ofList_rename (onString r) bindings

end Header

end Recovery

end ShaderPack
