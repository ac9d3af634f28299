import ShaderPack.Proofs.Source.Modernize
import ShaderPack.Proofs.Text.OnePass

namespace ShaderPack.Source

open Text

/-!
# Raising precisions — all at once, before or after renaming

Precisions are raised in one pass for each keyword, and legacy names are given up in passes before
that.  None of this order can be seen in the result: no keyword begins in another one, in a legacy
name, in a later name or in `highp`, nor do any of these begin in a keyword.  So every pass spares
the words of the others (`spares_precision`, `spares_legacy`, `precisions_spare`), and

* `replaceEach_eq_replaceAny` — passes that spare each other's words are one pass;
* `replaceEach_perm`, `replaceEach_comm` — passes that may change places come in any order.

`raisePrecision_at_once` puts these together for the keywords.
-/

variable {pairs others : List (String × String)} {p q : String × String} {s : List Char}

/-! ### Passes one after another -/

/-- **Passes are one pass** if each one spares the words of those behind it. -/
theorem replaceEach_eq_replaceAny (hne : ∀ p ∈ pairs, p.1.toList ≠ [])
    (hspares : pairs.Pairwise Spares) (s : List Char) :
    replaceEach pairs s = replaceAny pairs s := by
  induction pairs generalizing s with
  | nil => exact (replaceAny_none s).symm
  | cons p pairs ih =>
    obtain ⟨hp, hne⟩ := List.forall_mem_cons.mp hne
    obtain ⟨hfirst, hspares⟩ := List.pairwise_cons.mp hspares
    rw [replaceEach_cons, ih hne hspares, replaceAny_replaceAll hp hne hfirst]

/-- Two passes may change places. -/
def Interchange (p q : String × String) : Prop :=
  ∀ s, replaceAll q.1.toList q.2.toList (replaceAll p.1.toList p.2.toList s) =
    replaceAll p.1.toList p.2.toList (replaceAll q.1.toList q.2.toList s)

/-- Passes come in any order if any two of them may change places. -/
theorem replaceEach_perm (h : pairs.Perm others) (hcomm : ∀ p ∈ pairs, ∀ q ∈ pairs, Interchange p q)
    (s : List Char) : replaceEach pairs s = replaceEach others s :=
  h.foldl_eq' (fun p hp q hq text => hcomm p hp q hq text) s

/-- A pass that may change places with each of some others goes behind them. -/
theorem replaceEach_replaceAll (hcomm : ∀ q ∈ others, Interchange p q) (s : List Char) :
    replaceEach others (replaceAll p.1.toList p.2.toList s) =
      replaceAll p.1.toList p.2.toList (replaceEach others s) := by
  induction others generalizing s with
  | nil => rfl
  | cons q others ih =>
    obtain ⟨hq, hcomm⟩ := List.forall_mem_cons.mp hcomm
    rw [replaceEach_cons, hq s, ih hcomm, replaceEach_cons]

/-- Two rows of passes change places if each pass of the one may do so with each of the other. -/
theorem replaceEach_comm (hcomm : ∀ p ∈ pairs, ∀ q ∈ others, Interchange p q) (s : List Char) :
    replaceEach others (replaceEach pairs s) = replaceEach pairs (replaceEach others s) := by
  induction pairs generalizing s with
  | nil => rfl
  | cons p pairs ih =>
    obtain ⟨hp, hcomm⟩ := List.forall_mem_cons.mp hcomm
    rw [replaceEach_cons, ih hcomm, replaceEach_replaceAll hp, replaceEach_cons]

/-! ### The words of the passes -/

/-- Every precision is raised to the same one. -/
theorem raisingPasses_new (hp : p ∈ raisingPasses) : p.2 = "highp" := by
  obtain ⟨word, -, rfl⟩ := List.mem_map.mp hp
  rfl

/-- No keyword begins in a legacy name, and no legacy name in a keyword. -/
theorem legacyNames_apart :
    ∀ p ∈ legacyNames, ∀ q ∈ raisingPasses,
      Apart p.1.toList q.1.toList ∧ Apart q.1.toList p.1.toList := by
  decide +kernel

theorem spares_precision (hp : p ∈ legacyNames) (hq : q ∈ raisingPasses) : Spares p q where
  taken := (legacyNames_apart p hp q hq).2
  put := (legacyNames_renames p hp).apart_precision hq
  seam := (legacyNames_renames p hp).apart_new (raisingPasses_regular q hq).apart

theorem spares_legacy (hp : p ∈ raisingPasses) (hq : q ∈ legacyNames) : Spares p q where
  taken := (legacyNames_apart q hq p hp).1
  put := by
    rw [raisingPasses_new hp]
    exact (legacyNames_renames q hq).apart_old highp_apart
  seam := (raisingPasses_regular p hp).apart_new (legacyNames_renames q hq).apart

theorem precisions_spare :
    ∀ p ∈ raisingPasses, ∀ q ∈ raisingPasses, p = q ∨ Spares p q := by
  decide +kernel

theorem legacy_interchange (hp : p ∈ legacyNames) (hq : q ∈ raisingPasses) :
    Interchange p q := fun s =>
  replaceAll_comm (legacyNames_renames p hp).word.1 (raisingPasses_regular q hq).word.1
    (spares_precision hp hq) (spares_legacy hq hp) s

theorem precisions_interchange (hp : p ∈ raisingPasses) (hq : q ∈ raisingPasses) :
    Interchange p q := by
  rcases precisions_spare p hp q hq with rfl | hpq
  · exact fun _ => rfl
  rcases precisions_spare q hq p hp with rfl | hqp
  · exact fun _ => rfl
  exact replaceAll_comm (raisingPasses_regular p hp).word.1 (raisingPasses_regular q hq).word.1
    hpq hqp

/-! ### Raised precisions -/

theorem toList_raisePrecision (source : String) :
    (raisePrecision source).toList = replaceEach raisingPasses source.toList :=
  String.toList_ofList

theorem toList_renameLegacy (source : String) :
    (renameLegacy source).toList = replaceEach legacyNames source.toList :=
  String.toList_ofList

/-- No precision is left to be raised. -/
theorem modern_raised (s : List Char) : Modern raisingPasses (replaceEach raisingPasses s) :=
  fun q hq => free_raised (raisingPasses_regular q hq) (.inl hq)

/-- **Raising precisions is one replacement of all keywords at once.**  None of them is left, the
    order in which they are replaced does not matter, a second time changes nothing, and it is the
    same whether legacy names are renamed before or after. -/
theorem raisePrecision_at_once (source : String) :
    (¬"lowp".toList <:+: (raisePrecision source).toList ∧
      ¬"mediump".toList <:+: (raisePrecision source).toList) ∧
    (raisePrecision source).toList =
      replaceAny [("lowp", "highp"), ("mediump", "highp")] source.toList ∧
    (∀ words : List String, words.Perm ["lowp", "mediump"] →
      (raisePrecision source).toList = replaceEach (words.map (·, "highp")) source.toList) ∧
    raisePrecision (raisePrecision source) = raisePrecision source ∧
    renameLegacy (raisePrecision source) = raisePrecision (renameLegacy source) := by
  have hmodern := modern_raised source.toList
  rw [← toList_raisePrecision] at hmodern
  refine ⟨⟨?_, ?_⟩, ?_, ?_, ?_, ?_⟩
  · exact hmodern ("lowp", "highp") (by decide)
  · exact hmodern ("mediump", "highp") (by decide)
  · rw [toList_raisePrecision]
    have hnodup : raisingPasses.Nodup := by decide
    have hpairwise : raisingPasses.Pairwise Spares := hnodup.imp_of_mem fun hp hq hne =>
      (precisions_spare _ hp _ hq).resolve_left hne
    exact replaceEach_eq_replaceAny (fun p hp => (raisingPasses_regular p hp).word.1) hpairwise _
  · intro words hwords
    rw [toList_raisePrecision]
    exact (replaceEach_perm (hwords.map _).symm
      (fun p hp q hq => precisions_interchange hp hq) source.toList)
  · rw [← String.toList_inj, toList_raisePrecision, replaceEach_eq_self hmodern]
  · rw [← String.toList_inj, toList_renameLegacy, toList_raisePrecision, toList_raisePrecision,
      toList_renameLegacy]
    exact (replaceEach_comm (fun p hp q hq => legacy_interchange hp hq) source.toList).symm

end ShaderPack.Source
