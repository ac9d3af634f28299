import Mathlib.Data.List.SplitBy
import ShaderPack.Proofs.Recovery.ModernizedHeader

namespace ShaderPack

/-!
# Bringing text up to date — identifier by identifier

The passes look for words anywhere in a text, also within other words, and each sees what the
passes before it have made.  Where every identifier that holds a word of a pass is that word,
this comes to looking up each identifier once: `modernize_identifiers`.

* `Text.identifiers` — the maximal runs of word characters in a text, and `Text.mapIdentifiers`,
  which rewrites them and leaves everything between them;
* `WordWise.eq_mapIdentifiers` — a rewriting that looks at one word at a time is determined by
  what it makes of identifiers;
* `replaceEach_word` — passes one after another do to a word what looking it up does, if no pass
  puts what another one replaces.
-/

namespace Text

variable {r f g : List Char → List Char} {s w : List Char} {x : Char}

/-! ### Identifiers -/

/-- The parts of a text: each maximal run of word characters, and each other character by
    itself. -/
def tokens (s : List Char) : List (List Char) := s.splitBy fun c d => isWord c && isWord d

/-- The maximal runs of word characters in a text, in order. -/
def identifiers (s : List Char) : List (List Char) := (tokens s).filter (·.all isWord)

/-- The text with every identifier rewritten and everything else as it is. -/
def mapIdentifiers (f : List Char → List Char) (s : List Char) : List Char :=
  (tokens s).flatMap fun token => if token.all isWord then f token else token

theorem tokens_word (hw : ∀ c ∈ w, isWord c = true) (hne : w ≠ []) : tokens w = [w] := by
  refine List.splitBy_of_isChain hne (List.Pairwise.isChain ?_)
  rw [List.pairwise_iff_forall_sublist]
  intro c d hcd
  have hc : isWord c = true := hw c (hcd.subset (by simp))
  have hd : isWord d = true := hw d (hcd.subset (by simp))
  simp [hc, hd]

/-- A character of no word is a part by itself and keeps the parts on its two sides. -/
theorem tokens_append_cons (hx : isWord x = false) (s t : List Char) :
    tokens (s ++ x :: t) = tokens s ++ [x] :: tokens t := by
  have hfront : tokens (s ++ x :: t) = tokens s ++ tokens (x :: t) :=
    List.splitBy_append_cons t fun c _ => by simp [hx]
  have hback : tokens ([x] ++ t) = tokens [x] ++ tokens t :=
    List.splitBy_append (by simp [hx])
  rw [hfront, show x :: t = [x] ++ t from rfl, hback]
  rfl

theorem mapIdentifiers_word (hw : ∀ c ∈ w, isWord c = true) (hne : w ≠ []) :
    mapIdentifiers f w = f w := by
  have hall : w.all isWord = true := List.all_eq_true.mpr hw
  rw [mapIdentifiers, tokens_word hw hne, List.flatMap_singleton, if_pos hall]

theorem mapIdentifiers_append_cons (hx : isWord x = false) (s t : List Char) :
    mapIdentifiers f (s ++ x :: t) = mapIdentifiers f s ++ x :: mapIdentifiers f t := by
  rw [mapIdentifiers, tokens_append_cons hx, List.flatMap_append, List.flatMap_cons]
  simp [mapIdentifiers, hx]

/-- What is rewritten are the identifiers. -/
theorem mapIdentifiers_congr (h : ∀ w ∈ identifiers s, f w = g w) :
    mapIdentifiers f s = mapIdentifiers g s := by
  refine List.flatMap_congr fun token htoken => ?_
  split
  · next hword => exact h token (List.mem_filter.mpr ⟨htoken, hword⟩)
  · rfl

/-- **A rewriting word by word** rewrites the identifiers and nothing else. -/
theorem WordWise.eq_mapIdentifiers (hr : WordWise r) (s : List Char) :
    r s = mapIdentifiers r s := by
  have hword {w : List Char} (hw : ∀ c ∈ w, isWord c = true) : r w = mapIdentifiers r w := by
    by_cases hne : w = []
    · rw [hne, hr.nil]
      rfl
    · exact (mapIdentifiers_word hw hne).symm
  induction s using words_induction with
  | word w hw => exact hword hw
  | behind w x s hw hx ih =>
    rw [hr.append_cons hx, mapIdentifiers_append_cons hx, hword hw, ih]

end Text

namespace Source

open Text Recovery.Header

variable {pairs : List (String × String)} {w : List Char}

/-! ### Looking words up -/

/-- What the first pair for a word has in its stead; the word itself if there is none. -/
def lookedUp (pairs : List (String × String)) (w : List Char) : List Char :=
  ((pairs.find? fun p => w = p.1.toList).map fun p => p.2.toList).getD w

theorem lookedUp_cons (p : String × String) (pairs : List (String × String)) (w : List Char) :
    lookedUp (p :: pairs) w = if w = p.1.toList then p.2.toList else lookedUp pairs w := by
  by_cases hw : w = p.1.toList
  · simp [lookedUp, hw]
  · simp [lookedUp, hw]

/-- **Passes look a word up** that holds no other word of a pass than itself, if nothing that
    one of them puts holds a word of another. -/
theorem replaceEach_word (hne : ∀ p ∈ pairs, p.1.toList ≠ [])
    (hput : ∀ p ∈ pairs, Modern pairs p.2.toList)
    (hw : ∀ p ∈ pairs, p.1.toList <:+: w → w = p.1.toList) :
    replaceEach pairs w = lookedUp pairs w := by
  induction pairs with
  | nil => rfl
  | cons p pairs ih =>
    obtain ⟨hp, hne⟩ := List.forall_mem_cons.mp hne
    rw [replaceEach_cons, lookedUp_cons]
    by_cases hfound : w = p.1.toList
    · -- the pass replaces the whole word, and the passes behind it leave what it puts
      have hmodern : Modern pairs p.2.toList := fun q hq =>
        hput p List.mem_cons_self q (List.mem_cons_of_mem p hq)
      have hreplaced : replaceAll p.1.toList p.2.toList w = p.2.toList := by
        rw [hfound]
        simpa using replaceAll_append hp p.2.toList []
      rw [if_pos hfound, hreplaced, replaceEach_eq_self hmodern]
    · have hfree : ¬p.1.toList <:+: w := mt (hw p List.mem_cons_self) hfound
      rw [if_neg hfound, replaceAll_eq_self hfree]
      exact ih hne
        (fun q hq r hr => hput q (List.mem_cons_of_mem p hq) r (List.mem_cons_of_mem p hr))
        fun q hq => hw q (List.mem_cons_of_mem p hq)

/-! ### The passes -/

/-- Nothing that a pass puts holds a word of a pass. -/
theorem modern_put {p : String × String} (hp : p ∈ legacyNames ++ raisingPasses) :
    Modern (legacyNames ++ raisingPasses) p.2.toList := by
  intro q hq
  have hregular := passes_regular hq
  rcases List.mem_append.mp hp with hlegacy | hraising
  · have hrenames := legacyNames_renames p hlegacy
    rcases List.mem_append.mp hq with hlegacy' | hraising'
    · exact hrenames.free (legacyNames_renames q hlegacy')
    · exact (hrenames.apart_precision hraising').free hregular.word.1
  · obtain ⟨word, -, rfl⟩ := List.mem_map.mp hraising
    exact (hregular.apart_old highp_apart).free hregular.word.1

/-- **Bringing text up to date renames identifiers**, all at once, where every identifier that
    holds a legacy name, or a precision that is raised, is that word: each such identifier gets
    the word in its stead, and everything else stays as it is. -/
theorem modernize_identifiers (stage : Stage) (dialect : Dialect) (source : String)
    (h : ∀ w ∈ identifiers source.toList, ∀ p ∈ passes stage dialect,
      p.1.toList <:+: w → w = p.1.toList) :
    (modernize stage dialect source).toList =
      mapIdentifiers (lookedUp (passes stage dialect)) source.toList := by
  have hsubset := passes_subset stage dialect
  have hne : ∀ p ∈ passes stage dialect, p.1.toList ≠ [] := fun p hp =>
    (passes_regular (hsubset hp)).word.1
  have hput : ∀ p ∈ passes stage dialect, Modern (passes stage dialect) p.2.toList :=
    fun p hp q hq => modern_put (hsubset hp) q (hsubset hq)
  calc (modernize stage dialect source).toList
      = replaceEach (passes stage dialect) source.toList := toList_modernize stage dialect source
    _ = mapIdentifiers (replaceEach (passes stage dialect)) source.toList :=
        (keepsHeaders_replaceEach hsubset).eq_mapIdentifiers source.toList
    _ = mapIdentifiers (lookedUp (passes stage dialect)) source.toList :=
        mapIdentifiers_congr fun w hw => replaceEach_word hne hput (h w hw)

/-- Two legacy names and two precisions of a vertex shader, one of them in a comment. -/
theorem modernize_identifiers_sample :
    (∀ w ∈ identifiers "mediump vec4 c = texture2DLodEXT(s, p_lod, shadow2DARB); // lowp é".toList,
      ∀ p ∈ passes .vertex .gles2, p.1.toList <:+: w → w = p.1.toList) ∧
    (modernize .vertex .gles2
        "mediump vec4 c = texture2DLodEXT(s, p_lod, shadow2DARB); // lowp é").toList =
      mapIdentifiers (lookedUp (passes .vertex .gles2))
        "mediump vec4 c = texture2DLodEXT(s, p_lod, shadow2DARB); // lowp é".toList ∧
    mapIdentifiers (lookedUp (passes .vertex .gles2))
        "mediump vec4 c = texture2DLodEXT(s, p_lod, shadow2DARB); // lowp é".toList =
      "highp vec4 c = texture2DLod(s, p_lod, shadow2D); // highp é".toList := by
  have h : ∀ w ∈ identifiers
      "mediump vec4 c = texture2DLodEXT(s, p_lod, shadow2DARB); // lowp é".toList,
      ∀ p ∈ passes .vertex .gles2, p.1.toList <:+: w → w = p.1.toList := by
    decide +kernel
  exact ⟨h, modernize_identifiers .vertex .gles2 _ h, by decide +kernel⟩

end Source

end ShaderPack
