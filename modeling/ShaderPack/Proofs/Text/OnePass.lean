import Mathlib.Data.List.Basic
import Mathlib.Data.List.Find
import ShaderPack.Proofs.Text.Replacement

namespace ShaderPack.Text

/-!
# Replacing several words in one pass

`replaceAny` goes through a text once, from left to right, and looks at every place for all of its
words at the same time.  `replaceAll`, one word after the other, sees what has been put before and
misses what has been taken away; where one word spares another (`Spares`) it comes to the same:

* `replaceAny_replaceAll` — a pass for one word in front of a pass for others is a pass for all of
  them;
* `replaceAny_perm` — the words may come in any order;
* `replaceAll_comm` — so two passes that spare each other's words may change places.
-/

variable {pairs others : List (String × String)} {p q : String × String} {s t : List Char}
  {c : Char}

/-! ### One pass for several words -/

/-- Whether the text begins with the word of a pair. -/
def begins (s : List Char) (p : String × String) : Bool := p.1.toList.isPrefixOf s

theorem begins_iff : begins s p = true ↔ p.1.toList <+: s := List.isPrefixOf_iff_prefix

/-- The pass of `replaceAny`; `skip` counts the characters of an occurrence that are still to be
    passed over. -/
def replaceAnyFrom (pairs : List (String × String)) : Nat → List Char → List Char
  | _, [] => []
  | skip + 1, _ :: rest => replaceAnyFrom pairs skip rest
  | 0, c :: rest =>
    match pairs.find? (begins (c :: rest)) with
    | some p => p.2.toList ++ replaceAnyFrom pairs (p.1.toList.length - 1) rest
    | none => c :: replaceAnyFrom pairs 0 rest

/-- The text with every occurrence of one of the words, found from the left and without overlap,
    replaced by what its pair puts; where several begin, the first pair counts. -/
def replaceAny (pairs : List (String × String)) (s : List Char) : List Char :=
  replaceAnyFrom pairs 0 s

/-- Passing over characters drops them. -/
theorem replaceAnyFrom_skip (pairs : List (String × String)) (skip : Nat) (s : List Char) :
    replaceAnyFrom pairs skip s = replaceAny pairs (s.drop skip) := by
  induction s generalizing skip with
  | nil => rw [List.drop_nil]; cases skip <;> rfl
  | cons c s ih =>
    cases skip with
    | zero => rfl
    | succ skip => exact ih skip

/-- A word at the beginning is replaced as a whole. -/
theorem replaceAny_found (hp : p.1.toList ≠ [])
    (h : pairs.find? (begins (p.1.toList ++ s)) = some p) :
    replaceAny pairs (p.1.toList ++ s) = p.2.toList ++ replaceAny pairs s := by
  obtain ⟨c, word, hword⟩ := List.exists_cons_of_ne_nil hp
  rw [hword, List.cons_append] at h ⊢
  rw [replaceAny, replaceAnyFrom, h]
  simp [replaceAnyFrom_skip, hword]

/-- Any other character is kept. -/
theorem replaceAny_kept (h : pairs.find? (begins (c :: s)) = none) :
    replaceAny pairs (c :: s) = c :: replaceAny pairs s := by
  rw [replaceAny, replaceAnyFrom, h]
  rfl

/-- Without words nothing is changed. -/
theorem replaceAny_none (s : List Char) : replaceAny [] s = s := by
  induction s with
  | nil => rfl
  | cons c s ih => rw [replaceAny_kept List.find?_nil, ih]

/-- A text in which no word begins stays in front. -/
theorem replaceAny_append (h : ∀ p ∈ pairs, Apart t p.1.toList) (s : List Char) :
    replaceAny pairs (t ++ s) = t ++ replaceAny pairs s := by
  induction t with
  | nil => rfl
  | cons c t ih =>
    have hkept : pairs.find? (begins (c :: (t ++ s))) = none := by
      rw [List.find?_eq_none]
      exact fun p hp => mt begins_iff.mp ((h p hp).not_begins s)
    rw [List.cons_append, replaceAny_kept hkept, ih fun p hp => (h p hp).2.2, List.cons_append]

/-- What is found at every place decides what a pass does. -/
theorem replaceAny_congr (h : ∀ s, pairs.find? (begins s) = others.find? (begins s))
    (s : List Char) : replaceAny pairs s = replaceAny others s := by
  suffices hfrom : ∀ skip, replaceAnyFrom pairs skip s = replaceAnyFrom others skip s from hfrom 0
  induction s with
  | nil => intro skip; cases skip <;> rfl
  | cons c s ih =>
    intro skip
    cases skip with
    | succ skip => exact ih skip
    | zero =>
      rw [replaceAnyFrom, replaceAnyFrom, h]
      split
      · rw [ih]
      · rw [ih]

/-! ### Passes that leave each other's words alone -/

/-- A pass for `p` neither takes away nor makes an occurrence of the word of `q`, not even at the
    seams of what it puts. -/
structure Spares (p q : String × String) : Prop where
  taken : Apart q.1.toList p.1.toList
  put : Apart p.2.toList q.1.toList
  seam : Apart q.1.toList.tail p.2.toList

instance (p q : String × String) : Decidable (Spares p q) :=
  decidable_of_iff (_ ∧ _ ∧ _) ⟨fun ⟨h₁, h₂, h₃⟩ => ⟨h₁, h₂, h₃⟩, fun h => ⟨h.taken, h.put, h.seam⟩⟩

/-- No two words, one of which is spared, begin at the same place. -/
theorem Spares.not_begins (h : Spares p q) (hq : q.1.toList ≠ []) :
    ¬(p.1.toList <+: s ∧ q.1.toList <+: s) := by
  rintro ⟨hp, ⟨t, rfl⟩⟩
  obtain ⟨c, word, hword⟩ := List.exists_cons_of_ne_nil hq
  have hapart := h.taken
  rw [hword] at hapart hp
  exact hapart.not_begins t hp

/-- Behind a character that a pass keeps, a spared word begins in the result exactly where it
    begins in the text, and what stands behind it is the result for what stood there. -/
theorem Spares.kept (h : Spares p q) (hp : p.1.toList ≠ []) (hq : q.1.toList ≠ [])
    (hsplit : q.1.toList ++ t = c :: s) :
    c :: replaceAll p.1.toList p.2.toList s =
      q.1.toList ++ replaceAll p.1.toList p.2.toList t := by
  have hapart := h.taken
  obtain ⟨d, word, hword⟩ := List.exists_cons_of_ne_nil hq
  rw [hword] at hapart hsplit ⊢
  rw [List.cons_append] at hsplit
  obtain ⟨rfl, rfl⟩ := List.cons.inj hsplit
  obtain ⟨out, hout, hbehind⟩ := (replaced_replaceAll hp p.2.toList (word ++ t)).append hapart.2.2
  rw [hout, hbehind.eq hp, List.cons_append]

theorem Spares.begins_iff (h : Spares p q) (hp : p.1.toList ≠ []) (hq : q.1.toList ≠ []) :
    q.1.toList <+: c :: replaceAll p.1.toList p.2.toList s ↔ q.1.toList <+: c :: s := by
  constructor
  · rintro ⟨out, hout⟩
    have hseam := h.seam
    obtain ⟨d, word, hword⟩ := List.exists_cons_of_ne_nil hq
    rw [hword] at hseam hout ⊢
    obtain ⟨rfl, hrest⟩ := List.cons.inj hout
    have hreplaced := replaced_replaceAll hp p.2.toList s
    rw [← hrest] at hreplaced
    obtain ⟨t, rfl, -⟩ := hreplaced.of_append hseam
    exact List.prefix_append (d :: word) t
  · rintro ⟨t, ht⟩
    rw [h.kept hp hq ht]
    exact List.prefix_append _ _

/-- **Two passes are one** if the first one spares the words of the second. -/
theorem replaceAny_replaceAll (hp : p.1.toList ≠ []) (hpairs : ∀ q ∈ pairs, q.1.toList ≠ [])
    (hspares : ∀ q ∈ pairs, Spares p q) (s : List Char) :
    replaceAny pairs (replaceAll p.1.toList p.2.toList s) = replaceAny (p :: pairs) s := by
  -- the induction is on the text that is left, behind an occurrence or behind a character
  induction hlen : s.length using Nat.strongRecOn generalizing s with
  | _ len ih =>
    have hbehind {word t : List Char} (hword : word ≠ []) (ht : word ++ t = s) :
        t.length < len := by
      have hpos : 0 < word.length := List.length_pos_iff.mpr hword
      have hsum : word.length + t.length = len := by rw [← List.length_append, ht, hlen]
      omega
    cases s with
    | nil => rfl
    | cons c s =>
      by_cases hfirst : p.1.toList <+: c :: s
      · -- the word of the first pass is replaced, and the others do not begin in what is put
        obtain ⟨t, ht⟩ := hfirst
        have hfind : (p :: pairs).find? (begins (p.1.toList ++ t)) = some p :=
          List.find?_cons_of_pos (begins_iff.mpr (List.prefix_append _ t))
        rw [← ht, replaceAll_append hp, replaceAny_append fun q hq => (hspares q hq).put,
          replaceAny_found hp hfind, ih t.length (hbehind hp ht) t rfl]
      · have hfind : (p :: pairs).find? (begins (c :: s)) = pairs.find? (begins (c :: s)) :=
          List.find?_cons_of_neg (mt begins_iff.mp hfirst)
        have hkept : pairs.find? (begins (c :: replaceAll p.1.toList p.2.toList s)) =
            pairs.find? (begins (c :: s)) := by
          refine List.find?_congr fun q hq => Bool.eq_iff_iff.mpr ?_
          rw [begins_iff, begins_iff]
          exact (hspares q hq).begins_iff hp (hpairs q hq)
        rw [replaceAll_cons_kept hfirst]
        cases hfound : pairs.find? (begins (c :: s)) with
        | none =>
          rw [hfound] at hfind hkept
          rw [replaceAny_kept hkept, replaceAny_kept hfind,
            ih s.length (hbehind (List.cons_ne_nil c []) rfl) s rfl]
        | some q =>
          -- another word is replaced, which the first pass has kept
          rw [hfound] at hfind hkept
          have hmem : q ∈ pairs := List.mem_of_find?_eq_some hfound
          have hq := hpairs q hmem
          obtain ⟨t, ht⟩ := begins_iff.mp (List.find?_some hfound)
          have hresult := (hspares q hmem).kept hp hq ht
          rw [hresult] at hkept ⊢
          rw [← ht] at hfind ⊢
          rw [replaceAny_found hq hkept, replaceAny_found hq hfind,
            ih t.length (hbehind hq ht) t rfl]

-- `b`, put for `ab`, completes a second word, which only a pass behind that sees.
example : replaceAny [("ab", "b"), ("bc", "x")] "abc".toList = "bc".toList ∧
    replaceAll "bc".toList "x".toList (replaceAll "ab".toList "b".toList "abc".toList) =
      "x".toList := by
  decide +kernel

/-- One word alone is replaced as by itself. -/
theorem replaceAll_eq_replaceAny (hp : p.1.toList ≠ []) (s : List Char) :
    replaceAll p.1.toList p.2.toList s = replaceAny [p] s := by
  rw [← replaceAny_replaceAll hp (by simp) (by simp), replaceAny_none]

/-- **The order of the words does not matter** where no two begin at the same place. -/
theorem replaceAny_perm (h : pairs.Perm others)
    (hone : ∀ s, ∀ q ∈ pairs, ∀ r ∈ pairs, q.1.toList <+: s → r.1.toList <+: s → q = r)
    (s : List Char) : replaceAny pairs s = replaceAny others s := by
  refine replaceAny_congr (fun s => List.find?_eq_find?_of_perm h ?_) s
  intro q hq r hr
  exact hone s q hq.1 r hr.1 (begins_iff.mp hq.2) (begins_iff.mp hr.2)

/-- **Passes that spare each other's words change places.** -/
theorem replaceAll_comm (hp : p.1.toList ≠ []) (hq : q.1.toList ≠ []) (hpq : Spares p q)
    (hqp : Spares q p) (s : List Char) :
    replaceAll q.1.toList q.2.toList (replaceAll p.1.toList p.2.toList s) =
      replaceAll p.1.toList p.2.toList (replaceAll q.1.toList q.2.toList s) := by
  have hone : ∀ s, ∀ r ∈ [p, q], ∀ r' ∈ [p, q],
      r.1.toList <+: s → r'.1.toList <+: s → r = r' := by
    intro s r hr r' hr' hs hs'
    rcases List.mem_pair.mp hr with rfl | rfl <;> rcases List.mem_pair.mp hr' with rfl | rfl
    · rfl
    · exact absurd ⟨hs, hs'⟩ (hpq.not_begins hq)
    · exact absurd ⟨hs, hs'⟩ (hqp.not_begins hp)
    · rfl
  calc replaceAll q.1.toList q.2.toList (replaceAll p.1.toList p.2.toList s)
      = replaceAny [q] (replaceAll p.1.toList p.2.toList s) := replaceAll_eq_replaceAny hq _
    _ = replaceAny [p, q] s := replaceAny_replaceAll hp (by simpa using hq) (by simpa using hpq) s
    _ = replaceAny [q, p] s := replaceAny_perm (.swap q p []) hone s
    _ = replaceAny [p] (replaceAll q.1.toList q.2.toList s) :=
        (replaceAny_replaceAll hq (by simpa using hp) (by simpa using hqp) s).symm
    _ = replaceAll p.1.toList p.2.toList (replaceAll q.1.toList q.2.toList s) :=
        (replaceAll_eq_replaceAny hp _).symm

end ShaderPack.Text
