import ShaderPack.Proofs.Text.Occurrences
import ShaderPack.Proofs.Text.Words
import ShaderPack.Text.Replace

namespace ShaderPack.Text

/-!
# Replacing a pattern — what is found in the result

`Replaced` is `replaceAll` as a relation, one case for each thing that may stand at the
beginning of a text, and what is said here is proved by induction on it:

* `replaceAll_eq_self`, `Replaced.infix_new` — a text is changed only where the pattern occurs,
  and then the result holds what replaces it;
* `Replaced.append_cons` — a character that is no part of the pattern keeps the two sides of a
  text apart;
* `Replaced.traced` — an occurrence in the result comes from one in the text, and from none of
  the pattern itself, unless it begins in or runs into what was put.

A replacement may make an occurrence at its seams, as from `abXX`, where `ab` replaces `abX`.
`Apart` rules this out by the patterns alone, `EndsWord` by where a pattern stands.
-/

variable {old new pattern other s t out : List Char} {x : Char}

/-! ### Replacing, case by case -/

/-- A text and the text with all occurrences replaced. -/
inductive Replaced (old new : List Char) : List Char → List Char → Prop
  | nil : Replaced old new [] []
  | found {s out : List Char} (rest : Replaced old new s out) :
    Replaced old new (old ++ s) (new ++ out)
  | kept {c : Char} {s out : List Char} (other : ¬old <+: c :: s) (rest : Replaced old new s out) :
    Replaced old new (c :: s) (c :: out)

/-- A pattern at the beginning is replaced as a whole. -/
theorem replaceAll_append (hold : old ≠ []) (new s : List Char) :
    replaceAll old new (old ++ s) = new ++ replaceAll old new s := by
  obtain ⟨c, rest, rfl⟩ := List.exists_cons_of_ne_nil hold
  have hprefix : (c :: rest).isPrefixOf (c :: (rest ++ s)) = true := by
    rw [List.isPrefixOf_iff_prefix]
    exact List.prefix_append (c :: rest) s
  rw [List.cons_append, replaceAll_cons, if_pos hprefix]
  simp

/-- Any other character is kept. -/
theorem replaceAll_cons_kept {c : Char} (h : ¬old <+: c :: s) (new : List Char) :
    replaceAll old new (c :: s) = c :: replaceAll old new s := by
  rw [replaceAll_cons, if_neg (mt List.isPrefixOf_iff_prefix.mp h)]

/-- What `replaceAll` makes of a text is what `Replaced` says. -/
theorem replaced_replaceAll (hold : old ≠ []) (new s : List Char) :
    Replaced old new s (replaceAll old new s) := by
  induction hlen : s.length using Nat.strongRecOn generalizing s with
  | _ len ih =>
    cases s with
    | nil => exact .nil
    | cons c s =>
      by_cases hprefix : old <+: c :: s
      · obtain ⟨rest, hrest⟩ := hprefix
        have hless : rest.length < len := by
          have hpos : 0 < old.length := List.length_pos_iff.mpr hold
          have hsum : old.length + rest.length = len := by rw [← List.length_append, hrest, hlen]
          omega
        rw [← hrest, replaceAll_append hold]
        exact .found (ih rest.length hless rest rfl)
      · rw [replaceAll_cons_kept hprefix]
        exact .kept hprefix (ih s.length (by simp [← hlen]) s rfl)

/-- The relation leaves no choice. -/
theorem Replaced.eq (hold : old ≠ []) (h : Replaced old new s out) :
    replaceAll old new s = out := by
  induction h with
  | nil => rfl
  | found rest ih => rw [replaceAll_append hold, ih]
  | kept other rest ih => rw [replaceAll_cons_kept other, ih]

/-! ### Changed and unchanged texts -/

/-- Without an occurrence nothing is changed. -/
theorem replaceAll_eq_self (h : ¬old <:+: s) (new : List Char) : replaceAll old new s = s := by
  induction s with
  | nil => rfl
  | cons c s ih =>
    rw [List.infix_cons_iff, not_or] at h
    rw [replaceAll_cons_kept h.1, ih h.2]

namespace Replaced

/-- With an occurrence the result holds what replaces it. -/
theorem infix_new (hold : old ≠ []) (h : Replaced old new s out) (hfound : old <:+: s) :
    new <:+: out := by
  induction h with
  | nil => exact absurd (List.infix_nil.mp hfound) hold
  | found => exact List.infix_append [] new _
  | kept other rest ih =>
    exact List.infix_cons (ih ((List.infix_cons_iff.mp hfound).resolve_left other))

theorem eq_nil_iff (hold : old ≠ []) (hnew : new ≠ []) (h : Replaced old new s out) :
    out = [] ↔ s = [] := by
  cases h <;> simp [hold, hnew]

theorem mem (h : Replaced old new s out) (hx : x ∈ out) : x ∈ s ∨ x ∈ new := by
  induction h with
  | nil => exact .inl hx
  | found rest ih =>
    rcases List.mem_append.mp hx with hx | hx
    · exact .inr hx
    · exact (ih hx).imp_left (List.mem_append_right old)
  | kept other rest ih =>
    rcases List.mem_cons.mp hx with rfl | hx
    · exact .inl List.mem_cons_self
    · exact (ih hx).imp_left (List.mem_cons_of_mem _)

/-- A shorter text makes the whole shorter. -/
theorem length_le (hlen : new.length ≤ old.length) (h : Replaced old new s out) :
    out.length ≤ s.length := by
  induction h with
  | nil => exact Nat.le_refl _
  | found rest ih =>
    simp only [List.length_append]
    omega
  | kept other rest ih => simpa using ih

theorem length_lt (hlen : new.length < old.length) (h : Replaced old new s out)
    (hfound : old <:+: s) : out.length < s.length := by
  induction h with
  | nil =>
    rw [List.infix_nil.mp hfound] at hlen
    exact absurd hlen (Nat.not_lt_zero _)
  | found rest ih =>
    have hrest := rest.length_le (Nat.le_of_lt hlen)
    simp only [List.length_append]
    omega
  | kept other rest ih =>
    simpa using ih ((List.infix_cons_iff.mp hfound).resolve_left other)

/-- A character that is no part of the pattern keeps the two sides of a text apart. -/
theorem append_cons (hold : old ≠ []) (hx : x ∉ old) (h : Replaced old new s out) (t : List Char) :
    replaceAll old new (s ++ x :: t) = out ++ x :: replaceAll old new t := by
  induction h with
  | nil =>
    have hprefix : ¬old <+: x :: t := by
      rw [show x :: t = [] ++ x :: t from rfl, prefix_append_cons_iff hx, List.prefix_nil]
      exact hold
    exact replaceAll_cons_kept hprefix new
  | found rest ih => rw [List.append_assoc, replaceAll_append hold, ih, List.append_assoc]
  | @kept c s out other rest ih =>
    have hprefix : ¬old <+: c :: (s ++ x :: t) := by
      rw [← List.cons_append, prefix_append_cons_iff hx]
      exact other
    rw [List.cons_append, replaceAll_cons_kept hprefix, ih, List.cons_append]

end Replaced

/-- A text that holds neither of the two is made of itself only. -/
theorem replaceAll_eq_iff (hne : old ≠ []) (hold : ¬old <:+: out) (hnew : ¬new <:+: out) :
    replaceAll old new s = out ↔ s = out := by
  constructor
  · rintro rfl
    have hfree : ¬old <:+: s := fun hfound => hnew ((replaced_replaceAll hne new s).infix_new hne hfound)
    exact (replaceAll_eq_self hfree new).symm
  · rintro rfl
    exact replaceAll_eq_self hold new

/-- What replaces a pattern is made of the pattern and of itself. -/
theorem replaceAll_eq_new_iff (hne : old ≠ []) (hnew : new ≠ []) (hold : ¬old <:+: new) :
    replaceAll old new s = new ↔ s = old ∨ s = new := by
  constructor
  · intro h
    by_cases hfound : old <:+: s
    · have hreplaced := replaced_replaceAll hne new s
      generalize replaceAll old new s = out at h hreplaced
      cases hreplaced with
      | nil => exact absurd h.symm hnew
      | found rest =>
        have hnil := (rest.eq_nil_iff hne hnew).mp (by simpa using h)
        exact .inl (by simp [hnil])
      | kept other rest =>
        -- the result behind the kept character would be as long as all of it
        have hrest := rest.infix_new hne ((List.infix_cons_iff.mp hfound).resolve_left other)
        have hlen := hrest.length_le
        rw [← h, List.length_cons] at hlen
        omega
    · exact .inr (by rw [← h, replaceAll_eq_self hfound])
  · rintro (rfl | rfl)
    · simpa using replaceAll_append hne new []
    · exact replaceAll_eq_self hold _

/-! ### Occurrences in the result -/

/-- No occurrence of `other` begins in `pattern`, whatever comes behind it. -/
def Apart : List Char → List Char → Prop
  | [], _ => True
  | c :: pattern, other => ¬c :: pattern <+: other ∧ ¬other <+: c :: pattern ∧ Apart pattern other

instance Apart.decidable : (pattern other : List Char) → Decidable (Apart pattern other)
  | [], _ => inferInstanceAs (Decidable True)
  | _ :: pattern, other =>
    have := Apart.decidable pattern other
    inferInstanceAs (Decidable (_ ∧ _ ∧ _))

theorem Apart.not_begins {c : Char} (h : Apart (c :: pattern) other) (t : List Char) :
    ¬other <+: c :: (pattern ++ t) := by
  intro hprefix
  rcases List.prefix_or_prefix_of_prefix hprefix (List.prefix_append (c :: pattern) t) with h' | h'
  · exact h.2.1 h'
  · exact h.1 h'

/-- What is apart from the beginning of a pattern is apart from all of it. -/
theorem Apart.of_lead {lead : List Char} (h : Apart pattern lead) (hlead : lead <+: other) :
    Apart pattern other := by
  induction pattern with
  | nil => trivial
  | cons c pattern ih =>
    obtain ⟨hshort, hlong, hrest⟩ := h
    refine ⟨fun hprefix => ?_, fun hprefix => hlong (hlead.trans hprefix), ih hrest⟩
    rcases List.prefix_or_prefix_of_prefix hlead hprefix with h' | h'
    · exact hlong h'
    · exact hshort h'

/-- An occurrence behind a pattern apart from it lies behind the whole pattern. -/
theorem Apart.suffix (h : Apart pattern other) (hsuffix : other ++ t <:+ pattern ++ s) :
    other ++ t <:+ s := by
  induction pattern with
  | nil => exact hsuffix
  | cons c pattern ih =>
    rcases List.suffix_cons_iff.mp hsuffix with hwhole | hrest
    · exact absurd ⟨t, hwhole⟩ (h.not_begins s)
    · exact ih h.2.2 hrest

/-- What is apart from a pattern does not occur in it. -/
theorem Apart.free (h : Apart pattern other) (hne : other ≠ []) : ¬other <:+: pattern := by
  rintro ⟨before, after, hfound⟩
  have hsuffix : other ++ after <:+ pattern ++ [] := ⟨before, by simp [← hfound]⟩
  have hnil := List.suffix_nil.mp (h.suffix hsuffix)
  exact hne (List.append_eq_nil_iff.mp hnil).1

namespace Replaced

/-- A beginning of the result that stands apart from what was put begins the text too. -/
theorem of_append (hapart : Apart pattern new) (h : Replaced old new s (pattern ++ out)) :
    ∃ t, s = pattern ++ t ∧ Replaced old new t out := by
  induction pattern generalizing s with
  | nil => exact ⟨s, rfl, h⟩
  | cons c pattern ih =>
    generalize hwhole : c :: pattern ++ out = whole at h
    cases h with
    | nil => simp at hwhole
    | found rest => exact absurd ⟨_, hwhole.symm⟩ (hapart.not_begins out)
    | kept other rest =>
      obtain ⟨rfl, rfl⟩ := List.cons.inj hwhole
      obtain ⟨t, rfl, ht⟩ := ih hapart.2.2 rest
      exact ⟨t, rfl, ht⟩

/-- A beginning of the text that stands apart from the pattern begins the result too. -/
theorem append (hapart : Apart pattern old) (h : Replaced old new (pattern ++ t) out) :
    ∃ rest, out = pattern ++ rest ∧ Replaced old new t rest := by
  induction pattern generalizing out with
  | nil => exact ⟨out, rfl, h⟩
  | cons c pattern ih =>
    generalize hwhole : c :: pattern ++ t = whole at h
    cases h with
    | nil => simp at hwhole
    | found rest => exact absurd ⟨_, hwhole.symm⟩ (hapart.not_begins t)
    | kept other rest =>
      obtain ⟨rfl, rfl⟩ := List.cons.inj hwhole
      obtain ⟨behind, rfl, hbehind⟩ := ih hapart.2.2 rest
      exact ⟨behind, rfl, hbehind⟩

end Replaced

/-- Each occurrence of `pattern` in the result comes from one in the text, where `old` does not
    begin, and the text behind the one is what is made of the text behind the other. -/
def Traced (old new pattern s out : List Char) : Prop :=
  ∀ u, pattern ++ u <:+ out →
    ∃ t, pattern ++ t <:+ s ∧ Replaced old new t u ∧ ¬old <+: pattern ++ t

/-- **Occurrences are traced** if none of them begins in what is put. -/
theorem Replaced.traced (hne : pattern ≠ []) (hapart : Apart pattern.tail new)
    (h : Replaced old new s out)
    (hseam : ∀ t rest u, old ++ t <:+ s → Replaced old new t rest →
      pattern ++ u <:+ new ++ rest → pattern ++ u <:+ rest) :
    Traced old new pattern s out := by
  obtain ⟨x, behind, rfl⟩ := List.exists_cons_of_ne_nil hne
  intro u hu
  induction h with
  | nil => simp at hu
  | @found s rest hrest ih =>
    have hbehind := hseam s rest u List.suffix_rfl hrest hu
    obtain ⟨t, hsuffix, ht, hother⟩ := ih
      (fun t rest u ht => hseam t rest u (ht.trans (List.suffix_append old s))) hbehind
    exact ⟨t, hsuffix.trans (List.suffix_append old s), ht, hother⟩
  | @kept c s rest hother hrest ih =>
    rcases List.suffix_cons_iff.mp hu with hwhole | hbehind
    · obtain ⟨rfl, rfl⟩ := List.cons.inj hwhole
      obtain ⟨t, rfl, ht⟩ := hrest.of_append hapart
      exact ⟨t, List.suffix_rfl, ht, hother⟩
    · obtain ⟨t, hsuffix, ht, hfree⟩ := ih
        (fun t rest u ht => hseam t rest u (ht.trans (List.suffix_cons c s))) hbehind
      exact ⟨t, hsuffix.trans (List.suffix_cons c s), ht, hfree⟩

/-- Patterns apart make no occurrence. -/
theorem Replaced.traced_of_apart (hne : pattern ≠ []) (hbefore : Apart pattern.tail new)
    (hbehind : Apart new pattern) (h : Replaced old new s out) :
    Traced old new pattern s out :=
  h.traced hne hbefore fun _ _ _ _ _ hu => hbehind.suffix hu

/-- The result is free of the replaced pattern, and of one of which the text is free. -/
theorem Traced.free (h : Traced old new pattern s out) (hfree : pattern = old ∨ ¬pattern <:+: s) :
    ¬pattern <:+: out := by
  intro hfound
  obtain ⟨whole, ⟨u, rfl⟩, hu⟩ := List.infix_iff_prefix_suffix.mp hfound
  obtain ⟨t, ht, -, hother⟩ := h u hu
  rcases hfree with rfl | hfree
  · exact hother (List.prefix_append _ t)
  · exact hfree (List.infix_iff_prefix_suffix.mpr ⟨_, List.prefix_append _ t, ht⟩)

/-! ### Patterns at the end of words -/

/-- Every occurrence of the pattern in the text ends a word. -/
def EndsWord (pattern s : List Char) : Prop := ∀ t, pattern ++ t <:+ s → Stops t

theorem endsWord_cons {c : Char} :
    EndsWord pattern (c :: s) ↔
      (pattern <+: c :: s → Stops ((c :: s).drop pattern.length)) ∧ EndsWord pattern s := by
  constructor
  · intro h
    refine ⟨fun ⟨t, ht⟩ => ?_, fun t ht => h t (ht.trans (List.suffix_cons c s))⟩
    rw [← ht, List.drop_left]
    exact h t (ht ▸ List.suffix_rfl)
  · rintro ⟨hfront, hbehind⟩ t ht
    rcases List.suffix_cons_iff.mp ht with hwhole | hrest
    · simpa [← hwhole] using hfront ⟨t, hwhole⟩
    · exact hbehind t hrest

instance (s : List Char) : Decidable (Stops s) :=
  decidable_of_iff (s.head?.all fun c => !isWord c) (by simp [Stops, Option.all_eq_true])

instance EndsWord.decidable (pattern : List Char) : (s : List Char) → Decidable (EndsWord pattern s)
  | [] => .isTrue fun t ht => by
    obtain ⟨-, rfl⟩ := List.append_eq_nil_iff.mp (List.suffix_nil.mp ht)
    exact Stops.nil
  | _ :: s =>
    have := EndsWord.decidable pattern s
    decidable_of_iff _ endsWord_cons.symm

namespace Replaced

/-- No word goes on in the result where none goes on in the text. -/
theorem stops (hne : old ≠ []) (hold : ∀ c ∈ old, isWord c = true) (h : Replaced old new s out)
    (hs : Stops s) : Stops out := by
  cases h with
  | nil => exact hs
  | found rest =>
    obtain ⟨c, behind, rfl⟩ := List.exists_cons_of_ne_nil hne
    have hword : isWord c = true := hold c List.mem_cons_self
    have hstop : isWord c = false := hs c rfl
    simp [hword] at hstop
  | kept other rest => exact Stops.cons (hs _ rfl) _

/-- Words make no occurrence where the replaced pattern ends a word. -/
theorem traced_of_endsWord (hne : pattern ≠ []) (hpattern : ∀ c ∈ pattern, isWord c = true)
    (hbefore : Apart pattern.tail new) (hfree : ¬pattern <:+: new) (hold : old ≠ [])
    (hword : ∀ c ∈ old, isWord c = true) (hends : EndsWord old s) (h : Replaced old new s out) :
    Traced old new pattern s out := by
  refine h.traced hne hbefore fun t rest u ht hrest hu => ?_
  have hstops : Stops rest := hrest.stops hold hword (hends t ht)
  clear ht hrest h hends hbefore
  -- an occurrence that begins in `new` would have to run into the text behind it
  induction new with
  | nil => exact hu
  | cons c new ih =>
    rcases List.suffix_cons_iff.mp hu with hwhole | hbehind
    · exfalso
      have hsplit : pattern ++ u = (c :: new) ++ rest := hwhole
      rcases List.append_eq_append_iff.mp hsplit with ⟨a, hnew, -⟩ | ⟨a, hlong, hrest⟩
      · exact hfree ⟨[], a, by simp [hnew]⟩
      · cases a with
        | nil => exact hfree ⟨[], [], by simp [hlong]⟩
        | cons d a =>
          have hd : isWord d = true := hpattern d (by simp [hlong])
          have hstop : isWord d = false := hstops d (by simp [hrest])
          simp [hd] at hstop
    · exact ih (fun hinner => hfree (List.infix_cons hinner)) hbehind

end Replaced

/-- A pattern whose occurrences are traced still ends words. -/
theorem Traced.endsWord (hne : old ≠ []) (hold : ∀ c ∈ old, isWord c = true)
    (h : Traced old new pattern s out) (hends : EndsWord pattern s) : EndsWord pattern out := by
  intro u hu
  obtain ⟨t, ht, hreplaced, -⟩ := h u hu
  exact hreplaced.stops hne hold (hends t ht)

end ShaderPack.Text
