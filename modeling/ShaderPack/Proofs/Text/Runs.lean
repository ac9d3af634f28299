import ShaderPack.Proofs.Text.Moves

namespace ShaderPack.Text.Cursor

/-!
# Runs of a cursor

A cursor is created in front of a text and then asked for operations, in any order.  What a single
one of them does is said by `On.step?_cases`: it stays, it seeks an offset, or it moves over
characters.  An operation is `Refused` where it would read from or up to an offset inside a
character, and by `On.inside_step?` only two of them lead there: `seek`, and `bump` in front of a
character of several bytes.

* `On.run?` — through a whole run the cursor stays on its text and never moves back;
* `run_invariant` — so wherever a run comes to, exactly the refused operations are missing, and
  searches yield the least offset.
-/

variable {text : List Char} {c next : Cursor} {pos : Nat}

/-! ### Operations -/

/-- What can be asked of a cursor. -/
inductive Operation
  | pos
  | rest
  | sliceTo (stop : Nat)
  | isEmpty
  | peek
  | seek (target : Nat)
  | bump
  | find (pattern : String)
  | skipSpace
  | nextWord
  | skipLine
  deriving DecidableEq, Repr

/-- The cursor after an operation; `none` if the operation cannot read. -/
def step? (c : Cursor) : Operation → Option Cursor
  | .pos | .isEmpty | .peek => some c
  | .rest => c.rest?.map fun _ => c
  | .sliceTo stop => (c.sliceTo? stop).map fun _ => c
  | .seek target => some (c.seek target)
  | .bump => some c.bump
  | .find pattern => (c.find? pattern).map fun _ => c
  | .skipSpace => c.skipSpace?
  | .nextWord => c.nextWord?.map Prod.snd
  | .skipLine => c.skipLine?

/-- The cursor after operations one after another; a run ends at one that cannot read. -/
def run? (c : Cursor) : List Operation → Option Cursor
  | [] => some c
  | op :: ops => do
    let next ← c.step? op
    next.run? ops

namespace Operation

/-- The operation would cut a character of the text, or read behind its end. -/
def Refused (text : List Char) (pos : Nat) : Operation → Prop
  | .rest | .find _ | .skipSpace | .nextWord | .skipLine => Inside text pos
  | .sliceTo stop =>
    Inside text pos ∨ Inside text (max stop pos) ∨ width text < max stop pos
  | _ => False

/-- The operation goes from between two characters to inside one: a step over the first byte of a
    character that has more, or a seek of an offset ahead that lies inside a character. -/
def Enters (text : List Char) (pos : Nat) : Operation → Prop
  | .bump => ∃ x, OccursAt text [x] pos ∧ 1 < x.utf8Size
  | .seek target => pos < target ∧ Inside text target
  | _ => False

/-- Where an operation goes that counts bytes. -/
def target? (pos : Nat) : Operation → Option Nat
  | .seek target => some target
  | .bump => some (pos + 1)
  | _ => none

/-- Only what counts bytes can enter a character, and it does so at its target. -/
theorem enters_iff (h : Between text pos) (op : Operation) :
    op.Enters text pos ↔ ∃ target, op.target? pos = some target ∧ pos < target ∧
      Inside text target := by
  cases op with
  | bump => simp [Enters, target?, inside_succ_iff h]
  | seek target => simp [Enters, target?]
  | _ => simp [Enters, target?]

end Operation

/-! ### Refusals -/

section

variable {α : Type} {answer : Option α} {a : α}

/-- What answers between two characters and only there. -/
theorem eq_none_iff (hsome : c.OnBoundary → ∃ a, answer = some a)
    (hnone : ¬c.OnBoundary → answer = none) : answer = none ↔ ¬c.OnBoundary := by
  constructor
  · intro h hc
    obtain ⟨a, ha⟩ := hsome hc
    cases h.symm.trans ha
  · exact hnone

/-- An answer is given between two characters. -/
theorem onBoundary_of_eq_some (hnone : answer = none ↔ ¬c.OnBoundary) (ha : answer = some a) :
    c.OnBoundary := by
  refine Decidable.byContradiction fun hc => ?_
  cases (hnone.mpr hc).symm.trans ha

end

theorem rest?_eq_none_iff : c.rest? = none ↔ ¬c.OnBoundary :=
  eq_none_iff (fun hc => ⟨_, rest?_eq hc⟩) fun hc => if_neg hc

theorem find?_eq_none_iff (pattern : String) : c.find? pattern = none ↔ ¬c.OnBoundary :=
  eq_none_iff (fun hc => find?_isSome hc pattern) fun hc => by
    rw [find?, rest?_eq_none_iff.mpr hc]
    rfl

theorem skipSpace?_eq_none_iff : c.skipSpace? = none ↔ ¬c.OnBoundary :=
  eq_none_iff (fun hc => ⟨_, skipWhile?_eq isSpace hc⟩) fun hc => by
    rw [skipSpace?, skipWhile?, rest?_eq_none_iff.mpr hc]
    rfl

theorem nextWord?_eq_none_iff : c.nextWord? = none ↔ ¬c.OnBoundary := by
  refine eq_none_iff (fun hc => ?_) fun hc => ?_
  · obtain ⟨-, -, next, hword, -⟩ := nextWord?_movesOver hc
    exact ⟨_, hword⟩
  · rw [nextWord?, skipSpace?_eq_none_iff.mpr hc]
    rfl

theorem skipLine?_eq_none_iff : c.skipLine? = none ↔ ¬c.OnBoundary := by
  refine eq_none_iff (fun hc => ?_) fun hc => ?_
  · obtain ⟨next, hskip, -⟩ := skipLine?_eq hc
    exact ⟨next, hskip⟩
  · rw [skipLine?, (find?_eq_none_iff "\n").mpr hc]
    rfl

/-- A slice up to an offset that is passed is one up to the cursor. -/
theorem sliceTo?_max (c : Cursor) (stop : Nat) : c.sliceTo? (max stop c.pos) = c.sliceTo? stop := by
  have hbytes : max stop c.pos - c.pos = stop - c.pos := by omega
  rw [sliceTo?, sliceTo?, hbytes]

/-- A slice is missing exactly if one of its ends does not lie between characters of the text. -/
theorem On.sliceTo?_eq_none_iff (h : c.On text) (stop : Nat) :
    c.sliceTo? stop = none ↔ ¬(Between text c.pos ∧ Between text (max stop c.pos)) := by
  constructor
  · rintro hnone ⟨hpos, front, after, htext, hstop⟩
    have hc : c.OnBoundary := h.between_iff.mp hpos
    obtain ⟨before, htext', hbefore⟩ := h.exists_front hc
    obtain ⟨part, rfl, hrest⟩ := exists_between (htext'.symm.trans htext) (by omega)
    rw [width_append, ← hbefore] at hstop
    have hslice : c.sliceTo? (max stop c.pos) = some part :=
      sliceTo?_eq hc hrest (by rw [← hc.pos_eq, hstop])
    rw [sliceTo?_max, hnone] at hslice
    cases hslice
  · intro hends
    cases hslice : c.sliceTo? stop with
    | none => rfl
    | some part =>
      -- a slice that is answered holds a part of the text
      obtain ⟨hsound, -⟩ := h.stands.sliceTo hslice
      obtain ⟨part, before, after, htext, hstart, hstop⟩ := hsound _ List.mem_cons_self
      refine absurd ⟨⟨before, part ++ after, ?_, hstart⟩, before ++ part, after, htext, ?_⟩ hends
      · exact htext.trans (List.append_assoc ..)
      · show max stop c.pos = width (before ++ part)
        rw [width_append, ← hstart]
        exact hstop

/-- **Exactly the refused operations are missing.** -/
theorem On.step?_eq_none_iff (h : c.On text) (op : Operation) :
    c.step? op = none ↔ op.Refused text c.pos := by
  cases op with
  | rest => rw [step?, Option.map_eq_none_iff, rest?_eq_none_iff, Operation.Refused, h.inside_iff]
  | find pattern =>
    rw [step?, Option.map_eq_none_iff, find?_eq_none_iff, Operation.Refused, h.inside_iff]
  | skipSpace => rw [step?, skipSpace?_eq_none_iff, Operation.Refused, h.inside_iff]
  | nextWord =>
    rw [step?, Option.map_eq_none_iff, nextWord?_eq_none_iff, Operation.Refused, h.inside_iff]
  | skipLine => rw [step?, skipLine?_eq_none_iff, Operation.Refused, h.inside_iff]
  | sliceTo stop =>
    have hle : c.pos ≤ width text := h.pos_le
    rw [step?, Option.map_eq_none_iff, h.sliceTo?_eq_none_iff, Operation.Refused,
      Text.between_iff, Text.between_iff, ← Nat.not_le]
    grind
  | _ => simp [step?, Operation.Refused]

/-! ### One operation -/

/-- **An operation stays, moves over characters or seeks an offset.** -/
theorem On.step?_cases (h : c.On text) {op : Operation} (hstep : c.step? op = some next) :
    (op.target? c.pos = none ∧ (next = c ∨ ∃ passed, c.MovesOver passed next)) ∨
      ∃ target, op.target? c.pos = some target ∧ next = c.seek target := by
  cases op with
  | pos | isEmpty | peek => exact .inl ⟨rfl, .inl (Option.some.inj hstep).symm⟩
  | rest | sliceTo stop | find pattern =>
    obtain ⟨-, -, hstay⟩ := Option.map_eq_some_iff.mp hstep
    exact .inl ⟨rfl, .inl hstay.symm⟩
  | seek target => exact .inr ⟨target, rfl, (Option.some.inj hstep).symm⟩
  | bump => exact .inr ⟨c.pos + 1, rfl, (Option.some.inj hstep).symm⟩
  | skipSpace =>
    have hc : c.OnBoundary := onBoundary_of_eq_some skipSpace?_eq_none_iff hstep
    obtain ⟨c', hskip, hmove, -⟩ := skipWhile?_movesOver isSpace hc
    obtain rfl : c' = next := Option.some.inj (hskip.symm.trans hstep)
    exact .inl ⟨rfl, .inr ⟨_, hmove⟩⟩
  | nextWord =>
    obtain ⟨found, hfound, rfl⟩ := Option.map_eq_some_iff.mp hstep
    have hc : c.OnBoundary := onBoundary_of_eq_some nextWord?_eq_none_iff hfound
    obtain ⟨front, back, c', hword, hmove, -⟩ := nextWord?_movesOver hc
    obtain rfl := Option.some.inj (hword.symm.trans hfound)
    exact .inl ⟨rfl, .inr ⟨_, hmove⟩⟩
  | skipLine =>
    have hc : c.OnBoundary := onBoundary_of_eq_some skipLine?_eq_none_iff hstep
    obtain ⟨passed, c', hskip, hmove⟩ := h.skipLine?_movesOver hc
    obtain rfl : c' = next := Option.some.inj (hskip.symm.trans hstep)
    exact .inl ⟨rfl, .inr ⟨_, hmove⟩⟩

variable {op : Operation}

theorem On.step? (h : c.On text) (hstep : c.step? op = some next) : next.On text := by
  rcases h.step?_cases hstep with ⟨-, rfl | ⟨passed, hmove⟩⟩ | ⟨target, -, rfl⟩
  · exact h
  · exact h.movesOver hmove
  · exact h.seek target

/-- No operation moves back. -/
theorem On.le_step? (h : c.On text) (hstep : c.step? op = some next) : c.pos ≤ next.pos := by
  rcases h.step?_cases hstep with ⟨-, rfl | ⟨passed, hmove⟩⟩ | ⟨target, -, rfl⟩
  · exact Nat.le_refl _
  · rw [hmove.pos_eq]
    exact Nat.le_add_right _ _
  · rw [h.pos_seek]
    exact Nat.le_max_left _ _

/-- **From between two characters only two operations come to be inside one.** -/
theorem On.inside_step? (h : c.On text) (hinside : ¬Inside text c.pos)
    (hstep : c.step? op = some next) : Inside text next.pos ↔ op.Enters text c.pos := by
  have hbetween : Between text c.pos := Text.between_iff.mpr ⟨h.pos_le, hinside⟩
  rw [op.enters_iff hbetween]
  rcases h.step?_cases hstep with ⟨htarget, hmove⟩ | ⟨target, htarget, rfl⟩
  · -- what does not count bytes stays between characters
    have hback : ¬Inside text next.pos := by
      rcases hmove with rfl | ⟨passed, hmove⟩
      · exact hinside
      · rw [(h.movesOver hmove).inside_iff]
        exact not_not_intro hmove.back
    simp [htarget, hback]
  · -- a seek goes to its target, if that lies ahead and in the text
    have hle : c.pos ≤ width text := h.pos_le
    simp only [htarget, Option.some.injEq, exists_eq_left', h.pos_seek]
    constructor
    · intro hnext
      have hlt := hnext.lt
      have hahead : c.pos < target := by
        refine Nat.lt_of_not_le fun hpassed => hinside ?_
        rwa [Nat.max_eq_left (by omega)] at hnext
      rw [Nat.max_eq_right (by omega), Nat.min_eq_left (by omega)] at hnext
      exact ⟨hahead, hnext⟩
    · rintro ⟨hahead, htarget⟩
      have hlt := htarget.lt
      rwa [Nat.max_eq_right (by omega), Nat.min_eq_left (by omega)]

/-! ### Whole runs -/

/-- **Through a whole run** the cursor stays on its text and never moves back. -/
theorem On.run? (h : c.On text) {ops : List Operation} (hrun : c.run? ops = some next) :
    next.On text ∧ c.pos ≤ next.pos := by
  induction ops generalizing c with
  | nil =>
    obtain rfl := Option.some.inj hrun
    exact ⟨h, Nat.le_refl _⟩
  | cons op ops ih =>
    obtain ⟨c', hstep, hrest⟩ := Option.bind_eq_some_iff.mp hrun
    obtain ⟨hnext, hle⟩ := ih (h.step? hstep) hrest
    exact ⟨hnext, Nat.le_trans (h.le_step? hstep) hle⟩

/-- A search that answers yields the least offset at which the pattern occurs. -/
theorem On.find?_firstFrom (h : c.On text) {pattern : String} {found : Option Nat}
    (hfind : c.find? pattern = some found) :
    FirstFrom text pattern.toList c.pos found := by
  have hc : c.OnBoundary := onBoundary_of_eq_some (find?_eq_none_iff pattern) hfind
  obtain ⟨before, htext, hpos⟩ := h.exists_front hc
  rw [find?_eq hc, ← hc.pos_eq, hpos] at hfind
  obtain rfl := Option.some.inj hfind
  rw [htext, hpos]
  exact offset?_firstFrom before c.rest pattern.toList

/-- **What every run keeps to.**  Wherever operations on a new cursor come to, be it inside a
    character,

    * operations that follow never move back, nor behind the end of the text;
    * exactly the refused operations are missing;
    * from between two characters an operation comes to be inside one exactly if it enters it;
    * a search yields the least offset from there on at which the pattern occurs, or nothing if
      there is none. -/
theorem run_invariant {text : List Char} {ops : List Operation} {c : Cursor}
    (h : (ofList text).run? ops = some c) :
    (∀ more next, c.run? more = some next → c.pos ≤ next.pos ∧ next.pos ≤ width text) ∧
    (∀ op, c.step? op = none ↔ op.Refused text c.pos) ∧
    (¬Inside text c.pos → ∀ op next, c.step? op = some next →
      (Inside text next.pos ↔ op.Enters text c.pos)) ∧
    ∀ pattern found, c.find? pattern = some found →
      FirstFrom text pattern.toList c.pos found := by
  obtain ⟨hon, -⟩ := (on_ofList text).run? h
  refine ⟨?_, hon.step?_eq_none_iff, ?_, ?_⟩
  · intro more next hmore
    obtain ⟨hnext, hle⟩ := hon.run? hmore
    exact ⟨hle, hnext.pos_le⟩
  · intro hinside op next hstep
    exact hon.inside_step? hinside hstep
  · intro pattern found hfind
    exact hon.find?_firstFrom hfind

/-- A word is read, and then the first byte of a letter that has two. -/
theorem run_into_letter :
    (ofList "aé;".toList).run? [.nextWord] = some ⟨1, 0, "é;".toList⟩ ∧
      ¬Inside "aé;".toList 1 ∧ Inside "aé;".toList 2 ∧
      FirstFrom "aé;".toList ";".toList 1 (some 3) ∧
    (ofList "aé;".toList).run? [.nextWord, .bump] = some ⟨1, 1, "é;".toList⟩ ∧
      Operation.Refused "aé;".toList 2 .nextWord ∧ 2 ≤ 4 ∧ 4 ≤ width "aé;".toList := by
  have hword : (ofList "aé;".toList).run? [.nextWord] = some ⟨1, 0, "é;".toList⟩ := by decide
  have hbump : (ofList "aé;".toList).run? [.nextWord, .bump] = some ⟨1, 1, "é;".toList⟩ := by
    decide
  have hfront : ¬Inside "aé;".toList 1 := not_inside_width ['a'] ['é', ';']
  obtain ⟨-, -, henters, hfind⟩ := run_invariant hword
  obtain ⟨hforward, hrefused, -, -⟩ := run_invariant hbump
  refine ⟨hword, hfront, ?_, hfind ";" (some 3) (by decide), hbump, ?_, ?_⟩
  · exact (henters hfront .bump ⟨1, 1, "é;".toList⟩ (by decide)).mpr
      ⟨'é', ⟨['a'], [';'], rfl, rfl⟩, by decide⟩
  · exact (hrefused .nextWord).mp (by decide)
  · exact hforward [.seek 9] ⟨4, 0, []⟩ (by decide)

end ShaderPack.Text.Cursor
