import Mathlib.Data.List.TakeWhile
import ShaderPack.Proofs.Recovery.Coverage
import ShaderPack.Proofs.Recovery.Surroundings
import ShaderPack.Proofs.Text.Division

namespace ShaderPack.Recovery.StructFields

open StructAndEntry (HasStruct)
open Text

/-!
# The uniform struct — the text of each field

A `;` ends a field, whatever stands in front of it, so the body of a struct is the texts of its
fields and what stands behind the last `;`.  `Declares` says what binding a field declares, if
any: the first word is the type, and up to the bracket or the `;` the rest is the name.

* `nameAndSize_eq_ok` — a name and a size are read off the text behind the type;
* `field?_text` — one step reads the text of one field;
* `run?_covers`, `scan_covers` — a run finds one binding for each `;`, or fails at a field that
  declares none.
-/

/-! ### What a field declares -/

/-- The name in the text behind a type. -/
def nameIn (s : List Char) : List Char := trim (s.takeWhile (· != '['))

/-- The array size in the text behind a type: an accepted size behind the first bracket, or 1
    where there is no bracket. -/
def SizeIn (s : List Char) (size : UInt8) : Prop :=
  '[' ∉ s ∧ size = 1 ∨
    ∃ (front : List Char) (a : AcceptedSize) (behind : List Char), '[' ∉ front ∧
      s = front ++ '[' :: (a.text ++ ']' :: behind) ∧ a.size = size

/-- The field declares this binding. -/
structure Declares (text : List Char) (b : Binding) : Prop where
  typed : firstWord text ≠ []
  named : b.name.toList ≠ []
  name : b.name.toList = nameIn (behindWord text)
  kind : b.kind = .ofName (.ofList (firstWord text))
  size : SizeIn (behindWord text) b.size
  field : b = .field b.name b.kind b.size

/-- The texts of the fields in a body, each up to its `;`. -/
def fieldTexts (body : List Char) : List (List Char) := (pieces ';' body).dropLast

/-- The text behind the last `;` of a body. -/
def behindFields (body : List Char) : List Char :=
  (pieces ';' body).getLast (pieces_ne_nil ';' body)

/-- Nothing but blanks stands behind the last `;`. -/
def Ended (body : List Char) : Prop := (behindFields body).all isSpace = true

instance (body : List Char) : Decidable (Ended body) :=
  inferInstanceAs (Decidable ((behindFields body).all isSpace = true))

section

variable {before after : List Char}

theorem fieldTexts_append (h : ';' ∉ before) (after : List Char) :
    fieldTexts (before ++ ';' :: after) = before :: fieldTexts after := by
  rw [fieldTexts, pieces_append_cons h, List.dropLast_cons_of_ne_nil (pieces_ne_nil ';' after)]
  rfl

theorem behindFields_append (h : ';' ∉ before) (after : List Char) :
    behindFields (before ++ ';' :: after) = behindFields after := by
  simp only [behindFields, pieces_append_cons h]
  exact List.getLast_cons (pieces_ne_nil ';' after)

theorem fieldTexts_of_notMem {body : List Char} (h : ';' ∉ body) : fieldTexts body = [] := by
  rw [fieldTexts, pieces_of_notMem h]
  rfl

theorem behindFields_of_notMem {body : List Char} (h : ';' ∉ body) : behindFields body = body := by
  simp only [behindFields, pieces_of_notMem h, List.getLast_singleton]

/-- There is one field for each `;`. -/
theorem length_fieldTexts (body : List Char) : (fieldTexts body).length = body.count ';' := by
  induction hlen : body.length using Nat.strongRecOn generalizing body with
  | _ len ih =>
    by_cases hx : ';' ∈ body
    · obtain ⟨before, after, rfl, hbefore⟩ := List.eq_append_cons_of_mem hx
      have hless : after.length < len := by
        rw [← hlen, List.length_append, List.length_cons]
        omega
      rw [fieldTexts_append hbefore, List.length_cons, ih _ hless after rfl, List.count_append,
        List.count_eq_zero_of_not_mem hbefore, List.count_cons_self, Nat.zero_add]
    · rw [fieldTexts_of_notMem hx, List.count_eq_zero_of_not_mem hx]
      rfl

end

example : fieldTexts "float4 a;\nfloat4 b[2]; ".toList =
    ["float4 a".toList, "\nfloat4 b[2]".toList] := by
  decide

/-! ### Reading a name and a size -/

/-- White space behind an array size is not read. -/
theorem arraySize_trimEnd (s : List Char) (name : String) :
    arraySize (trimEnd s) name = arraySize s name := by
  rcases cutAt?_cases ']' s with ⟨hclosed, hcut⟩ | ⟨inside, behind, rfl, hinside, hcut⟩
  · have htrim : ']' ∉ trimEnd s := fun h => hclosed ((prefix_trimEnd s).subset h)
    simp only [arraySize, hcut, cutAt?_eq_none htrim]
  · rw [trimEnd_append_cons (by decide), arraySize, arraySize, hcut, cutAt?_append_cons hinside]

/-- A declarator without a bracket is a name. -/
theorem nameAndSize_of_notMem {s : List Char} (h : '[' ∉ s) :
    nameAndSize (trim s) = .ok (trim s, 1) := by
  have htrim : '[' ∉ trim s := fun hmem => h (trim_subset s hmem)
  rw [nameAndSize, cutAt?_eq_none htrim]

/-- The first bracket ends the name and opens the size. -/
theorem nameAndSize_append {front : List Char} (h : '[' ∉ front) (rest : List Char) :
    nameAndSize (trim (front ++ '[' :: rest)) =
      (arraySize rest (.ofList (trimStart front))).map (trim front, ·) := by
  have htrim : trim (front ++ '[' :: rest) = trimStart front ++ '[' :: trimEnd rest := by
    rw [trim, trimStart, Cursor.dropWhile_append_cons (by decide),
      trimEnd_append_cons (by decide), ← trimStart]
  have hfront : '[' ∉ trimStart front := fun hmem => h ((suffix_trimStart front).subset hmem)
  rw [htrim, nameAndSize, cutAt?_append_cons hfront, ← arraySize_trimEnd rest]
  rfl

/-- **A name and a size are read exactly where they stand** in the text behind a type. -/
theorem nameAndSize_eq_ok {s name : List Char} {size : UInt8} :
    nameAndSize (trim s) = .ok (name, size) ↔ name = nameIn s ∧ SizeIn s size := by
  by_cases h : '[' ∈ s
  · obtain ⟨front, rest, rfl, hfront⟩ := List.eq_append_cons_of_mem h
    have hname : nameIn (front ++ '[' :: rest) = trim front := by
      rw [nameIn, takeWhile_append_cons hfront]
    have hsize : SizeIn (front ++ '[' :: rest) size ↔
        arraySize rest (.ofList (trimStart front)) = .ok size := by
      rw [arraySize_eq_ok]
      constructor
      · rintro (⟨hnone, -⟩ | ⟨front', a, behind, hfront', hrest, ha⟩)
        · exact absurd h hnone
        · obtain ⟨-, hrest⟩ := append_cons_inj hfront hfront' hrest
          exact ⟨a, behind, hrest, ha⟩
      · rintro ⟨a, behind, rfl, ha⟩
        exact .inr ⟨front, a, behind, hfront, rfl, ha⟩
    rw [nameAndSize_append hfront, hname, hsize]
    cases arraySize rest (.ofList (trimStart front)) with
    | error cause => simp [Except.map]
    | ok found => simp [Except.map, eq_comm]
  · have hname : nameIn s = trim s := by
      rw [nameIn, takeWhile_of_notMem h]
    have hsize : SizeIn s size ↔ size = 1 := by
      constructor
      · rintro (⟨-, hone⟩ | ⟨front, a, behind, -, rfl, -⟩)
        · exact hone
        · exact absurd (by simp) h
      · exact fun hone => .inl ⟨h, hone⟩
    rw [nameAndSize_of_notMem h, hname, hsize]
    simp [eq_comm]

/-! ### One step -/

variable {c : Cursor} {text after : List Char}

/-- What the text of a field declares is read off it. -/
theorem Declares.nameAndSize_eq {b : Binding} (h : Declares text b) :
    nameAndSize (trim (behindWord text)) = .ok (b.name.toList, b.size) :=
  nameAndSize_eq_ok.mpr ⟨h.name, h.size⟩

/-- With a type and a name, the binding that is read off a field is declared by it. -/
theorem declares_field {name : List Char} {size : UInt8} (htype : firstWord text ≠ [])
    (hname : name ≠ []) (hread : nameAndSize (trim (behindWord text)) = .ok (name, size)) :
    Declares text (.field (.ofList name) (.ofName (.ofList (firstWord text))) size) := by
  obtain ⟨hnameIn, hsizeIn⟩ := nameAndSize_eq_ok.mp hread
  have htoList : (String.ofList name).toList = name := String.toList_ofList
  have hnamed : (String.ofList name).toList ≠ [] := by rwa [htoList]
  exact ⟨htype, hnamed, htoList.trans hnameIn, rfl, hsizeIn, rfl⟩

/-- A field declares one binding. -/
theorem declares_unique : Relator.RightUnique Declares := by
  intro text b b' h h'
  have hsame : (b.name.toList, b.size) = (b'.name.toList, b'.size) :=
    Except.ok.inj (h.nameAndSize_eq.symm.trans h'.nameAndSize_eq)
  have hname : b.name = b'.name := String.toList_inj.mp (Prod.mk.inj hsame).1
  have hsize : b.size = b'.size := (Prod.mk.inj hsame).2
  rw [h.field, h'.field, hname, hsize, h.kind, h'.kind]

/-- **One step reads the text of one field** and stands behind its `;`, or the field declares
    nothing and the search fails. -/
theorem field?_text (hc : c.OnBoundary) (hrest : c.rest = text ++ ';' :: after)
    (htext : ';' ∉ text) :
    (∃ b next, field? c = some (.move (some b) next) ∧ Declares text b ∧ next.OnBoundary ∧
        next.rest = after) ∨
      ∃ cause, field? c = some (.finish (.malformed cause)) ∧ ∀ b, ¬Declares text b := by
  have hopens : c.rest.dropWhile isSpace = text.dropWhile isSpace ++ ';' :: after := by
    rw [hrest, Cursor.dropWhile_append_cons (by decide)]
  have hsingle : ';' ∉ text.dropWhile isSpace := fun h =>
    htext ((List.dropWhile_suffix isSpace).subset h)
  obtain ⟨c₁, eol, hskip, hmore, hfind, hf₁⟩ :=
    Cursor.Faces.of_skipSpace hc hopens hsingle (show ";".toList = [';'] from rfl)
  obtain ⟨c₂, hword, hf₂⟩ := hf₁.nextWord? rfl rfl
  rw [firstWord_dropWhile] at hword
  rw [behindWord_dropWhile] at hf₂
  have hslice : c₂.sliceTo? eol = some (behindWord text) := hf₂.sliceTo?
  have hseek : c₂.seek (eol + 1) = ⟨eol + 1, 0, after⟩ := hf₂.ahead.seek_through
  simp only [field?, hskip, hmore, hfind, fieldBefore?, hword, hslice, hseek,
    Option.bind_eq_bind, Option.bind_some]
  cases hread : nameAndSize (trim (behindWord text)) with
  | error cause =>
    refine .inr ⟨cause, rfl, fun b hb => ?_⟩
    rw [hb.nameAndSize_eq] at hread
    cases hread
  | ok found =>
    obtain ⟨name, size⟩ := found
    by_cases hempty : (firstWord text).isEmpty || name.isEmpty
    · refine .inr ⟨_, if_pos hempty, fun b hb => ?_⟩
      rw [hb.nameAndSize_eq] at hread
      cases hread
      simp [hb.typed, hb.named] at hempty
    · have hparts : firstWord text ≠ [] ∧ name ≠ [] := by
        simpa only [Bool.or_eq_true, List.isEmpty_iff, not_or] using hempty
      exact .inl ⟨_, ⟨eol + 1, 0, after⟩, if_neg hempty, declares_field hparts.1 hparts.2 hread,
        rfl, rfl⟩

/-- Behind the last `;` the search ends, and it is complete if nothing but blanks is left. -/
theorem field?_behind (hc : c.OnBoundary) (hrest : ';' ∉ c.rest) :
    (c.rest.all isSpace = true ∧ field? c = some (.finish .complete)) ∨
      ¬c.rest.all isSpace = true ∧ ∃ cause, field? c = some (.finish (.malformed cause)) := by
  have hskip : c.skipSpace? = _ := Cursor.skipWhile?_eq isSpace hc
  cases hleft : c.rest.dropWhile isSpace with
  | nil =>
    rw [hleft] at hskip
    refine .inl ⟨?_, by simp [field?, hskip, Cursor.isEmpty]⟩
    exact List.all_eq_true.mpr (List.dropWhile_eq_nil_iff.mp hleft)
  | cons x left =>
    rw [hleft] at hskip
    have hsemicolon : ';' ∉ x :: left := fun h =>
      hrest ((List.dropWhile_suffix isSpace).subset (hleft ▸ h))
    have hfind (start : Nat) : (Cursor.mk start 0 (x :: left)).find? ";" = some none := by
      simp [Cursor.find?, Cursor.rest?_eq, offset?_eq_none hsemicolon]
    refine .inr ⟨fun hall => ?_, .openField (.ofList (trim (x :: left))), ?_⟩
    · rw [List.dropWhile_eq_nil_iff.mpr (List.all_eq_true.mp hall)] at hleft
      cases hleft
    · simp [field?, hskip, hfind, Cursor.isEmpty, Cursor.rest?_eq]

/-! ### A whole body -/

/-- **A run finds one binding in the text of each field**, in order, or it fails at a text that
    declares none or is not ended. -/
theorem run?_covers (hc : c.OnBoundary) :
    ∃ f, fields.run? c = some f ∧
      f.Covers Declares (fieldTexts c.rest) (Ended c.rest) := by
  -- a step that goes on leaves the text behind the next `;`
  induction hlen : c.rest.length using Nat.strongRecOn generalizing c with
  | _ len ih =>
    by_cases hsemicolon : ';' ∈ c.rest
    · obtain ⟨text, after, hrest, htext⟩ := List.eq_append_cons_of_mem hsemicolon
      rw [hrest, fieldTexts_append htext, Ended, behindFields_append htext]
      rcases field?_text hc hrest htext with
        ⟨b, next, hstep, hb, hnext, hafter⟩ | ⟨cause, hstep, hunread⟩
      · have hless : next.rest.length < len := by
          rw [← hlen, hrest, hafter, List.length_append, List.length_cons]
          omega
        obtain ⟨f, hrun, hcovers⟩ := ih _ hless hnext rfl
        rw [hafter] at hcovers
        exact ⟨f.offer b, by rw [fields.run?_move hstep, hrun]; rfl, hcovers.offer hb⟩
      · exact ⟨_, fields.run?_finish hstep,
          .malformed cause (.inr ⟨text, List.mem_cons_self, hunread⟩)⟩
    · rw [fieldTexts_of_notMem hsemicolon, Ended, behindFields_of_notMem hsemicolon]
      rcases field?_behind hc hsemicolon with ⟨hblank, hstep⟩ | ⟨hblank, cause, hstep⟩
      · exact ⟨_, fields.run?_finish hstep, .complete .nil hblank⟩
      · exact ⟨_, fields.run?_finish hstep, .malformed cause (.inl hblank)⟩

/-- In a source with a struct, the text of each field is searched. -/
theorem scan_covers {body source : String} (h : HasStruct body source) :
    (scan source).Covers Declares (fieldTexts body.toList) (Ended body.toList) := by
  obtain ⟨f, hrun, hcovers⟩ := run?_covers (Cursor.onBoundary_ofList body.toList)
  have hscan : scan source = f := Option.get_of_eq_some _ ((scan?_encloses h).trans hrun)
  rw [hscan]
  exact hcovers

/-- Where every field of an ended body declares a binding, these are found. -/
theorem scan_eq {body source : String} (h : HasStruct body source) {offered : List Binding}
    (hfields : List.Forall₂ Declares (fieldTexts body.toList) offered)
    (hended : Ended body.toList) : scan source = ⟨offered, .complete⟩ :=
  (scan_covers h).eq_of_reads declares_unique hfields hended

/-- A source has no struct, or one that does not end, or one with a body. -/
theorem scan_cases (source : String) :
    (¬opening.toList <:+: source.toList ∧ scan source = ⟨[], .complete⟩) ∨
      (opening.toList <:+: source.toList ∧ scan source = ⟨[], .malformed .openStruct⟩) ∨
      ∃ body, HasStruct body source := by
  have hbegin : (Cursor.ofList source.toList).OnBoundary := Cursor.onBoundary_ofList source.toList
  by_cases hopen : opening.toList <:+: source.toList
  · obtain ⟨before, rest, hsource, hfirst⟩ := exists_first (by decide) hopen
    by_cases hclose : closing.toList <:+: rest
    · obtain ⟨body, after, rfl, hbody⟩ := exists_first (by decide) hclose
      refine .inr (.inr ⟨.ofList body, ?_⟩)
      rw [HasStruct, String.toList_ofList]
      exact ⟨before, after, hsource, hfirst, hbody⟩
    · obtain ⟨next, hcut, hnext, hrest⟩ := Cursor.cut?_eq hbegin opening_closed hsource hfirst
      have hnone : next.cut? closing = some none := Cursor.cut?_eq_none hnext (hrest ▸ hclose)
      have hscan : scan? source = some ⟨[], .malformed .openStruct⟩ := by simp [scan?, hcut, hnone]
      exact .inr (.inl ⟨hopen, Option.get_of_eq_some _ hscan⟩)
  · have hnone : (Cursor.ofList source.toList).cut? opening = some none :=
      Cursor.cut?_eq_none hbegin hopen
    have hscan : scan? source = some ⟨[], .complete⟩ := by simp [scan?, hnone]
    exact .inl ⟨hopen, Option.get_of_eq_some _ hscan⟩

/-- The struct does not end, or one of its fields declares nothing or has no `;`. -/
def Unread (source : String) : Prop :=
  (opening.toList <:+: source.toList ∧ ∀ body, ¬HasStruct body source) ∨
    ∃ body, HasStruct body source ∧
      (¬Ended body.toList ∨ ∃ text ∈ fieldTexts body.toList, ∀ b, ¬Declares text b)

/-- With a table, every field of the struct was read, if there is a struct. -/
theorem offered_of_table {source : String} {t : BindingTable}
    (htable : (scan source).table = .ok t) :
    (¬opening.toList <:+: source.toList ∧ (scan source).offered = []) ∨
      ∃ body, HasStruct body source ∧
        List.Forall₂ Declares (fieldTexts body.toList) (scan source).offered := by
  rcases scan_cases source with ⟨hnone, hscan⟩ | ⟨-, hscan⟩ | ⟨body, hbody⟩
  · exact .inl ⟨hnone, by rw [hscan]⟩
  · rw [hscan] at htable
    cases htable
  · exact .inr ⟨body, hbody, ((scan_covers hbody).offered_of_table htable).1⟩

/-- Every binding of a table is declared by a field. -/
theorem declared_of_mem {source : String} {t : BindingTable} {b : Binding}
    (htable : (scan source).table = .ok t) (hb : b ∈ t.toList) :
    ∃ body, HasStruct body source ∧ ∃ text ∈ fieldTexts body.toList, Declares text b := by
  have hoffered : b ∈ (scan source).offered := by
    rw [Findings.eq_ofList_of_table htable] at hb
    exact (List.mem_filter.mp hb).1
  rcases offered_of_table htable with ⟨-, hnone⟩ | ⟨body, hbody, hread⟩
  · rw [hnone] at hoffered
    cases hoffered
  · exact ⟨body, hbody, Findings.exists_piece hread hoffered⟩

/-- There is no table exactly if the struct cannot be read. -/
theorem table_error_iff (source : String) :
    (∃ cause, (scan source).table = .error cause) ↔ Unread source := by
  constructor
  · rintro ⟨cause, herror⟩
    by_cases hclosed : ∃ body, HasStruct body source
    · obtain ⟨body, hbody⟩ := hclosed
      exact .inr ⟨body, hbody, (scan_covers hbody).table_error_iff.mp ⟨cause, herror⟩⟩
    · rcases scan_cases source with ⟨-, hscan⟩ | ⟨hopen, -⟩ | hbody
      · rw [hscan] at herror
        cases herror
      · exact .inl ⟨hopen, not_exists.mp hclosed⟩
      · exact absurd hbody hclosed
  · rintro (⟨hopen, hunclosed⟩ | ⟨body, hbody, hunread⟩)
    · rcases scan_cases source with ⟨hnone, -⟩ | ⟨-, hscan⟩ | ⟨body, hbody⟩
      · exact absurd hopen hnone
      · exact ⟨.openStruct, by rw [hscan]; rfl⟩
      · exact absurd hbody (hunclosed body)
    · exact (scan_covers hbody).table_error_iff.mpr hunread

end ShaderPack.Recovery.StructFields
