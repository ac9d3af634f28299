import ShaderPack.Proofs.Recovery.Coverage
import ShaderPack.Proofs.Recovery.Surroundings
import ShaderPack.Proofs.Text.Division

namespace ShaderPack.Recovery.EntryTextures

open StructAndEntry (HasEntry)
open Text

/-!
# Textures of the entry point — the text of each annotation

`slotMark` opens an annotation wherever it stands, so a parameter list is a text for each of its
occurrences: what stands in front of it, from the end of the annotation before, and what stands
behind it, up to the next one.  `Annotates` says what binding an annotation declares, if any:
its slot is the number in front of the first parenthesis, and its name the last token of the
text in front.

* `parameterName_eq` — a name is read where it stands;
* `parameter?_text` — one step reads the text of one annotation;
* `run?_covers`, `scan_covers` — a run finds one binding for each `slotMark`, or fails at an
  annotation that declares none.
-/

/-! ### What an annotation declares -/

/-- Whether a character can stand in the name of a parameter. -/
def isNameChar (c : Char) : Bool := !isBlank c && c != ','

/-- The text ends with this name, behind a blank, a comma or nothing, and with white space. -/
def LastToken (text name : List Char) : Prop :=
  ∃ lead white, text = lead ++ name ++ white ∧ name ≠ [] ∧ (∀ c ∈ name, isNameChar c = true) ∧
    (∀ c ∈ white, isBlank c = true) ∧ ∀ c ∈ lead.getLast?, isNameChar c = false

/-- The texts in front of an annotation and behind its mark declare this binding. -/
structure Annotates (texts : List Char × List Char) (b : Binding) : Prop where
  named : LastToken texts.1 b.name.toList
  slotted : ∃ (s : AcceptedSlot) (more : List Char), texts.2 = s.text ++ ')' :: more ∧
    b.register.toNat = s.number.value
  texture : b = .inSlot b.name b.register

/-- The text behind the parentheses of an annotation. -/
def afterSlot (piece : List Char) : List Char := (cutAt? ')' piece).elim [] Prod.snd

/-- The texts of the annotations whose marks stand in front of these pieces. -/
def annotations (front : List Char) : List (List Char) → List (List Char × List Char)
  | [] => []
  | piece :: behind => (front, piece) :: annotations (afterSlot piece) behind

/-- The texts of the annotations in a parameter list. -/
def annotationsIn (list : List Char) : List (List Char × List Char) :=
  annotations (divide slotMark.toList list).1 (divide slotMark.toList list).2

theorem afterSlot_append {inside : List Char} (h : ')' ∉ inside) (more : List Char) :
    afterSlot (inside ++ ')' :: more) = more := by
  rw [afterSlot, cutAt?_append_cons h]
  rfl

theorem length_annotations (front : List Char) (behind : List (List Char)) :
    (annotations front behind).length = behind.length := by
  induction behind generalizing front with
  | nil => rfl
  | cons piece behind ih => exact congrArg Nat.succ (ih (afterSlot piece))

/-- There is one annotation for each mark. -/
theorem length_annotationsIn (list : List Char) :
    (annotationsIn list).length = occurrences slotMark.toList list :=
  length_annotations _ _

example : annotationsIn "a t [[texture(0)]], u [[texture(1)]])".toList =
    [("a t ".toList, "0)]], u ".toList), ("]], u ".toList, "1)]])".toList)] := by
  decide +kernel

/-! ### Reading a name -/

/-- The name of a parameter is read backwards from the end of its text. -/
theorem parameterName_reverse (text : List Char) :
    (parameterName text).reverse = (trimEnd text).reverse.takeWhile isNameChar :=
  List.reverse_reverse _

/-- **A name is read exactly where it is the last token** of a text. -/
theorem parameterName_eq {text name : List Char} :
    parameterName text = name ∧ name ≠ [] ↔ LastToken text name := by
  constructor
  · rintro ⟨rfl, hne⟩
    obtain ⟨white, hwhite, htext⟩ := exists_trimEnd text
    have hsplit : trimEnd text =
        ((trimEnd text).reverse.dropWhile isNameChar).reverse ++ parameterName text := by
      rw [← List.reverse_inj, List.reverse_append, List.reverse_reverse, parameterName_reverse,
        List.takeWhile_append_dropWhile]
    refine ⟨_, white, hsplit ▸ htext, hne, fun c hc => ?_, hwhite, fun c hc => ?_⟩
    · exact List.all_eq_true.mp List.all_takeWhile c (List.mem_reverse.mp hc)
    · rw [List.getLast?_reverse] at hc
      have hhead := List.head?_dropWhile_not isNameChar (trimEnd text).reverse
      rw [Option.mem_def.mp hc] at hhead
      simpa using hhead
  · rintro ⟨lead, white, rfl, hne, hname, hwhite, hlead⟩
    have hblank : ∀ c ∈ name, isBlank c = false := fun c hc => by
      have h : (!isBlank c) = true := ((Bool.and_eq_true _ _).mp (hname c hc)).1
      simpa using h
    have htrim : trimEnd (lead ++ name ++ white) = lead ++ name := by
      rw [trimEnd_append _ hwhite, trimEnd_of_ne_nil lead hblank hne]
    -- in front of the name stands nothing, a blank or a comma, which ends it
    have hstop : lead.reverse.takeWhile isNameChar = [] := by
      cases hfront : lead.reverse with
      | nil => rfl
      | cons c rest =>
        have hlast : lead.getLast? = some c := by rw [List.getLast?_eq_head?_reverse, hfront]; rfl
        rw [List.takeWhile_cons, hlead c hlast]
        rfl
    refine ⟨?_, hne⟩
    rw [← List.reverse_inj, parameterName_reverse, htrim, List.reverse_append,
      List.takeWhile_append_of_pos (fun c hc => hname c (List.mem_reverse.mp hc)), hstop,
      List.append_nil]

/-! ### One step -/

variable {c : Cursor} {front behind : List Char} {b : Binding}

/-- A slot begins the text up to the next annotation. -/
theorem AcceptedSlot.divide_text (s : AcceptedSlot) (after : List Char) :
    divide slotMark.toList (s.text ++ ')' :: after) =
      (s.text ++ ')' :: (divide slotMark.toList after).1, (divide slotMark.toList after).2) := by
  have hfree : '[' ∉ s.text ++ [')'] := by simp [s.bracket_notMem]
  have hmark : slotMark.toList.head? = some '[' := by decide
  rw [List.append_cons, divide_of_notMem hmark hfree, ← List.append_cons]

/-- The text behind a mark declares a binding exactly if one is read up to the first
    parenthesis behind it. -/
theorem annotates_iff :
    Annotates (front, (divide slotMark.toList behind).1) b ↔
      ∃ inside after, behind = inside ++ ')' :: after ∧ ')' ∉ inside ∧
        inSlot (parameterName front) (trim inside) = .ok b := by
  constructor
  · rintro ⟨hnamed, ⟨s, more, hpiece, hslot⟩, htexture⟩
    obtain ⟨hname, hne⟩ := parameterName_eq.mpr hnamed
    obtain ⟨rest, hrest⟩ := divide_fst_prefix slotMark.toList behind
    refine ⟨s.text, more ++ rest, ?_, s.parenthesis_notMem, ?_⟩
    · show behind = s.text ++ ')' :: (more ++ rest)
      rw [← hrest, show (divide slotMark.toList behind).1 = _ from hpiece, List.append_assoc,
        List.cons_append]
    · have hregister : b.register = s.slot := UInt16.toNat_inj.mp (hslot.trans s.toNat_slot.symm)
      have hbinding : b = .inSlot (.ofList (parameterName front)) s.slot := by
        rw [hname, String.ofList_toList, ← hregister]
        exact htexture
      exact inSlot_eq_ok.mpr ⟨hname ▸ hne, s, rfl, hbinding⟩
  · rintro ⟨inside, after, rfl, -, hread⟩
    obtain ⟨hne, s, rfl, rfl⟩ := inSlot_eq_ok.mp hread
    have hname : LastToken front (String.ofList (parameterName front)).toList := by
      rw [String.toList_ofList]
      exact parameterName_eq.mp ⟨rfl, hne⟩
    exact ⟨hname, ⟨s, _, congrArg Prod.fst (s.divide_text after), s.toNat_slot⟩, rfl⟩

/-- **One step reads the text of one annotation** and stands behind its parentheses, or the
    annotation declares nothing and the search fails. -/
theorem parameter?_text (hc : c.OnBoundary)
    (hrest : c.rest = front ++ (slotMark.toList ++ behind)) (hfront : ¬slotMark.toList <:+: front) :
    (∃ b next, parameter? c = some (.move (some b) next) ∧
        Annotates (front, (divide slotMark.toList behind).1) b ∧ next.OnBoundary ∧
        next.rest.length < c.rest.length ∧ divide slotMark.toList next.rest =
          (afterSlot (divide slotMark.toList behind).1, (divide slotMark.toList behind).2)) ∨
      ∃ cause, parameter? c = some (.finish (.malformed cause)) ∧
        ∀ b, ¬Annotates (front, (divide slotMark.toList behind).1) b := by
  obtain ⟨c₁, hcut, hc₁, rfl⟩ := Cursor.cut?_eq hc slotMark_closed hrest hfront
  by_cases hclosed : ')' ∈ c₁.rest
  · obtain ⟨inside, after, hbehind, hinside⟩ := List.eq_append_cons_of_mem hclosed
    have hfree : ¬")".toList <:+: inside := fun h => hinside (h.subset (by decide))
    obtain ⟨c₂, hclose, hc₂, rfl⟩ := Cursor.cut?_eq hc₁ parenthesis_closed hbehind hfree
    cases hread : inSlot (parameterName front) (trim inside) with
    | error cause =>
      refine .inr ⟨cause, by simp [parameter?, hcut, hclose, hread], fun b hb => ?_⟩
      obtain ⟨inside', after', hbehind', hinside', hread'⟩ := annotates_iff.mp hb
      obtain ⟨rfl, -⟩ := append_cons_inj hinside hinside' (hbehind.symm.trans hbehind')
      rw [hread] at hread'
      cases hread'
    | ok b =>
      have hb : Annotates (front, (divide slotMark.toList c₁.rest).1) b :=
        annotates_iff.mpr ⟨inside, c₂.rest, hbehind, hinside, hread⟩
      obtain ⟨-, s, rfl, -⟩ := inSlot_eq_ok.mp hread
      have hless : c₂.rest.length < c.rest.length := by
        rw [hrest, hbehind]
        simp only [List.length_append, List.length_cons]
        omega
      refine .inl ⟨b, c₂, by simp [parameter?, hcut, hclose, hread], hb, hc₂, hless, ?_⟩
      rw [hbehind, s.divide_text, afterSlot_append s.parenthesis_notMem]
  · have hopen : c₁.cut? ")" = some none :=
      Cursor.cut?_eq_none hc₁ fun h => hclosed (h.subset (by decide))
    refine .inr ⟨.openTexture (.ofList (parameterName front)),
      by simp [parameter?, hcut, hopen], fun b hb => ?_⟩
    obtain ⟨inside, after, hbehind, -⟩ := annotates_iff.mp hb
    exact hclosed (hbehind ▸ List.mem_append_right inside List.mem_cons_self)

/-! ### A whole parameter list -/

/-- **A run finds one binding in the texts of each annotation**, in order, or it fails at one
    that declares none. -/
theorem run?_covers (hc : c.OnBoundary) :
    ∃ f, parameters.run? c = some f ∧ f.Covers Annotates (annotationsIn c.rest) True := by
  -- a step that goes on leaves the text behind the next annotation
  induction hlen : c.rest.length using Nat.strongRecOn generalizing c with
  | _ len ih =>
    by_cases hmark : slotMark.toList <:+: c.rest
    · obtain ⟨front, behind, hrest, hfront⟩ := exists_first (by decide) hmark
      have hlist : annotationsIn c.rest = (front, (divide slotMark.toList behind).1) ::
          annotations (afterSlot (divide slotMark.toList behind).1)
            (divide slotMark.toList behind).2 := by
        rw [annotationsIn, hrest, divide_append slotMark_closed hfront]
        rfl
      rw [hlist]
      rcases parameter?_text hc hrest hfront with
        ⟨b, next, hstep, hb, hnext, hless, hdivide⟩ | ⟨cause, hstep, hunread⟩
      · obtain ⟨f, hrun, hcovers⟩ := ih _ (hlen ▸ hless) hnext rfl
        rw [annotationsIn, hdivide] at hcovers
        exact ⟨f.offer b, by rw [parameters.run?_move hstep, hrun]; rfl, hcovers.offer hb⟩
      · exact ⟨_, parameters.run?_finish hstep,
          .malformed cause (.inr ⟨_, List.mem_cons_self, hunread⟩)⟩
    · have hlist : annotationsIn c.rest = [] := by
        rw [annotationsIn, divide_of_free hmark]
        rfl
      rw [hlist]
      exact ⟨_, run?_unmarked hc hmark, .complete .nil trivial⟩

/-- The text has an entry point with this parameter list, which ends in front of the first brace,
    or with the text if there is none. -/
def HasParameters (list source : String) : Prop :=
  HasEntry list source ∨
    ∃ before, source.toList = before ++ (opening.toList ++ list.toList) ∧
      ¬opening.toList <:+: before ∧ ¬bodyOpening.toList <:+: list.toList

/-- Only the parameter list is searched. -/
theorem scan?_parameters {list source : String} (h : HasParameters list source) :
    scan? source = parameters.run? (.ofList list.toList) := by
  rcases h with hentry | ⟨before, hsource, hfirst, hlist⟩
  · exact scan?_encloses hentry
  · obtain ⟨next, hcut, hnext, hrest⟩ :=
      Cursor.cut?_eq (Cursor.onBoundary_ofList source.toList) opening_closed hsource hfirst
    have hnone : next.cut? bodyOpening = some none := Cursor.cut?_eq_none hnext (hrest ▸ hlist)
    simp [scan?, hcut, hnone, Cursor.rest?_eq hnext, hrest]

/-- In a source with an entry point, the texts of each annotation are searched. -/
theorem scan_covers {list source : String} (h : HasParameters list source) :
    (scan source).Covers Annotates (annotationsIn list.toList) True := by
  obtain ⟨f, hrun, hcovers⟩ := run?_covers (Cursor.onBoundary_ofList list.toList)
  have hscan : scan source = f := Option.get_of_eq_some _ ((scan?_parameters h).trans hrun)
  rw [hscan]
  exact hcovers

/-- Without an entry point nothing is found. -/
theorem scan_of_free {source : String} (h : ¬opening.toList <:+: source.toList) :
    scan source = ⟨[], .complete⟩ := by
  have hnone : (Cursor.ofList source.toList).cut? opening = some none :=
    Cursor.cut?_eq_none (Cursor.onBoundary_ofList source.toList) h
  have hscan : scan? source = some ⟨[], .complete⟩ := by simp [scan?, hnone]
  exact Option.get_of_eq_some _ hscan

/-- A source has no entry point, or one with a parameter list. -/
theorem scan_cases (source : String) :
    (¬opening.toList <:+: source.toList ∧ scan source = ⟨[], .complete⟩) ∨
      ∃ list, HasParameters list source := by
  by_cases hopen : opening.toList <:+: source.toList
  · obtain ⟨before, rest, hsource, hfirst⟩ := exists_first (by decide) hopen
    by_cases hbrace : bodyOpening.toList <:+: rest
    · obtain ⟨list, after, rfl, hlist⟩ := exists_first (by decide) hbrace
      refine .inr ⟨.ofList list, .inl ?_⟩
      rw [HasEntry, String.toList_ofList]
      exact ⟨before, after, hsource, hfirst, hlist⟩
    · refine .inr ⟨.ofList rest, .inr ⟨before, ?_⟩⟩
      rw [String.toList_ofList]
      exact ⟨hsource, hfirst, hbrace⟩
  · exact .inl ⟨hopen, scan_of_free hopen⟩

/-- One of the annotations in the parameter list declares nothing. -/
def Unread (source : String) : Prop :=
  ∃ list, HasParameters list source ∧ ∃ texts ∈ annotationsIn list.toList, ∀ b, ¬Annotates texts b

/-- Every texture is of known kind, so none is dropped from the table. -/
theorem filter_isKnown {texts : List (List Char × List Char)} {offered : List Binding}
    (h : List.Forall₂ Annotates texts offered) : offered.filter Binding.isKnown = offered := by
  rw [List.filter_eq_self]
  intro b hb
  obtain ⟨_, -, hannotates⟩ := Findings.exists_piece h hb
  rw [hannotates.texture]
  rfl

/-- With a table, it holds a binding for each annotation, if there is an entry point. -/
theorem toList_of_table {source : String} {t : BindingTable}
    (htable : (scan source).table = .ok t) :
    (¬opening.toList <:+: source.toList ∧ t.toList = []) ∨
      ∃ list, HasParameters list source ∧
        List.Forall₂ Annotates (annotationsIn list.toList) t.toList := by
  rcases scan_cases source with ⟨hnone, hscan⟩ | ⟨list, hlist⟩
  · rw [hscan] at htable
    cases htable
    exact .inl ⟨hnone, rfl⟩
  · obtain ⟨hoffered, -⟩ := (scan_covers hlist).offered_of_table htable
    rw [Findings.eq_ofList_of_table htable, BindingTable.toList_ofList, filter_isKnown hoffered]
    exact .inr ⟨list, hlist, hoffered⟩

/-- Every binding of a table is declared by an annotation. -/
theorem declared_of_mem {source : String} {t : BindingTable} {b : Binding}
    (htable : (scan source).table = .ok t) (hb : b ∈ t.toList) :
    ∃ list, HasParameters list source ∧ ∃ texts ∈ annotationsIn list.toList, Annotates texts b := by
  rcases toList_of_table htable with ⟨-, hnone⟩ | ⟨list, hlist, hread⟩
  · rw [hnone] at hb
    cases hb
  · exact ⟨list, hlist, Findings.exists_piece hread hb⟩

/-- There is no table exactly if an annotation cannot be read. -/
theorem table_error_iff (source : String) :
    (∃ cause, (scan source).table = .error cause) ↔ Unread source := by
  constructor
  · rintro ⟨cause, herror⟩
    rcases scan_cases source with ⟨-, hscan⟩ | ⟨list, hlist⟩
    · rw [hscan] at herror
      cases herror
    · have hunread := (scan_covers hlist).table_error_iff.mp ⟨cause, herror⟩
      exact ⟨list, hlist, hunread.resolve_left (not_not_intro trivial)⟩
  · rintro ⟨list, hlist, hunread⟩
    exact (scan_covers hlist).table_error_iff.mpr (.inr hunread)

end ShaderPack.Recovery.EntryTextures
