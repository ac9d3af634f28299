import Mathlib.Data.List.Forall2
import ShaderPack.Recovery.Findings

namespace ShaderPack.Recovery

/-!
# Findings — a binding for each text

A search that takes its text piece by piece `Covers` the pieces if it has found one binding in
each of them, in order.  If it fails, then because nothing can be read from one of the pieces,
or because the last of them is not ended.

* `Covers.offered_of_table`, `Covers.table_error_iff` — what that says of the table;
* `table_andThen` — two searches have a table exactly if each of them has one, and it holds the
  bindings of the first before those of the second.
-/

namespace Findings

variable {α : Type} {reads : α → Binding → Prop} {pieces : List α} {ended : Prop} {f g : Findings}
  {offered : List Binding}

/-- Each binding is found in one of the pieces. -/
theorem exists_piece (h : List.Forall₂ reads pieces offered) {b : Binding} (hb : b ∈ offered) :
    ∃ piece ∈ pieces, reads piece b := by
  obtain ⟨i, hi, rfl⟩ := List.getElem_of_mem hb
  have hpieces : i < pieces.length := h.length_eq ▸ hi
  exact ⟨pieces[i], List.getElem_mem hpieces, h.get hpieces hi⟩

/-- In each piece one of the bindings is found. -/
theorem exists_found (h : List.Forall₂ reads pieces offered) {piece : α} (hpiece : piece ∈ pieces) :
    ∃ b ∈ offered, reads piece b := by
  obtain ⟨i, hi, rfl⟩ := List.getElem_of_mem hpiece
  have hoffered : i < offered.length := h.length_eq ▸ hi
  exact ⟨offered[i], List.getElem_mem hoffered, h.get hi hoffered⟩

/-- One binding is found in each piece, or the search fails and one of them cannot be read. -/
inductive Covers (reads : α → Binding → Prop) (pieces : List α) (ended : Prop) : Findings → Prop
  | complete {offered : List Binding} (h : List.Forall₂ reads pieces offered) (hended : ended) :
    Covers reads pieces ended ⟨offered, .complete⟩
  | malformed {offered : List Binding} (cause : Malformed)
    (h : ¬ended ∨ ∃ piece ∈ pieces, ∀ b, ¬reads piece b) :
    Covers reads pieces ended ⟨offered, .malformed cause⟩

namespace Covers

/-- A binding that is read from another piece in front. -/
theorem offer (h : f.Covers reads pieces ended) {piece : α} {b : Binding} (hb : reads piece b) :
    (f.offer b).Covers reads (piece :: pieces) ended := by
  cases h with
  | complete hoffered hended => exact .complete (.cons hb hoffered) hended
  | malformed cause h =>
    refine .malformed cause (h.imp_right ?_)
    rintro ⟨piece, hpiece, hunread⟩
    exact ⟨piece, List.mem_cons_of_mem _ hpiece, hunread⟩

/-- Where one binding can be read from each piece, and no other, these are found. -/
theorem eq_of_reads (h : f.Covers reads pieces ended) (hunique : Relator.RightUnique reads)
    (hreads : List.Forall₂ reads pieces offered) (hended : ended) : f = ⟨offered, .complete⟩ := by
  cases h with
  | complete hfound =>
    obtain rfl := List.right_unique_forall₂' hunique hfound hreads
    rfl
  | malformed cause h =>
    obtain ⟨piece, hpiece, hunread⟩ := h.resolve_left (not_not_intro hended)
    obtain ⟨b, -, hb⟩ := exists_found hreads hpiece
    exact absurd hb (hunread b)

/-- With a table, one binding was found in each piece. -/
theorem offered_of_table (h : f.Covers reads pieces ended) {table : BindingTable}
    (htable : f.table = .ok table) : List.Forall₂ reads pieces f.offered ∧ ended := by
  cases h with
  | complete hoffered hended => exact ⟨hoffered, hended⟩
  | malformed cause h => cases htable

/-- There is no table exactly if a piece cannot be read or the last one is not ended. -/
theorem table_error_iff (h : f.Covers reads pieces ended) :
    (∃ cause, f.table = .error cause) ↔ ¬ended ∨ ∃ piece ∈ pieces, ∀ b, ¬reads piece b := by
  constructor
  · rintro ⟨cause, herror⟩
    cases h with
    | complete => cases herror
    | malformed cause h => exact h
  · intro hunread
    cases h with
    | malformed cause => exact ⟨cause, rfl⟩
    | complete hoffered hended =>
      obtain ⟨piece, hpiece, hunread⟩ := hunread.resolve_left (not_not_intro hended)
      obtain ⟨b, -, hb⟩ := exists_found hoffered hpiece
      exact absurd hb (hunread b)

end Covers

/-- Two searches have a table if each of them has one. -/
theorem table_andThen (f g : Findings) :
    (f.andThen g).table = f.table.bind fun first => g.table.map (first ++ ·) := by
  obtain ⟨offered, ending⟩ := f
  obtain ⟨others, ending'⟩ := g
  cases ending with
  | malformed cause => rfl
  | _ =>
    cases ending' with
    | malformed cause => rfl
    | _ => exact congrArg Except.ok (BindingTable.ofList_append offered others)

theorem table_andThen_eq_ok {table : BindingTable} :
    (f.andThen g).table = .ok table ↔
      ∃ first second, f.table = .ok first ∧ g.table = .ok second ∧ table = first ++ second := by
  rw [table_andThen]
  cases f.table <;> cases g.table <;> simp [Except.bind, Except.map, eq_comm]

/-- Two searches have no table exactly if one of them has none. -/
theorem table_andThen_error_iff :
    (∃ cause, (f.andThen g).table = .error cause) ↔
      (∃ cause, f.table = .error cause) ∨ ∃ cause, g.table = .error cause := by
  rw [table_andThen]
  cases f.table <;> cases g.table <;> simp [Except.bind, Except.map]

/-- A table is made from what was found. -/
theorem eq_ofList_of_table {table : BindingTable} (h : f.table = .ok table) :
    table = .ofList f.offered := by
  rcases f.table_cases with ⟨cause, -, herror⟩ | hok
  · rw [herror] at h
    cases h
  · exact Except.ok.inj (h.symm.trans hok)

end Findings

end ShaderPack.Recovery
