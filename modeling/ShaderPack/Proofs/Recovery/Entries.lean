import Mathlib.Data.List.Induction
import ShaderPack.Proofs.Recovery.FieldTexts
import ShaderPack.Recovery

namespace ShaderPack.Recovery

open Journal

/-!
# Entries — what a search leaves in the journal

Every binding that is offered to a table leaves an entry, which tells all about the binding if the
table keeps it and only its name if not.  So entries can be a `Tally` of a table: those about kept
bindings are one for each member of the table, in order, and none is an error.

* `Tally.push` — with each binding that is offered, the table and its tally grow together;
* `Tally.append` — the tallies of two tables, one after the other, are one of both tables together;
* `entries_andThen` — two searches leave their entries one after the other, unless the first fails;
* `entries_tell_table` — the entries of a scan are a tally of its table, or end with its one error.
-/

variable {log more : List Entry} {t u : BindingTable}

/-- The entries that a search leaves. -/
def Findings.entries (f : Findings) : List Entry := f.events.map Event.entry

/-- The entry that tells all about a binding. -/
def keptEntry (b : Binding) : Entry where
  severity := .trace
  source := "galaxy3d::shaderc::Uniform"
  message := "name: " ++ b.name ++ " (type " ++ b.kind.name ++ ", num " ++ toString b.size.toNat ++
    ", reg " ++ toString b.register.toNat ++ "+" ++ toString b.registers.toNat ++ ")"

/-- The entry is a trace from a table, and not about a binding that was dropped. -/
def isKept (e : Entry) : Bool :=
  e.severity = .trace && e.source = "galaxy3d::shaderc::Uniform" &&
    !Text.startsWith "dropping" e.message

/-- The entries about kept bindings are those of the members of the table; none is an error. -/
structure Tally (log : List Entry) (t : BindingTable) : Prop where
  kept : log.filter isKept = t.toList.map keptEntry
  noError : ∀ e ∈ log, e.severity ≠ .error

/-! ### One binding -/

theorem keptMessage_kept (b : Binding) :
    Text.startsWith "dropping" (Event.keptMessage b) = false := by
  unfold Text.startsWith Event.keptMessage
  simp only [String.toList_append, List.append_assoc]
  rfl

theorem droppedMessage_dropped (b : Binding) :
    Text.startsWith "dropping" (Event.droppedMessage b) = true := by
  unfold Text.startsWith Event.droppedMessage
  simp only [String.toList_append, List.append_assoc]
  rfl

theorem entry_offered {b : Binding} (h : b.isKnown = true) :
    (Event.offered b).entry = keptEntry b := by
  have hmessage : (Event.offered b).message = (keptEntry b).message := if_pos h
  rw [Event.entry, hmessage]
  rfl

theorem isKept_offered (b : Binding) : isKept (Event.offered b).entry = b.isKnown := by
  have hseverity : (Event.offered b).entry.severity = .trace := rfl
  have hsource : (Event.offered b).entry.source = "galaxy3d::shaderc::Uniform" := rfl
  have hmessage : (Event.offered b).entry.message
      = if b.isKnown then Event.keptMessage b else Event.droppedMessage b := rfl
  rw [isKept, hseverity, hsource, hmessage]
  cases b.isKnown
  · simp only [Bool.false_eq_true, if_false, droppedMessage_dropped, Bool.not_true, Bool.and_false]
  · simp only [if_true, keptMessage_kept, Bool.not_false, Bool.and_true, decide_true]

/-! ### Growing tables -/

namespace Tally

theorem nil : Tally [] .empty := ⟨rfl, nofun⟩

/-- The tallies of two tables, one after the other, are one of both tables together. -/
theorem append (h : Tally log t) (h' : Tally more u) : Tally (log ++ more) (t ++ u) where
  kept := by
    rw [List.filter_append, h.kept, h'.kept, BindingTable.toList_append, List.map_append]
  noError := fun e he => (List.mem_append.mp he).elim (h.noError e) (h'.noError e)

/-- The entry for one binding is a tally of a table of it, which is empty if it is dropped. -/
theorem singleton (b : Binding) : Tally [(Event.offered b).entry] (.ofList [b]) where
  kept := by
    rw [BindingTable.toList_ofList]
    by_cases hknown : b.isKnown = true
    · rw [List.filter_cons_of_pos ((isKept_offered b).trans hknown), List.filter_cons_of_pos hknown,
        entry_offered hknown]
      rfl
    · rw [List.filter_cons_of_neg (isKept_offered b ▸ hknown), List.filter_cons_of_neg hknown]
      rfl
  noError := by
    intro e he
    rw [List.mem_singleton.mp he]
    nofun

/-- A binding that is offered to the table leaves its entry. -/
theorem push (h : Tally log t) (b : Binding) :
    Tally (log ++ [(Event.offered b).entry]) (t.push b) := by
  have hpush : t.push b = t ++ .ofList [b] := BindingTable.ext (t.toList_push b)
  rw [hpush]
  exact h.append (.singleton b)

end Tally

/-- The entries for offered bindings are a tally of the table that is made of them. -/
theorem tally_offered (offered : List Binding) :
    Tally (offered.map fun b => (Event.offered b).entry) (.ofList offered) := by
  -- a table grows at its end
  induction offered using List.reverseRecOn with
  | nil => exact .nil
  | append_singleton offered b ih =>
    rw [List.map_append, BindingTable.ofList_append_singleton]
    exact ih.push b

/-! ### Whole searches -/

namespace Findings

variable (f g : Findings)

theorem entries_eq :
    f.entries = f.offered.map (fun b => (Event.offered b).entry) ++
      f.ending.events.map Event.entry := by
  simp [entries, events, Function.comp_def]

/-- The entries of a search with a table are a tally of it. -/
theorem tally_entries (h : f.table = .ok t) : Tally f.entries t := by
  obtain ⟨offered, ending⟩ := f
  rw [entries_eq]
  cases ending with
  | complete =>
    obtain rfl := Except.ok.inj h
    rw [Ending.events, List.map_nil, List.append_nil]
    exact tally_offered offered
  | headerEnd offset word =>
    obtain rfl := Except.ok.inj h
    have hend : Tally [(Event.headerEnded offset word).entry] .empty :=
      ⟨rfl, fun e he => List.mem_singleton.mp he ▸ nofun⟩
    have hempty : BindingTable.ofList offered ++ .empty = .ofList offered :=
      BindingTable.ext (List.append_nil _)
    exact hempty ▸ (tally_offered offered).append hend
  | malformed cause => cases h

/-- The entries of a search that fails are those for the bindings before, and its error. -/
theorem entries_of_error {cause : Malformed} (h : f.table = .error cause) :
    f.entries = f.offered.map (fun b => (Event.offered b).entry) ++
      [(Event.malformed cause).entry] := by
  rcases f.table_cases with ⟨cause', hending, htable⟩ | htable
  · obtain rfl := Except.error.inj (htable.symm.trans h)
    rw [entries_eq, hending]
    rfl
  · rw [h] at htable
    cases htable

/-- Two searches leave their entries one after the other; only the first one's, if it fails. -/
theorem entries_andThen (hend : ∀ offset word, f.ending ≠ .headerEnd offset word) :
    (f.andThen g).entries = f.entries ++ if f.table.isOk then g.entries else [] := by
  obtain ⟨offered, ending⟩ := f
  cases ending with
  | complete => simp [entries, events, andThen, table, Ending.events, Except.isOk, Except.toBool]
  | headerEnd offset word => exact absurd rfl (hend offset word)
  | malformed cause => simp [andThen, table, Except.isOk, Except.toBool]

end Findings

/-- The search of the struct does not end at a header. -/
theorem StructFields.ending_ne_headerEnd (source : String) (offset : Nat) (word : String) :
    (StructFields.scan source).ending ≠ .headerEnd offset word := by
  rcases StructFields.scan_cases source with ⟨-, hscan⟩ | ⟨-, hscan⟩ | ⟨body, hbody⟩
  · rw [hscan]
    nofun
  · rw [hscan]
    nofun
  · have hcovers := StructFields.scan_covers hbody
    generalize StructFields.scan source = f at hcovers ⊢
    cases hcovers with
    | complete => nofun
    | malformed => nofun

/-- The entries about the struct come before those about the entry point, which is not searched if
    the struct cannot be read. -/
theorem entries_structAndEntry (source : String) :
    (Method.structAndEntry.scan source).entries =
      (StructFields.scan source).entries ++
        if (StructFields.scan source).table.isOk then (EntryTextures.scan source).entries else [] :=
  Findings.entries_andThen _ _ (StructFields.ending_ne_headerEnd source)

/-- **The entries of a scan tell the truth about its table.**

* With a table, no entry is an error, and those about kept bindings tell all about the members of
  the table, one each and in their order.
* Without one, the last entry is the only error; it is located, and its text is the reason why there
  is no table. -/
theorem entries_tell_table (m : Method) (source : String) :
    (∀ t, (m.scan source).table = .ok t →
      (∀ e ∈ (m.scan source).entries, e.severity ≠ .error) ∧
        (m.scan source).entries.filter isKept = t.toList.map keptEntry) ∧
    ∀ cause, (m.scan source).table = .error cause →
      ∃ earlier last, (m.scan source).entries = earlier ++ [last] ∧
        (∀ e ∈ earlier, e.severity ≠ .error) ∧ last.severity = .error ∧ last.isLocated = true ∧
          last.source = "galaxy3d::shaderc::Scanner" ∧ last.message = cause.message := by
  refine ⟨fun t htable => ?_, fun cause herror => ?_⟩
  · have htally : Tally (m.scan source).entries t := (m.scan source).tally_entries htable
    exact ⟨htally.noError, htally.kept⟩
  · exact ⟨_, _, (m.scan source).entries_of_error herror, (tally_offered _).noError,
      rfl, rfl, rfl, rfl⟩

end ShaderPack.Recovery
