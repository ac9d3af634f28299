import ShaderPack.Binding.Table
import ShaderPack.Journal.Event
import ShaderPack.Text.Cursor

namespace ShaderPack.Recovery

open Journal (Event)
open Text (Cursor)

/-!
# Findings of a search for bindings

A search goes through a text and finds bindings, in order, until it ends in one of three
ways.  `Findings` records both.  The table that comes out, the failure and the journal are
functions of it: every binding found is offered to the table and leaves one entry, and a
malformed declaration leaves one entry after them and no table.

A `Pass` is a search that repeats one step on a cursor.  A step reads through the cursor, so
it answers `none` where it would read from inside a character; a step that goes on leaves
less text than it found, so every pass ends.
-/

/-- How a search ends. -/
inductive Ending
  /-- Nothing is left to look at. -/
  | complete
  /-- The declaration header ends behind this word, at this offset. -/
  | headerEnd (offset : Nat) (word : String)
  | malformed (cause : Malformed)
  deriving DecidableEq, Repr

/-- What a search found, and how it ended. -/
structure Findings where
  offered : List Binding
  ending : Ending
  deriving DecidableEq, Repr

namespace Ending

/-- What an end records. -/
def events : Ending → List Event
  | .complete => []
  | .headerEnd offset word => [.headerEnded offset word]
  | .malformed cause => [.malformed cause]

end Ending

namespace Findings

/-- The findings with a binding found before them. -/
def offer (f : Findings) (b : Binding) : Findings := { f with offered := b :: f.offered }

/-- Two searches one after the other; the second one is not made if the first one fails. -/
def andThen (f g : Findings) : Findings :=
  match f.ending with
  | .malformed _ => f
  | _ => ⟨f.offered ++ g.offered, g.ending⟩

/-- The table of what was found, unless a declaration is malformed. -/
def table (f : Findings) : Except Malformed BindingTable :=
  match f.ending with
  | .malformed cause => .error cause
  | _ => .ok (.ofList f.offered)

/-- What the search records. -/
def events (f : Findings) : List Event :=
  f.offered.map .offered ++ f.ending.events

/-- Without a malformed declaration there is a table of everything found. -/
theorem table_eq_ok {f : Findings} (h : ∀ cause, f.ending ≠ .malformed cause) :
    f.table = .ok (.ofList f.offered) := by
  unfold table
  split
  · next cause hcause => exact absurd hcause (h cause)
  · rfl

/-- A search ends with a malformed declaration or in a table of everything found. -/
theorem table_cases (f : Findings) :
    (∃ cause, f.ending = .malformed cause ∧ f.table = .error cause) ∨
      f.table = .ok (.ofList f.offered) := by
  cases hending : f.ending with
  | malformed cause => exact .inl ⟨cause, rfl, by rw [table, hending]⟩
  | complete => exact .inr (table_eq_ok fun cause h => nomatch hending.symm.trans h)
  | headerEnd offset word => exact .inr (table_eq_ok fun cause h => nomatch hending.symm.trans h)

end Findings

/-! ### Passes -/

/-- What a step of a pass does. -/
inductive Step
  /-- The pass ends. -/
  | finish (ending : Ending)
  /-- The pass goes on at `next`, having found a binding or not. -/
  | move (found : Option Binding) (next : Cursor)
  deriving DecidableEq, Repr

/-- A step that goes on stands between two characters and has left text behind. -/
def Step.Leaves (step : Step) (c : Cursor) : Prop :=
  ∀ found next, step = .move found next →
    next.OnBoundary ∧ next.rest.length < c.rest.length

/-- An end leaves everything as it is. -/
theorem Step.leaves_finish (ending : Ending) (c : Cursor) : (Step.finish ending).Leaves c :=
  fun _ _ h => nomatch h

/-- Going on at a cursor between two characters with less text. -/
theorem Step.leaves_move {found : Option Binding} {next c : Cursor} (hnext : next.OnBoundary)
    (hlt : next.rest.length < c.rest.length) : (Step.move found next).Leaves c := by
  rintro _ _ ⟨⟩
  exact ⟨hnext, hlt⟩

/-- A step that can be repeated until it ends: it succeeds where the cursor can read, and
    only there. -/
structure Pass where
  step : Cursor → Option Step
  reads : ∀ c, c.OnBoundary → ∃ s, step c = some s ∧ s.Leaves c
  refuses : ∀ c, ¬c.OnBoundary → step c = none

namespace Pass

/-- A step that goes on leaves less text than it found. -/
theorem advances (p : Pass) {c next : Cursor} {found : Option Binding}
    (h : p.step c = some (.move found next)) : next.rest.length < c.rest.length := by
  by_cases hc : c.OnBoundary
  · obtain ⟨s, hs, hleaves⟩ := p.reads c hc
    rw [h] at hs
    exact (hleaves found next (Option.some.inj hs).symm).2
  · simp [p.refuses c hc] at h

/-- Repeats the step from a cursor on; `none` if a step reads from inside a character. -/
def run? (p : Pass) (c : Cursor) : Option Findings :=
  match h : p.step c with
  | none => none
  | some (.finish ending) => some ⟨[], ending⟩
  | some (.move found next) =>
    have := p.advances h
    (p.run? next).map fun f => found.elim f f.offer
termination_by c.rest.length

/-- A pass whose step ends has found nothing. -/
theorem run?_finish (p : Pass) {c : Cursor} {ending : Ending}
    (h : p.step c = some (.finish ending)) : p.run? c = some ⟨[], ending⟩ := by
  unfold run?
  split
  · next h' => simp [h] at h'
  · next h' =>
    rw [h] at h'
    cases h'
    rfl
  · next h' => simp [h] at h'

/-- A pass whose step goes on finds what the step found and then what it finds from
    there. -/
theorem run?_move (p : Pass) {c next : Cursor} {found : Option Binding}
    (h : p.step c = some (.move found next)) :
    p.run? c = (p.run? next).map fun f => found.elim f f.offer := by
  conv => lhs; unfold run?
  split
  · next h' => simp [h] at h'
  · next h' => simp [h] at h'
  · next h' =>
    rw [h] at h'
    cases h'
    rfl

/-- From between two characters a pass has findings. -/
theorem run?_isSome (p : Pass) (c : Cursor) (hc : c.OnBoundary) : (p.run? c).isSome := by
  induction hlen : c.rest.length using Nat.strongRecOn generalizing c with
  | _ len ih =>
    obtain ⟨step, hstep, hleaves⟩ := p.reads c hc
    unfold run?
    split
    · next h => simp [h] at hstep
    · rfl
    · next found next h =>
      rw [h] at hstep
      obtain ⟨hnext, hlt⟩ := hleaves found next (Option.some.inj hstep).symm
      simpa using ih _ (hlen ▸ hlt) next hnext rfl

end Pass

end ShaderPack.Recovery
