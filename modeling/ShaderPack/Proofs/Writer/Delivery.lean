import ShaderPack.Writer.Basic

namespace ShaderPack

/-!
# Writers — what becomes of the bytes

Whatever a writer does, it has accepted a leading part of what it was handed, and all of it
exactly if it has not failed: a repeated write repeats no byte, and after a failure nothing
more is handed over.  `Delivers` says so of a single delivery.  A complete delivery may be
followed by another one (`Delivers.append`), and one that failed stays what it is, whatever
else was to follow (`Delivers.cut`); so the property passes from single writes to `writeAll`
and from there to `writeEach`.
-/

variable {σ : Type} {bytes more : Bytes} {d rest : Delivery σ}

/-- The writer has accepted a leading part of the bytes, and all of them exactly if it has not
    failed. -/
structure Delivers (bytes : Bytes) (d : Delivery σ) : Prop where
  leading : d.accepted <+: bytes
  complete_iff : d.failure = none ↔ d.accepted = bytes

namespace Delivers

/-- Without bytes nothing can fail. -/
theorem nothing (s : σ) : Delivers [] (⟨[], none, s⟩ : Delivery σ) :=
  ⟨List.prefix_refl [], iff_of_true rfl rfl⟩

/-- A writer that fails at once has accepted nothing. -/
theorem refused (hne : bytes ≠ []) (reason : String) (s : σ) :
    Delivers bytes ⟨[], some reason, s⟩ where
  leading := List.nil_prefix
  complete_iff := iff_of_false (by simp) hne.symm

/-- A delivery behind bytes that were accepted. -/
theorem append (front : Bytes) (hrest : Delivers more rest) :
    Delivers (front ++ more) { rest with accepted := front ++ rest.accepted } where
  leading := (List.prefix_append_right_inj front).mpr hrest.leading
  complete_iff := by rw [List.append_cancel_left_eq, hrest.complete_iff]

/-- A failed delivery with which all that was to follow is lost. -/
theorem cut (h : Delivers bytes d) (hfailed : d.failure ≠ none) (more : Bytes) :
    Delivers (bytes ++ more) d where
  leading := h.leading.trans (List.prefix_append bytes more)
  complete_iff := by
    refine iff_of_false hfailed fun hall => hfailed (h.complete_iff.mpr ?_)
    -- bytes and more would be a leading part of the bytes
    have hlead : bytes ++ more <+: bytes := hall ▸ h.leading
    rw [hall]
    exact (List.prefix_append bytes more).eq_of_length_le hlead.length_le |>.symm

end Delivers

namespace Writer

/-- **Bytes are handed over** as long as the writer takes them. -/
theorem delivers_writeAll (w : Writer σ) (s : σ) (bytes : Bytes) :
    Delivers bytes (w.writeAll s bytes) := by
  -- the induction is on the bytes that are left and then on the writer's patience
  fun_induction writeAll w s bytes with
  | case1 s => exact .nothing s
  | case2 s bytes hne s' hwrite hpatience ih => exact ih
  | case3 s bytes hne reason s' hwrite => exact .refused hne reason s'
  | case4 s bytes hne s' hwrite => exact .refused hne _ s'
  | case5 s bytes hne n s' hwrite rest ih =>
    have htaken := Delivers.append (bytes.take (n + 1)) ih
    rwa [List.take_append_drop] at htaken

/-- **Pieces are handed over** one after the other. -/
theorem delivers_writeEach (w : Writer σ) (s : σ) (pieces : List Bytes) :
    Delivers pieces.flatten (w.writeEach s pieces) := by
  induction pieces generalizing s with
  | nil => exact .nothing s
  | cons piece pieces ih =>
    have hpiece := w.delivers_writeAll s piece
    rw [List.flatten_cons, writeEach]
    cases hfailure : (w.writeAll s piece).failure with
    | some reason =>
      simp only
      exact hpiece.cut (by simp [hfailure]) _
    | none =>
      simp only
      rw [hpiece.complete_iff.mp hfailure]
      exact .append piece (ih _)

/-- The writer never fails and takes some of what it is handed. -/
def Unfailing (w : Writer σ) : Prop :=
  ∀ s bytes, bytes ≠ [] →
    (w.write s bytes).1 ≠ .accepted 0 ∧ ∀ reason, (w.write s bytes).1 ≠ .failed reason

theorem Unfailing.failure_writeAll {w : Writer σ} (h : w.Unfailing) (s : σ) (bytes : Bytes) :
    (w.writeAll s bytes).failure = none := by
  fun_induction writeAll w s bytes with
  | case1 s => rfl
  | case2 s bytes hne s' hwrite hpatience ih => exact ih
  | case3 s bytes hne reason s' hwrite =>
    exact absurd (congrArg Prod.fst hwrite) ((h s bytes hne).2 reason)
  | case4 s bytes hne s' hwrite => exact absurd (congrArg Prod.fst hwrite) (h s bytes hne).1
  | case5 s bytes hne n s' hwrite rest ih => exact ih

theorem Unfailing.failure_writeEach {w : Writer σ} (h : w.Unfailing) (s : σ)
    (pieces : List Bytes) : (w.writeEach s pieces).failure = none := by
  induction pieces generalizing s with
  | nil => rfl
  | cons piece pieces ih =>
    rw [writeEach]
    simp only [h.failure_writeAll]
    exact ih _

end Writer

end ShaderPack
