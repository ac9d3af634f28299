import ShaderPack.Pack.Deliver
import ShaderPack.Proofs.Writer.Moments
import ShaderPack.Writer.Script

namespace ShaderPack.PackedShader

open Moment (Reaches Over)
open Pack (WriteFault)

/-!
# Packed shaders — all is delivered or a fault is reported

A shader without a packed form never reaches its writer; any other one is handed over moment by
moment, and `deliver` reports how that ends.  `deliver_all_or_report` says so of every writer.
-/

variable {σ : Type} {p : PackedShader} {w : Writer σ} {s : σ} {bytes : Bytes}

/-- Without a packed form the writer is left alone. -/
theorem deliver_of_error {fault : WriteFault} (h : p.encode = .error fault) :
    p.deliver w s = ⟨[], some fault, p.encodeEvents, s⟩ := by
  rw [deliver, h]

/-- A packed form is delivered up to the moment at which that is over. -/
theorem deliver_over (h : p.encode = .ok bytes) :
    ∃ m failure, Reaches w.write (.start bytes s) m ∧ Over w m failure (p.deliver w s).state ∧
      (p.deliver w s).accepted = m.accepted ∧
      (p.deliver w s).fault = failure.map .undelivered := by
  obtain ⟨m, hm, haccepted, hover⟩ := w.over_writeAndFlush s bytes
  refine ⟨m, (w.writeAndFlush s bytes).failure, hm, ?_⟩
  rw [deliver, h]
  exact ⟨hover, haccepted.symm, rfl⟩

/-- Nothing is wrong with a delivery exactly if it comes to a moment at which all is accepted and
    the writer passes it on. -/
theorem deliver_complete_iff : (p.deliver w s).fault = none ↔
    ∃ bytes m, p.encode = .ok bytes ∧ Reaches w.write (.start bytes s) m ∧ m.accepted = bytes ∧
      (w.flush m.state).1 = none := by
  constructor
  · intro hnone
    cases hencode : p.encode with
    | error fault =>
      rw [deliver_of_error hencode] at hnone
      cases hnone
    | ok bytes =>
      obtain ⟨m, failure, hm, hover, -, hfault⟩ := deliver_over (w := w) (s := s) hencode
      rw [hnone] at hfault
      obtain rfl : failure = none := Option.map_eq_none_iff.mp hfault.symm
      cases hover with
      | flushed hleft hflush =>
        have hkept := hm.kept
        rw [hleft, List.append_nil] at hkept
        exact ⟨bytes, m, rfl, hm, hkept, congrArg Prod.fst hflush⟩
  · rintro ⟨bytes, m, hencode, hm, haccepted, hflush⟩
    obtain ⟨m', failure, hm', hover', -, hfault⟩ := deliver_over (w := w) (s := s) hencode
    have hleft : m.left = [] := by
      have hkept := hm.kept
      rwa [haccepted, List.append_right_eq_self] at hkept
    have hover : Over w m (w.flush m.state).1 (w.flush m.state).2 := .flushed hleft rfl
    obtain rfl := hm.eq_of_over hm' hover hover'
    rw [hfault, hover'.unique hover, hflush]
    rfl

/-- **All is delivered or a fault is reported**, whatever the writer does.

    * A shader without a packed form leaves the writer as it is.
    * At every moment of a delivery the writer has accepted a leading part of the bytes and will be
      handed the rest, even if it is interrupted forever.
    * A writer that is not comes to the last moment, of which the report tells.
    * No fault is reported exactly if all bytes are accepted and the writer passes them on; any
      other report says that the shader is not written. -/
theorem deliver_all_or_report (p : PackedShader) {σ : Type} (w : Writer σ) (s : σ) :
    (∀ fault, p.encode = .error fault → (p.deliver w s).fault = some fault ∧
      (p.deliver w s).accepted = [] ∧ (p.deliver w s).state = s) ∧
    (∀ bytes, p.encode = .ok bytes →
      (∀ (write : σ → Bytes → Answer × σ) (m : Moment σ), Reaches write (.start bytes s) m →
        m.accepted <+: bytes ∧ m.accepted ++ m.left = bytes) ∧
      ∃ m failure, Reaches w.write (.start bytes s) m ∧ Over w m failure (p.deliver w s).state ∧
        (p.deliver w s).accepted = m.accepted ∧
        (p.deliver w s).fault = failure.map .undelivered) ∧
    ((p.deliver w s).fault = none ↔
      ∃ bytes m, p.encode = .ok bytes ∧ Reaches w.write (.start bytes s) m ∧
        m.accepted = bytes ∧ (w.flush m.state).1 = none) ∧
    ∀ fault, (p.deliver w s).fault = some fault → ∃ cause, fault.failure = .unwritten cause := by
  refine ⟨fun fault h => ?_, fun bytes h => ⟨fun write m hm => ?_, deliver_over h⟩,
    deliver_complete_iff, fun fault _ => ⟨fault.message, rfl⟩⟩
  · rw [deliver_of_error h]
    exact ⟨rfl, rfl, rfl⟩
  · exact ⟨⟨m.left, hm.kept⟩, hm.kept⟩

/-- A writer that is interrupted, takes three bytes at a time and is full after five. -/
example : ((PackedShader.mk .empty "ab").deliver
    (Script.writer { interrupt := true, chunk := some 3, limit := some 5, zero := true })
    (Script.start { interrupt := true })).accepted = [0, 0, 2, 0, 0] := by
  cbv

end ShaderPack.PackedShader
