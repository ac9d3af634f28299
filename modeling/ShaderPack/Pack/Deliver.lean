import ShaderPack.Pack.Encode
import ShaderPack.Writer.Basic

namespace ShaderPack.PackedShader

open Journal (Event)
open Pack (WriteFault)

/-!
# Handing a packed shader to a writer
-/

/-- What became of a packed shader: the bytes that the writer accepted, the fault if there
    is one, what was recorded, and the writer's state. -/
structure Delivered (σ : Type) where
  accepted : Bytes
  fault : Option WriteFault
  events : List Event
  state : σ

variable {σ : Type}

/-- Hands the packed form of a shader to a writer in one piece.  A shader without a packed
    form leaves the writer alone. -/
def deliver (p : PackedShader) (w : Writer σ) (s : σ) : Delivered σ :=
  match p.encode with
  | .error fault => ⟨[], some fault, p.encodeEvents, s⟩
  | .ok bytes =>
    let d := w.writeAndFlush s bytes
    let fault := d.failure.map WriteFault.undelivered
    ⟨d.accepted, fault, p.encodeEvents ++ (fault.map Event.unwritten).toList, d.state⟩

end ShaderPack.PackedShader
