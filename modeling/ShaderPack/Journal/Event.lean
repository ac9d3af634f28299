import ShaderPack.Binding.Basic
import ShaderPack.Compilation.State
import ShaderPack.Dialect
import ShaderPack.Journal.Entry
import ShaderPack.Pack.Fault
import ShaderPack.Recovery.Malformed
import ShaderPack.Stage

namespace ShaderPack.Journal

open Compilation (State)
open Recovery (Malformed)
open Pack (WriteFault)

/-!
# Events worth an entry

The library itself records events and not texts: a run hands back the list of what happened,
and `Event.entry` is the one place that words it.  Failures are located; the place names the
module that reports them.
-/

/-- Something that a run records. -/
inductive Event
  /-- A binding was offered to a table, which keeps it if its kind is known. -/
  | offered (binding : Binding)
  /-- The declaration header ends behind this word. -/
  | headerEnded (offset : Nat) (word : String)
  | malformed (cause : Malformed)
  /-- The record of a binding was written. -/
  | recorded (binding : Binding)
  | unwritten (fault : WriteFault)
  | entered (before after : State)
  | targeted (stage : Stage) (dialect : Dialect)
  /-- The compilation failed after the given state. -/
  | failed (state : State) (failure : Failure)
  | compiled (bindings bytes : Nat)
  /-- The excerpt of a rejection could not be shown. -/
  | unshown (reason : String)
  | disassemblyUnwritten (failure : Failure)
  | staleRemoved (path : String)
  | staleKept (path reason : String)
  deriving DecidableEq, Repr

namespace Event

/-- How severe an event is. -/
def severity : Event → Severity
  | .offered _ | .headerEnded _ _ | .recorded _ => .trace
  | .entered _ _ | .targeted _ _ | .staleRemoved _ => .debug
  | .compiled _ _ => .info
  | .unshown _ | .disassemblyUnwritten _ | .staleKept _ _ => .warn
  | .malformed _ | .unwritten _ | .failed _ _ => .error

/-- The part of the library that records an event, under its name in the journal. -/
def source : Event → String
  | .offered _ => "galaxy3d::shaderc::Uniform"
  | .headerEnded _ _ | .malformed _ => "galaxy3d::shaderc::Scanner"
  | .recorded _ | .unwritten _ => "galaxy3d::shaderc::Blob"
  | _ => "galaxy3d::shaderc::Compiler"

/-- The text for a binding that a table keeps. -/
def keptMessage (b : Binding) : String :=
  "name: " ++ b.name ++ " (type " ++ b.kind.name ++ ", num " ++ toString b.size.toNat ++
    ", reg " ++ toString b.register.toNat ++ "+" ++ toString b.registers.toNat ++ ")"

/-- The text for a binding that a table drops. -/
def droppedMessage (b : Binding) : String :=
  "dropping '" ++ b.name ++ "' (unsupported type)"

/-- The wording of an event. -/
def message : Event → String
  | .offered b => if b.isKnown then keptMessage b else droppedMessage b
  | .headerEnded offset word => "header ends at offset " ++ toString offset ++ " ('" ++ word ++ "')"
  | .malformed cause => cause.message
  | .recorded b =>
    b.name ++ ", " ++ b.kind.name ++ ", " ++ toString b.size.toNat ++ ", " ++
      toString b.register.toNat ++ ", " ++ toString b.registers.toNat
  | .unwritten fault => fault.message
  | .entered before after => before.name ++ " -> " ++ after.name
  | .targeted stage dialect => stage.name ++ " shader, target " ++ dialect.name
  | .failed state failure =>
    "Compilation failed after " ++ state.name ++ ": " ++ failure.message
  | .compiled bindings bytes =>
    toString bindings ++ " uniform(s), " ++ toString bytes ++ " byte(s) of source"
  | .unshown reason => "Could not print diagnostic: " ++ reason
  | .disassemblyUnwritten failure => "Disassembly not written: " ++ failure.message
  | .staleRemoved path => "Removed stale " ++ path
  | .staleKept path reason => "Could not remove stale " ++ path ++ ": " ++ reason

/-- The module that reports a failure, and the line where it begins. -/
def place? : Event → Option (String × Nat)
  | .malformed _ => some ("ShaderPack/Recovery.lean", 1)
  | .unwritten _ => some ("ShaderPack/Pack/Encode.lean", 1)
  | .failed _ _ => some ("ShaderPack/Compilation.lean", 1)
  | _ => none

/-- The entry that a logger receives for an event. -/
def entry (e : Event) : Entry where
  severity := e.severity
  source := e.source
  message := e.message
  file := e.place?.map (·.1)
  line := e.place?.map (·.2)

end Event

end ShaderPack.Journal
