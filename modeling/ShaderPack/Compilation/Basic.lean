import ShaderPack.Journal.Event
import ShaderPack.Pack.Basic
import ShaderPack.Recovery
import ShaderPack.Rejection.Excerpt
import ShaderPack.Source.Directives
import ShaderPack.Source.Modernize
import ShaderPack.Writer.Basic

namespace ShaderPack.Compilation

open Journal (Event)

/-!
# Compilations

One compilation selects a dialect, has the optimizer work on the source, brings the result
up to date, and recovers its bindings.  A rejection is shown to the message writer, as an
excerpt of the source and the optimizer's log; whether that works out has no influence on
anything but one entry of the journal.

An outcome holds everything that can be observed: the result, the events, the calls of the
optimizer, and what the message writer accepted.  There is none if the excerpt of a rejected
source is given up (`compile?`); every other compilation comes to that of `compile`.
-/

/-- The external optimizer: optimized text, or the log of a refusal. -/
abbrev Optimizer := Stage → Dialect → String → Except String String

/-- What is to be compiled. -/
structure Request where
  stage : Stage
  version : UInt32
  platform : PlatformTag
  source : String
  deriving DecidableEq, Repr

/-- A compiled shader. -/
structure CompiledShader where
  dialect : Dialect
  packed : PackedShader
  deriving DecidableEq

/-- What the optimizer was called with. -/
structure Call where
  stage : Stage
  dialect : Dialect
  source : String
  deriving DecidableEq, Repr

/-- What a compilation comes to. -/
structure Outcome (σ : Type) where
  result : Except Failure CompiledShader
  events : List Event
  calls : List Call
  /-- What the message writer accepted. -/
  messages : Bytes
  /-- The message writer afterwards. -/
  writer : σ

/-- What is recorded when a compilation fails after a state. -/
def failing (state : State) (failure : Failure) : List Event :=
  [.failed state failure, .entered state .failed]

/-- What the message writer is handed about a rejection, piece by piece. -/
def report (r : Rejection) (source : String) : List Bytes :=
  [r.excerpt source, "Error: ", r.log, "\n"].map Bytes.utf8

variable {σ : Type}

/-- The rest of a compilation whose source the optimizer refused. -/
def reject (call : Call) (log : String) (w : Writer σ) (s : σ) : Outcome σ :=
  let rejection := Rejection.ofLog log
  let shown := w.writeEach s (report rejection call.source)
  { result := .error rejection.failure
    events := (shown.failure.map Event.unshown).toList ++
      failing .dialectSelected rejection.failure
    calls := [call]
    messages := shown.accepted
    writer := shown.state }

/-- The rest of a compilation with optimized text. -/
def finish (call : Call) (optimized : String) (s : σ) : Outcome σ :=
  let source := Source.modernize call.stage call.dialect (Source.dropDirectives optimized)
  let findings := call.dialect.method.scan source
  let events := [.entered .dialectSelected .optimized, .entered .optimized .modernized] ++
    findings.events
  match findings.table with
  | .error cause =>
    let failure := Failure.malformed cause.message
    { result := .error failure
      events := events ++ failing .modernized failure
      calls := [call], messages := [], writer := s }
  | .ok bindings =>
    { result := .ok ⟨call.dialect, bindings, source⟩
      events := events ++ [.entered .modernized .scanned,
        .compiled bindings.length (Bytes.utf8 source).length]
      calls := [call], messages := [], writer := s }

/-- Compiles a source; `s` is the state of the message writer. -/
def compile (optimize : Optimizer) (r : Request) (w : Writer σ) (s : σ) : Outcome σ :=
  let dialect := Dialect.select r.version r.platform
  let call := { stage := r.stage, dialect, source := r.source : Call }
  let rest := match optimize r.stage dialect r.source with
    | .error log => reject call log w s
    | .ok optimized => finish call optimized s
  { rest with
    events := [.entered .start .dialectSelected, .targeted r.stage dialect] ++ rest.events }

/-- Whether a source can be reported if the optimizer refuses it. -/
def isReportable (o : Overflow) (optimize : Optimizer) (r : Request) : Bool :=
  match optimize r.stage (Dialect.select r.version r.platform) r.source with
  | .error log => ((Rejection.ofLog log).excerpt? o r.source).isSome
  | .ok _ => true

/-- Compiles a source that can be reported. -/
def compile? (o : Overflow) (optimize : Optimizer) (r : Request) (w : Writer σ) (s : σ) :
    Option (Outcome σ) :=
  if isReportable o optimize r then some (compile optimize r w s) else none

end ShaderPack.Compilation
