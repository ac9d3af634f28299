import ShaderPack.Journal.Entry

namespace ShaderPack.Journal

/-!
# Loggers

All entries go to the one logger that is installed.  At first that is the console; it can be
replaced by a logger that keeps entries, and put back.
-/

/-- Where entries go: to the console, or to the keeper of this name. -/
inductive Logger (ι : Type)
  | console
  | keeper (name : ι)
  deriving DecidableEq, Repr

namespace Logger

variable {ι : Type} [DecidableEq ι]

instance : Inhabited (Logger ι) := ⟨.console⟩

/-- The entries that reach a keeper. -/
def kept (l : Logger ι) (name : ι) (entries : List Entry) : List Entry :=
  if l = .keeper name then entries else []

/-- The entries that reach the console. -/
def printed (l : Logger ι) (entries : List Entry) : List Entry :=
  if l = .console then entries else []

end Logger

end ShaderPack.Journal
