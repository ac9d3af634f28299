namespace ShaderPack.Journal

/-!
# Journal entries

What a logger receives: how severe an entry is, which part of the library wrote it, its text
and, for failures, the place that reported it.
-/

/-- How severe an entry is. -/
inductive Severity
  | trace
  | debug
  | info
  | warn
  | error
  deriving DecidableEq, Repr

/-- The place of a severity in their order, the mildest first. -/
def Severity.rank : Severity → Nat
  | .trace => 0
  | .debug => 1
  | .info => 2
  | .warn => 3
  | .error => 4

instance : Ord Severity := ⟨fun a b => compare a.rank b.rank⟩

/-- One message to a logger. -/
structure Entry where
  severity : Severity
  source : String
  message : String
  /-- The file that reported the entry. -/
  file : Option String := none
  /-- The line of that file. -/
  line : Option Nat := none
  deriving DecidableEq, Repr

/-- Whether the entry names both the file and the line that reported it. -/
def Entry.isLocated (e : Entry) : Bool := e.file.isSome && e.line.isSome

end ShaderPack.Journal
