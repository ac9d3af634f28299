import ShaderPack.Journal.Calendar
import ShaderPack.Journal.Entry
import ShaderPack.Text.Replace

namespace ShaderPack.Journal.Console

/-!
# Entries on the console

An entry is one line: time, severity and source in brackets, then the message and, if both
are known, the file and line that reported it.  On a colour terminal severity and source are
coloured by escape sequences; a reset inside a coloured text is followed by the colour again,
so that the text is coloured to its end.
-/

/-- The escape sequence that begins a style. -/
def styleStart (code : String) : String := "\x1b[" ++ code ++ "m"

/-- The escape sequence that ends every style. -/
def reset : String := "\x1b[0m"

/-- A text in a style. -/
def styled (code text : String) : String :=
  let inner := Text.replaceAll reset.toList (reset ++ styleStart code).toList text.toList
  styleStart code ++ .ofList inner ++ reset

/-- A text in a style if there are colours, and as it is otherwise. -/
def paint (color : Bool) (code text : String) : String :=
  if color then styled code text else text

/-- The name of a severity, five characters wide. -/
def severityName : Severity → String
  | .trace => "TRACE"
  | .debug => "DEBUG"
  | .info => "INFO "
  | .warn => "WARN "
  | .error => "ERROR"

/-- The style of a severity: grey, cyan, green, yellow, and bold red. -/
def severityStyle : Severity → String
  | .trace => "90"
  | .debug => "36"
  | .info => "32"
  | .warn => "33"
  | .error => "1;31"

/-- The style of a source: bright blue. -/
def sourceStyle : String := "94"

/-- The place that reported an entry, behind its message. -/
def place (e : Entry) : String :=
  match e.file, e.line with
  | some file, some line => " (" ++ file ++ ":" ++ toString line ++ ")"
  | _, _ => ""

/-- The line of an entry behind its time. -/
def untimed (color : Bool) (e : Entry) : String :=
  "[" ++ paint color (severityStyle e.severity) (severityName e.severity) ++ "] [" ++
    paint color sourceStyle e.source ++ "] " ++ e.message ++ place e ++ "\n"

/-- The line of an entry; there is none for a time outside the calendar. -/
def line? (color : Bool) (time : Instant) (e : Entry) : Option String :=
  time.text?.map fun text => "[" ++ text ++ "] " ++ untimed color e

end ShaderPack.Journal.Console
