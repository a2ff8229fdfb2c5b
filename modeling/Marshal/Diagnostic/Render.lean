import Marshal.Diagnostic

/-!
# Diagnostics for a terminal

The layout for people: the code on a line of its own, the message behind a mark
with its further lines behind a bar, and the help. In colour, the code, the
mark and the bar have the colour of the severity, the word help its own.
-/

namespace Marshal.Render

/-- What is laid out. -/
structure Notice where
  severity : Severity
  code : Option String
  message : String
  help : Option String
  deriving DecidableEq, Repr

def Notice.ofFault (f : Fault) : Notice := ⟨.error, some f.code, f.message, f.help⟩

def Notice.ofDiagnostic (d : Diagnostic) : Notice :=
  ⟨d.severity, d.code, d.headline ++ d.relatedLines, d.help⟩

/-- Terminal colours, by number. -/
def severityColour : Severity → String
  | .error => "31"
  | .warning => "33"

def helpColour : String := "36"

/-- Text in a colour. -/
def paint (colour : Bool) (number text : String) : String :=
  if colour then "\x1b[" ++ number ++ "m" ++ text ++ "\x1b[0m" else text

def mark : Severity → String
  | .error => "×"
  | .warning => "⚠"

/-- A line without the blanks at its end. -/
def trimBlanks (line : String) : String :=
  String.ofList ((line.toList.reverse.dropWhile (· = ' ')).reverse)

/-- The lines of a text, the first behind one indent and the others behind
another. -/
def indented (first other text : String) : String :=
  match (text.splitOn "\n").map trimBlanks with
  | [] => first
  | l :: ls => String.intercalate "\n" ((first ++ l) :: ls.map fun l => other ++ l)

/-- A notice as lines of text, the last one ended. -/
def render (colour : Bool) (n : Notice) : String :=
  let tint := paint colour (severityColour n.severity)
  let header := match n.code with
    | some code => tint code ++ "\n\n"
    | none => ""
  let body := indented ("  " ++ tint (mark n.severity) ++ " ") ("  " ++ tint "│" ++ " ") n.message
  let help := match n.help with
    | some help => indented (paint colour helpColour "  help: ") "        " help ++ "\n"
    | none => ""
  header ++ body ++ "\n" ++ help

end Marshal.Render
