import Marshal.Fault
import Marshal.Path
import Marshal.Ty.Term

/-!
# Diagnostics

What is reported about a declaration. A fault never stops a batch: it becomes a
diagnostic of the declaration it came from, with the path to its place.
-/

namespace Marshal

/-- An error means that there is no plan, a warning that there is one with a
caveat. -/
inductive Severity where
  | error
  | warning
  deriving DecidableEq, Repr

def Severity.text : Severity → String
  | .error => "error"
  | .warning => "warning"

structure Diagnostic where
  severity : Severity
  message : String
  code : Option String
  help : Option String
  declaration : Option Key
  /-- Where in the type the fault was met, outermost first. -/
  related : List String
  deriving DecidableEq, Repr

namespace Diagnostic

def ofFault (f : Fault) (declaration : Option Key) (path : List Segment) : Diagnostic :=
  { severity := .error, message := f.message, code := some f.code, help := f.help, declaration,
    related := path.map Segment.text }

def warning (declaration : Option Key) (message : String) (help : Option String) :
    Diagnostic :=
  { severity := .warning, message, code := none, help, declaration, related := [] }

def isError (d : Diagnostic) : Bool := d.severity == .error

/-- The message behind the declaration, if there is one. -/
def headline (d : Diagnostic) : String :=
  match d.declaration with
  | some key => key.text ++ ": " ++ d.message
  | none => d.message

/-- A line for each place on the path. -/
def relatedLines (d : Diagnostic) : String := String.join (d.related.map fun r => "\n  " ++ r)

/-- A diagnostic as plain text. -/
def text (d : Diagnostic) : String :=
  let code := match d.code with
    | some code => " [" ++ code ++ "]"
    | none => ""
  let help := match d.help with
    | some help => "\nhelp: " ++ help
    | none => ""
  d.severity.text ++ ": " ++ d.headline ++ code ++ d.relatedLines ++ help

end Diagnostic

end Marshal
