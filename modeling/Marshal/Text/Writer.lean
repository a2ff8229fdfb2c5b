/-!
# Writing text

A text whose parts are nested is written from left to right: each part continues
what is there already, so no part is copied again by the parts around it.
-/

namespace Marshal.Text

/-- Continues a text. -/
abbrev Writer := String → String

/-- Parts with a fixed text between them. -/
def separated (between : String) : List Writer → Writer
  | [], acc => acc
  | [w], acc => w acc
  | w :: ws, acc => separated between ws (w acc ++ between)

/-- Parts with commas between them. -/
def commas (parts : List Writer) : Writer := separated ", " parts

end Marshal.Text
