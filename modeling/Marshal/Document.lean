import Marshal.Literal

/-!
# Documents

The structured form in which plans and reports are handed to other programs,
such as a generator of glue code: a tree of records, lists and plain data. How
a document is written down is left to whoever writes it.

A choice between alternatives is the name of the alternative, or a record whose
only field has that name.
-/

namespace Marshal

inductive Document where
  | null
  | bool (b : Bool)
  | int (n : Int)
  | float (x : Binary64)
  | text (s : String)
  | list (items : List Document)
  /-- Fields by name; their order carries no meaning. -/
  | record (fields : List (String × Document))

namespace Document

instance : Inhabited Document := ⟨.null⟩

def nat (n : Nat) : Document := .int n

/-- A list of documents, one for each element. -/
def listOf {α : Type} (f : α → Document) (xs : List α) : Document := .list (xs.map f)

/-- Something that may be missing. -/
def optional {α : Type} (f : α → Document) : Option α → Document
  | some x => f x
  | none => .null

/-- An alternative with contents. -/
def choice (name : String) (contents : Document) : Document := .record [(name, contents)]

end Document

/-- A number that is not finite has no document of its own. -/
def Literal.document : Literal → Document
  | .unit => .text "Unit"
  | .bool b => .choice "Bool" (.bool b)
  | .int n => .choice "Int" (.int n.toInt)
  | .float x => .choice "Float" (if x.isFinite then .float x else .null)
  | .string s => .choice "String" (.text s)

end Marshal
