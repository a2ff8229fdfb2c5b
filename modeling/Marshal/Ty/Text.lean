import Marshal.Text.Writer
import Marshal.Ty.Arena

/-!
# Types as text

How a type is written in messages. A reference is written with its arguments
and never expanded, so every type has a finite text.
-/

namespace Marshal.Arena

open Text (Writer commas separated)

/-- One layer; `sub` writes the layers below. -/
def writeLayer (sub : TyId → Writer) (t : Term) (acc : String) : String :=
  match t with
  | .scalar s => acc ++ s.name
  | .var i => acc ++ "'" ++ toString i
  | .record fields => commas (fields.map field) (acc ++ "\x7b") ++ "\x7d"
  | .object fields => commas (fields.map field) (acc ++ "\x7b. ") ++ "\x7d"
  | .variant cs => separated " | " (cs.map constructor) acc
  | .tuple ts => commas (ts.map sub) (acc ++ "(") ++ ")"
  | .array t => sub t (acc ++ "array<") ++ ">"
  | .option t => sub t (acc ++ "option<") ++ ">"
  | .nullable t => sub t (acc ++ "nullable<") ++ ">"
  | .ref t => sub t (acc ++ "ref<") ++ ">"
  | .opaqueTy name => acc ++ name
  | .function s => sub s.ret (commas (s.params.map param) (acc ++ "(") ++ ") => ")
  | .named key [] => acc ++ key.text
  | .named key args => commas (args.map sub) (acc ++ key.text ++ "<") ++ ">"
where
  field (f : Field) : Writer := fun acc =>
    sub f.ty (acc ++ (if f.mutable then "mutable " else "") ++ f.name ++
      (if f.optional then "?: " else ": "))
  constructor (c : Constructor) : Writer := fun acc =>
    match c.payload with
    | some t => sub t (acc ++ c.name ++ "(") ++ ")"
    | none => acc ++ c.name
  param (p : Parameter) : Writer := fun acc =>
    sub p.ty
      (match p.role with
        | .positional => acc
        | .named l => acc ++ "~" ++ l ++ ": "
        | .optional l _ => acc ++ "~" ++ l ++ ": ?")

def writeUpTo (a : Arena) : Nat → TyId → Writer
  | 0, _, acc => acc
  | depth + 1, ty, acc =>
    match a.term? ty with
    | none => acc
    | some t => writeLayer (a.writeUpTo depth) t acc

/-- A type as it is written in messages. Ids fall from parent to child, so a type
has no more layers than its id says. -/
def text (a : Arena) (ty : TyId) : String := a.writeUpTo (ty.index + 1) ty ""

end Marshal.Arena
