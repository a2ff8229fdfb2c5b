import Marshal.Document
import Marshal.Ty.Term

/-!
# Documents of types

One layer of a type, its children by id.
-/

namespace Marshal

open Document

def TyId.document (ty : TyId) : Document := .nat ty.index

def Key.document (k : Key) : Document :=
  .record [("module", .text k.module), ("name", .text k.name)]

def Scalar.document : Scalar → Document
  | .unit => .text "Unit"
  | .bool => .text "Bool"
  | .int => .text "Int"
  | .float => .text "Float"
  | .string => .text "String"

def Field.document (f : Field) : Document :=
  .record [("name", .text f.name), ("ty", f.ty.document), ("optional", .bool f.optional),
    ("mutable", .bool f.mutable)]

def Constructor.document (c : Constructor) : Document :=
  .record [("name", .text c.name), ("payload", optional TyId.document c.payload)]

def Role.document : Role → Document
  | .positional => .text "Positional"
  | .named label => choice "Named" (.text label)
  | .optional label default =>
    choice "Optional"
      (.record [("label", .text label), ("default", Document.optional Literal.document default)])

def Parameter.document (p : Parameter) : Document :=
  .record [("role", p.role.document), ("ty", p.ty.document),
    ("native_default", optional Literal.document p.nativeDefault)]

def Signature.document (s : Signature) : Document :=
  .record [("params", listOf Parameter.document s.params), ("ret", s.ret.document)]

def Term.document : Term → Document
  | .scalar s => choice "Scalar" s.document
  | .var i => choice "Var" (.nat i)
  | .record fields => choice "Record" (listOf Field.document fields)
  | .object fields => choice "Object" (listOf Field.document fields)
  | .variant cs => choice "Variant" (listOf Constructor.document cs)
  | .tuple ts => choice "Tuple" (listOf TyId.document ts)
  | .array t => choice "Array" t.document
  | .option t => choice "Option" t.document
  | .nullable t => choice "Nullable" t.document
  | .ref t => choice "Ref" t.document
  | .opaqueTy name => choice "Opaque" (.text name)
  | .function s => choice "Function" s.document
  | .named key args =>
    choice "NamedRef"
      (.record [("module", .text key.module), ("name", .text key.name),
        ("args", listOf TyId.document args)])

end Marshal
