import Marshal.Document.Types
import Marshal.Plan

/-!
# Documents of plans

What a generator of glue code reads: steps, converters, conventions and whole
plans. Stamps are not part of it.
-/

namespace Marshal

open Document

def Direction.document : Direction → Document
  | .forward => .text "Forward"
  | .backward => .text "Backward"

def VariantCarrier.document : VariantCarrier → Document
  | .tagged => .text "Tagged"
  | .indexed => .text "Indexed"

def RecordSlot.document (s : RecordSlot) : Document :=
  .record [("name", .text s.name), ("optional", .bool s.optional)]

def Adapter.document (a : Adapter) : Document :=
  .record [("arity", .nat a.arity), ("defaults", listOf (optional Literal.document) a.defaults)]

namespace Step

/-- What a step is called. -/
def tag : Step → String
  | .identity => "Identity"
  | .wrapRecord _ => "WrapRecordAsPositional"
  | .unwrapRecord _ => "UnwrapPositionalAsRecord"
  | .mapOption _ => "MapOption"
  | .mapNullable _ => "MapNullable"
  | .atField _ _ => "ApplyNestedField"
  | .adaptArity _ => "AdaptArity"
  | .substituteDefault _ => "SubstituteDefault"
  | .passBox _ => "PassThroughBox"
  | .rebuildBox _ => "RebuildBox"
  | .sequence _ => "Sequence"
  | .mapElements _ => "MapElements"
  | .mapArray _ => "MapArray"
  | .retag _ _ _ => "RetagVariant"
  | .wrapFunction _ _ => "WrapFunction"
  | .recurse _ _ => "Recurse"

mutual

/-- A step by its name, with what is inside it. -/
def document : Step → Document
  | .identity => .text "Identity"
  | .wrapRecord slots => choice "WrapRecordAsPositional" (listOf RecordSlot.document slots)
  | .unwrapRecord slots => choice "UnwrapPositionalAsRecord" (listOf RecordSlot.document slots)
  | .mapOption inner => choice "MapOption" inner.document
  | .mapNullable inner => choice "MapNullable" inner.document
  | .atField name inner =>
    choice "ApplyNestedField" (.record [("name", .text name), ("inner", inner.document)])
  | .adaptArity adapter => choice "AdaptArity" adapter.document
  | .substituteDefault lit => choice "SubstituteDefault" lit.document
  | .passBox inner => choice "PassThroughBox" inner.document
  | .rebuildBox inner => choice "RebuildBox" inner.document
  | .sequence steps => choice "Sequence" (.list (documents steps))
  | .mapElements steps => choice "MapElements" (.list (documents steps))
  | .mapArray inner => choice "MapArray" inner.document
  | .retag source target cases =>
    choice "RetagVariant"
      (.record [("from", source.document), ("to", target.document),
        ("cases", .list (ofCases cases))])
  | .wrapFunction args ret =>
    choice "WrapFunction" (.record [("args", .list (documents args)), ("ret", ret.document)])
  | .recurse target d =>
    choice "Recurse" (.record [("target", target.document), ("direction", d.document)])

def documents : List Step → List Document
  | [] => []
  | s :: ss => s.document :: documents ss

def ofCases : List CaseStep → List Document
  | [] => []
  | ⟨name, none⟩ :: cs => .record [("name", .text name), ("payload", .null)] :: ofCases cs
  | ⟨name, some s⟩ :: cs => .record [("name", .text name), ("payload", s.document)] :: ofCases cs

end

end Step

def Converter.document : Converter → Document
  | .identity => .text "Identity"
  | .custom _ f b =>
    choice "Custom" (.record [("forward", f.document), ("backward", b.document)])

def Placement.document : Placement → Document
  | .nowhere => .text "None"
  | .shim lit => choice "Shim" lit.document
  | .native lit => choice "Native" lit.document

def ArgSlot.document (s : ArgSlot) : Document :=
  .record [("decl_index", .nat s.param), ("label", Document.optional .text s.label),
    ("optional", .bool s.optional), ("default", s.default.document)]

def Convention.document (c : Convention) : Document :=
  .record [("slots", listOf ArgSlot.document c.slots), ("order", listOf .nat c.order)]

def Planner.SignaturePlan.document (s : Planner.SignaturePlan) : Document :=
  .record [("call", s.convention.document), ("args", listOf Converter.document s.args),
    ("ret", s.ret.document), ("shim", s.shim.document)]

/-- Bodies by id. -/
def FixTable.document (t : FixTable) : Document :=
  .record (t.entries.map fun (ty, c) => (toString ty.index, c.document))

def Conversion.document : Conversion → Document
  | .value c => choice "Value" (.record [("converter", c.document)])
  | .function convention args ret shim =>
    choice "Function"
      (.record [("call", convention.document), ("args", listOf Converter.document args),
        ("ret", ret.document), ("shim", shim.document)])

def Plan.document (p : Plan) : Document :=
  .record [("declaration", p.declaration.document), ("kind", p.kind.document),
    ("fixpoints", p.fixpoints.document)]

end Marshal
