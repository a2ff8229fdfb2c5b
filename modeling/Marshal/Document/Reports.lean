import Marshal.Batch
import Marshal.Document.Plans

/-!
# Documents of reports

What a batch reports, with the options it ran under.
-/

namespace Marshal

open Document

def RecordCarrier.document : RecordCarrier → Document
  | .keyed => .text "Keyed"
  | .positional => .text "Positional"

def Profile.document (p : Profile) : Document :=
  .record [("records", p.records.document), ("variants", p.variants.document)]

def RefPolicy.document : RefPolicy → Document
  | .allowRebuild => .text "AllowRebuild"
  | .preserve => .text "Preserve"

def Options.document (o : Options) : Document :=
  .record [("host", o.host.document), ("native", o.native.document),
    ("ref_identity", o.refs.document)]

def BatchSettings.document (o : BatchSettings) : Document :=
  .record [("planner", o.planner.document), ("parallel", .bool o.parallel)]

def Segment.document : Segment → Document
  | .field name => choice "InField" (.record [("name", .text name)])
  | .element index => choice "InElement" (.record [("index", .nat index)])
  | .constructor name => choice "InConstructor" (.record [("name", .text name)])
  | .argument index label =>
    choice "InArgument" (.record [("index", .nat index), ("label", optional .text label)])
  | .result => .text "InReturn"
  | .expansion name => choice "InNamedType" (.record [("name", .text name)])

def Severity.document : Severity → Document
  | .error => .text "Error"
  | .warning => .text "Warning"

def Diagnostic.document (d : Diagnostic) : Document :=
  .record [("severity", d.severity.document), ("message", .text d.message),
    ("code", optional .text d.code), ("help", optional .text d.help),
    ("declaration", optional Key.document d.declaration), ("related", listOf .text d.related)]

def Outcome.document (o : Outcome) : Document :=
  .record [("declaration", o.declaration.document), ("plan", optional Plan.document o.plan),
    ("diagnostics", listOf Diagnostic.document o.diagnostics)]

def ModuleOutcomes.document (m : ModuleOutcomes) : Document :=
  .record [("module", .text m.module), ("declarations", listOf Outcome.document m.outcomes)]

def Report.document (r : Report) : Document :=
  .record [("modules", listOf ModuleOutcomes.document r.modules)]

end Marshal
