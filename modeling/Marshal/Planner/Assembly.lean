import Marshal.Converter

/-!
# Putting converters together

The content of a composite type's converter, from the converters of its parts.
Each function answers `none` when nothing has to be done and otherwise the two
halves; making an instance of it is left to the planner.
-/

namespace Marshal.Assembly

/-- Two halves, or nothing to do. -/
abbrev Content := Option (Step × Step)

/-- All parts cross unchanged. -/
def allIdentity (cs : List Converter) : Bool := cs.all Converter.isIdentity

/-! ## Records -/

/-- One step for each field that is converted, in place. -/
def fieldSteps (fields : List Field) (cs : List Converter) (d : Direction) : List Step :=
  ((fields.zip cs).filter fun (_, c) => !c.isIdentity).map fun (f, c) =>
    .atField f.name (c.step d)

/-- Keyed on both sides. -/
def keyed (fields : List Field) (cs : List Converter) : Content :=
  if allIdentity cs then none
  else some (.seq (fieldSteps fields cs .forward), .seq (fieldSteps fields cs .backward))

/-- Positional on both sides. -/
def positional (cs : List Converter) : Content :=
  if allIdentity cs then none
  else some (.mapElements (cs.map Converter.forward), .mapElements (cs.map Converter.backward))

/-- Keyed to positional in direction `d`: fields are converted while they have
names. -/
def toPositional (fields : List Field) (slots : List RecordSlot) (cs : List Converter)
    (d : Direction) : Step :=
  .seq (fieldSteps fields cs d ++ [.wrapRecord slots])

/-- Positional to keyed in direction `d`: names first. -/
def toKeyed (fields : List Field) (slots : List RecordSlot) (cs : List Converter)
    (d : Direction) : Step :=
  .seq (.unwrapRecord slots :: fieldSteps fields cs d)

/-- A record, by the carriers of the host and of the native side. -/
def record (host native : RecordCarrier) (fields : List Field) (slots : List RecordSlot)
    (cs : List Converter) : Content :=
  match host, native with
  | .keyed, .keyed => keyed fields cs
  | .positional, .positional => positional cs
  | .keyed, .positional =>
    some (toPositional fields slots cs .forward, toKeyed fields slots cs .backward)
  | .positional, .keyed =>
    some (toKeyed fields slots cs .forward, toPositional fields slots cs .backward)

/-! ## Variants -/

/-- The cases of a variant in direction `d`. -/
def cases (constructors : List Constructor) (payloads : List (Option Converter))
    (d : Direction) : List CaseStep :=
  (constructors.zip payloads).map fun (c, p) => ⟨c.name, p.map fun c => c.step d⟩

/-- A variant, by the carriers of the host and of the native side. -/
def variant (host native : VariantCarrier) (constructors : List Constructor)
    (payloads : List (Option Converter)) : Content :=
  if host = native ∧ allIdentity (payloads.filterMap fun p => p) then none
  else
    some (.retag host native (cases constructors payloads .forward),
      .retag native host (cases constructors payloads .backward))

/-! ## Presence and cells -/

/-- Null is told from a value even where the value crosses unchanged. -/
def nullable (c : Converter) : Content :=
  some (.mapNullable c.forward, .mapNullable c.backward)

/-- A cell whose contents cross unchanged is handed over itself. -/
def sameBox : Content := some (.passBox .identity, .passBox .identity)

/-! ## Functions -/

/-- A wrapper around a function, none if nothing is converted. -/
def wrapFunction (args : List Step) (ret : Step) : Step :=
  if args.all Step.isIdentity && ret.isIdentity then .identity else .wrapFunction args ret

/-- Arguments on their way to the native side, absent ones filled in first. -/
def argSteps (defaults : List (Option Literal)) (args : List Converter) : List Step :=
  (defaults.zip args).map fun (lit, arg) =>
    match lit with
    | some lit => .seq [.substituteDefault lit, arg.forward]
    | none => arg.forward

/-- A function as a value. Backward makes a native function callable by the
host: its arguments go to the native side and may be filled in. Forward makes a
host function callable by the native side, where nothing is filled in. The
check of the number of arguments is the outermost wrapper, so it runs first. A
function of at most one parameter, which is not optional, needs no check. -/
def shim (signature : Signature) (convention : Convention) (args : List Converter)
    (ret : Converter) : Content :=
  let check := Step.adaptArity convention.countOnly
  let plain := decide (signature.params.length ≤ 1) &&
    !signature.params.any fun p => p.role.isOptional
  if plain && allIdentity args && ret.isIdentity then none
  else
    let defaults := (List.range args.length).map convention.shimDefault
    some
      (.seq [wrapFunction (args.map Converter.backward) ret.forward, check],
       .seq [wrapFunction (argSteps defaults args) ret.backward, check])

end Marshal.Assembly
