import Marshal.Planner.Plan
import Marshal.Run.Call

/-!
# Conversion plans

All that the host needs to use one exported declaration: the converter of a
value, or for a function its convention with a converter for each argument and
for the result. A plan travels alone, so it holds the
fixpoint body of every recursive type it needs, and no others.
-/

namespace Marshal

/-- What a declaration exports. -/
inductive Conversion where
  | value (converter : Converter)
  | function (convention : Convention) (args : List Converter) (ret shim : Converter)
  deriving DecidableEq

structure Plan where
  declaration : Key
  kind : Conversion
  fixpoints : FixTable
  deriving DecidableEq

/-- What the planner found for a declaration. -/
inductive Finding where
  | value (converter : Converter)
  | function (args : List Converter) (ret shim : Converter)
  deriving DecidableEq

namespace Conversion

/-- The converters of a plan, in order. -/
def converters : Conversion → List Converter
  | .value c => [c]
  | .function _ args ret shim => args ++ [ret, shim]

/-- The converter of the declaration as a value. -/
def whole : Conversion → Converter
  | .value c => c
  | .function _ _ _ shim => shim

end Conversion

/-! ## Making a plan -/

namespace Plan

def valueWithCall : String := "a value export cannot have a calling convention"

def functionWithoutCall : String := "a function export needs a canonical call"

def noFixpoint : String := "no fixpoint converter was planned for this recursive type"

/-- Planner output and convention have to go together. -/
def conversionOf (declaration : Key) : Finding → Option Convention → Except Fault Conversion
  | .value c, none => .ok (.value c)
  | .value _, some _ => .error (.unsupported declaration.text valueWithCall)
  | .function _ _ _, none => .error (.unsupported declaration.text functionWithoutCall)
  | .function args ret shim, some convention =>
    if convention.arity = args.length then .ok (.function convention args ret shim)
    else .error (.arity args.length convention.arity)

/-- The bodies of the given types, all of which have to be there. -/
def bodies (available : FixTable) : List TyId → Except Fault FixTable
  | [] => .ok .empty
  | ty :: tys =>
    match available.find? ty with
    | none => .error (.unsupported ty.text noFixpoint)
    | some body => (bodies available tys).map fun t => t.insert ty body

/-- Makes a plan that holds what it needs of the `available` bodies. -/
def make (declaration : Key) (planned : Finding) (convention : Option Convention)
    (available : FixTable) : Except Fault Plan := do
  let kind ← conversionOf declaration planned convention
  let needed := available.needed (kind.converters.flatMap Converter.targets)
  let fixpoints ← bodies available needed
  pure ⟨declaration, kind, fixpoints⟩

/-! ## Looking at a plan -/

def converters (p : Plan) : List Converter := p.kind.converters

/-- Nothing is converted in either direction. -/
def isIdentity (p : Plan) : Bool := p.converters.all Converter.isIdentity

/-- A run may hand over another cell than it was given. -/
def rebuildsBoxes (p : Plan) : Bool :=
  (p.converters ++ p.fixpoints.entries.map Prod.snd).any fun c => c.subSteps.any Step.isRebuild

/-- Same declaration and same contents; stamps do not count. -/
def sameContent (p q : Plan) : Bool :=
  decide (p.declaration = q.declaration) && sameKind p.kind q.kind &&
    decide (p.fixpoints.entries.map (fun e => (e.1, e.2.content)) =
      q.fixpoints.entries.map fun e => (e.1, e.2.content))
where
  sameKind : Conversion → Conversion → Bool
    | .value c, .value d => c.sameContent d
    | .function k as r s, .function k' as' r' s' =>
      decide (k = k') && decide (as.map Converter.content = as'.map Converter.content) &&
        r.sameContent r' && s.sameContent s'
    | _, _ => false

/-! ## Running a plan -/

/-- A host value on the native side. -/
def toNative (p : Plan) (v : Value) : Run Value :=
  Run.convert p.fixpoints p.kind.whole .forward v

/-- A native value on the host side. -/
def toHost (p : Plan) (v : Value) : Run Value :=
  Run.convert p.fixpoints p.kind.whole .backward v

end Plan

namespace Convention

/-- Arguments from declared order into call order. -/
def arrange (c : Convention) (args : List Value) : List Value :=
  (c.order.zip args).foldl (fun placed (position, v) => placed.set position v)
    (List.replicate args.length .absent)

/-- The arguments of a call: in call order, absent ones filled in by the shim
where it does. There have to be exactly as many as there are slots. -/
def prepare (c : Convention) (args : List Value) : Except Fault (List Value) :=
  if args.length = c.arity then c.countAndFill.complete (c.arrange args)
  else .error (.arity c.arity args.length)

end Convention

namespace Plan

def notFunction : Fault := .shape "function declaration" "value declaration"

/-- The converter for an argument of a call. -/
def argConverter (convention : Convention) (args : List Converter) (slot : ArgSlot) :
    Except Fault Converter :=
  match args[slot.param]? with
  | some c => .ok c
  | none => .error (.arity convention.arity args.length)

/-- Calls a native function with host arguments, in declared order, and answers
the host result. `convert` runs half of a converter, `callee` applies the native
function. -/
def callWith (convert : Converter → Direction → Value → Run Value)
    (callee : List Value → Run Value) (p : Plan) (args : List Value) : Run Value :=
  match p.kind with
  | .value _ => Run.fail notFunction
  | .function convention converters ret _ => do
    let assembled ← Run.ofExcept (convention.prepare args)
    let converted ← (assembled.zip convention.slots).mapM fun (arg, slot) => do
      let c ← Run.ofExcept (argConverter convention converters slot)
      convert c .forward arg
    let result ← callee converted
    convert ret .backward result

/-- Calls a native function through the plan. -/
def call (p : Plan) (native : Closure) (args : List Value) : Run Value :=
  p.callWith (Run.convert p.fixpoints) (Run.call native) args

end Plan

end Marshal
