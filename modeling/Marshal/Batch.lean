import Marshal.Diagnostic
import Marshal.Plan

/-!
# Batches

A batch plans the exports of a set of modules over one catalog. Each module has
a planner of its own; all of them share the batch's cache. Every export has an
outcome of its own: a plan, possibly with a warning, or the fault that stopped
it.

The modules are analysed one after another, or all at once. What those that are
analysed at once see of each other is what arrives in the cache meanwhile; for
each module it is laid out as a schedule. What they add to the arena meanwhile
is taken to be there from the start, since a planner does not see that a term
is missing.
-/

namespace Marshal

/-- What is exported: a value of a type, or a function. -/
inductive Exported where
  | value (ty : TyId)
  | function (signature : Signature)
  deriving DecidableEq, Repr

structure Export where
  name : String
  kind : Exported
  deriving DecidableEq, Repr

/-- A compilation unit: the types it declares and what it exports. -/
structure Module where
  name : String
  types : List Decl
  exports : List Export
  deriving DecidableEq, Repr

def Module.keyOf (m : Module) (e : Export) : Key := ⟨m.name, e.name⟩

/-! ## Reports -/

/-- What became of one export. -/
structure Outcome where
  declaration : Key
  plan : Option Plan
  diagnostics : List Diagnostic
  deriving DecidableEq

namespace Outcome

def isOk (o : Outcome) : Bool := o.plan.isSome

def errors (o : Outcome) : List Diagnostic := o.diagnostics.filter Diagnostic.isError

def warnings (o : Outcome) : List Diagnostic := o.diagnostics.filter fun d => !d.isError

end Outcome

/-- The outcomes of a module, in the order of its exports. -/
structure ModuleOutcomes where
  module : String
  outcomes : List Outcome
  deriving DecidableEq

/-- The reports of the modules, in their order. -/
structure Report where
  modules : List ModuleOutcomes
  deriving DecidableEq

namespace Report

def outcomes (r : Report) : List Outcome := r.modules.flatMap ModuleOutcomes.outcomes

def diagnostics (r : Report) : List Diagnostic := r.outcomes.flatMap Outcome.diagnostics

def hasErrors (r : Report) : Bool := r.diagnostics.any Diagnostic.isError

/-- The first outcome of that name in a module of that name. -/
def outcome? (r : Report) (key : Key) : Option Outcome :=
  ((r.modules.filter fun m => m.module = key.module).flatMap ModuleOutcomes.outcomes).find?
    fun o => o.declaration.name = key.name

def plan? (r : Report) (key : Key) : Option Plan := (r.outcome? key).bind Outcome.plan

end Report

/-! ## Batches -/

structure Batch where
  catalog : Catalog
  options : BatchSettings
  deriving DecidableEq

namespace Batch

/-- All declarations of the modules, no key twice. -/
def declarations (modules : List Module) : Except Fault (List Decl) :=
  (modules.flatMap Module.types).foldlM Catalog.add []

def ofModules (a : Arena) (modules : List Module) (options : BatchSettings) :
    Except Fault Batch :=
  (declarations modules).map fun decls => ⟨Catalog.ofDecls a decls, options⟩

/-! ## Analysis -/

def rebuiltWarning : String :=
  "a ref in this declaration is rebuilt at the boundary; the other side receives a different box"

def rebuiltHelp : String := "Writes through one box are not visible through the other"

/-- Planning over the batch's catalog, to a bounded depth. -/
structure Planning where
  type : TyId → PlanM Converter
  signature : Signature → PlanM Planner.SignaturePlan

def planning (b : Batch) (depth : Nat) : Planning :=
  ⟨Planner.planWithin b.catalog b.options.planner depth,
   Planner.planSignatureWithin b.catalog b.options.planner depth⟩

/-- The plan of a function, over the bodies that the planner has. -/
def functionPlan (planning : Planning) (key : Key) (s : Signature) : PlanM Plan := do
  let planned ← planning.signature s
  let p ← PlanM.planner
  PlanM.ofExcept (Plan.make key (.function planned.args planned.ret planned.shim)
    (some planned.convention) p.fixpoints)

/-- The plan of an export. A value whose type is a function type is planned as
a function. -/
def exportPlan (planning : Planning) (key : Key) : Exported → PlanM Plan
  | .function s => functionPlan planning key s
  | .value ty => do
    match (← PlanM.arena).term? ty with
    | some (.function s) => functionPlan planning key s
    | _ =>
      let c ← planning.type ty
      let p ← PlanM.planner
      PlanM.ofExcept (Plan.make key (.value c) none p.fixpoints)

/-- The outcome with a plan: a warning if it may hand over other cells. -/
def accepted (key : Key) (plan : Plan) : Outcome :=
  let warnings := if plan.rebuildsBoxes then
      [Diagnostic.warning (some key) rebuiltWarning (some rebuiltHelp)]
    else []
  ⟨key, some plan, warnings⟩

/-- The outcome without a plan. -/
def refused (key : Key) (f : Fault) (path : List Segment) : Outcome :=
  ⟨key, none, [.ofFault f (some key) path]⟩

/-- The outcome of one export. A path that an earlier export left behind is
forgotten first. Only running out of depth stops the analysis. -/
def outcomeOf (planning : Planning) (m : Module) (e : Export) : PlanM Outcome := fun s =>
  let key := m.keyOf e
  let s := { s with planner := s.planner.takePath.2 }
  match exportPlan planning key e.kind s with
  | (.ok plan, s) => (.ok (accepted key plan), s)
  | (.error (.fault f), s) =>
    let (path, planner) := s.planner.takePath
    (.ok (refused key f path), { s with planner })
  | (.error .outOfFuel, s) => (.error .outOfFuel, s)

/-- Work of a new planner that uses the shared cache. -/
def withPlanner {α : Type} (x : PlanM α) (shared : Shared) : Except Halt α × Shared :=
  let (r, s) := x ⟨shared, .new true⟩
  (r, s.shared)

/-- The outcomes of a module's exports, by one planner. -/
def reportModule (b : Batch) (depth : Nat) (m : Module) :
    ExceptT Halt (StateM Shared) ModuleOutcomes :=
  withPlanner do
    let outcomes ← m.exports.mapM (outcomeOf (b.planning depth) m)
    pure ⟨m.name, outcomes⟩

/-- What arrives in the cache while modules are analysed at once: for each of them, by its
position, what the others offer before each of its accesses. -/
abbrev Meanwhile := Nat → List (List Offer)

/-- Nothing arrives. -/
def Meanwhile.nothing : Meanwhile := fun _ => []

/-- The outcomes of a module that is analysed at once with others. It begins with the cache as
they all found it; what it leaves there goes to what the others have left. -/
def reportAmong (b : Batch) (depth : Nat) (found : Cache) (arriving : List (List Offer))
    (m : Module) : ExceptT Halt (StateM Shared) ModuleOutcomes := fun sh =>
  let (r, left) := b.reportModule depth m { sh with cache := { found with incoming := arriving } }
  (r, { left with cache := sh.cache.absorb left.cache })

/-- The report on modules, in their order. -/
def reportAll (b : Batch) (depth : Nat) (meanwhile : Meanwhile) (modules : List Module) :
    ExceptT Halt (StateM Shared) Report := do
  let found := (← get).cache
  let reports ←
    if b.options.parallel then
      modules.zipIdx.mapM fun (m, i) => b.reportAmong depth found (meanwhile i) m
    else
      modules.mapM (b.reportModule depth)
  pure ⟨reports⟩

end Batch

end Marshal
