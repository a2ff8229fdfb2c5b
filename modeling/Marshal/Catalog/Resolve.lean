import Marshal.Catalog
import Marshal.Ty.Fold
import Marshal.Ty.Text

/-!
# Resolving references

A reference is resolved by alias steps: its declaration's body is instantiated
with the reference's arguments, and if that is a reference again, the next step
is taken from there. The steps end at the first body that is not a reference.

Steps that meet a declaration for the second time would go on for ever and are
refused. As every step passes a declaration not passed before, more steps than
there are declarations cannot happen, which bounds the recursion.

The instances met on the way stay in the arena, also after a fault.
-/

namespace Marshal

/-- What a reference stands for. The tags are those of the declaration that was
referred to, not of the last alias. -/
structure Referent where
  key : Key
  node : TyId
  recursive : Bool
  regular : Bool
  deriving DecidableEq, Repr

/-- Work on the arena that may meet a fault. -/
abbrev ArenaM := ExceptT Fault (StateM Arena)

namespace Catalog

def aliasLoop : String := "type alias expands to itself"

def wrongParameters (declared applied : Nat) : String :=
  "declared with " ++ toString declared ++ " type parameter(s), applied to " ++
    toString applied

/-- One alias step: the body of a declared key with arguments for its
parameters. -/
def expand (c : Catalog) (key : Key) (args : List TyId) : ArenaM TyId :=
  match c.find? key with
  | none => throw (.unresolved key.module key.name)
  | some d =>
    if args.length = d.params then
      fun a => let (node, a) := Arena.instantiate d.body args a; (.ok node, a)
    else
      throw (.unsupported key.text (wrongParameters d.params args.length))

/-- Alias steps until a body is not a reference. `origin` is the reference that
came first, `passed` the declarations met so far. -/
def follow (c : Catalog) (origin : TyId) : Nat → List Key → Key → List TyId → ArenaM TyId
  | 0, _, _, _ => fun a => (.error (.cyclic (a.text origin) aliasLoop), a)
  | steps + 1, passed, key, args => do
    if passed.contains key then
      throw (.cyclic ((← get).text origin) aliasLoop)
    let node ← c.expand key args
    match (← get).term? node with
    | some (.named next nextArgs) => c.follow origin steps (key :: passed) next nextArgs
    | _ => pure node

def notNamed (shape : String) : String := "expected a named type, found " ++ shape

/-- The type that a reference stands for. -/
def resolve (c : Catalog) (ty : TyId) : ArenaM Referent := do
  let a ← get
  match a.term? ty with
  | some (.named key args) =>
    let node ← c.follow ty (c.size + 1) [] key args
    pure ⟨key, node, c.isRecursive key, c.isRegular key⟩
  | some t => throw (.unsupported (a.text ty) (notNamed t.shape))
  | none => throw (.unsupported (a.text ty) (notNamed ""))

end Catalog

end Marshal
