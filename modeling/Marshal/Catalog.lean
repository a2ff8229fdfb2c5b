import Marshal.Fault
import Marshal.Ty.Walk

/-!
# The catalog of declarations

Types declared by the modules of a batch, found by module and name. Building a
catalog tags its declarations in two ways.

- A declaration is *recursive* when it can reach itself through references, at
  any place in a body and whatever their arguments.
- A recursive declaration is *irregular* when a reference on one of its cycles
  is applied to something other than a bare type parameter. Its arguments can
  then grow at every turn, and it may have infinitely many instances.

What a declaration leads to is found in rounds, each of which follows the
references of what the round before added. In a shortest chain each reference
comes from another declaration, so as many rounds as there are declarations are
enough.
-/

namespace Marshal

/-- A named type. Its body uses the parameters `0` to `params - 1`; a body that
is itself a reference makes it an alias. -/
structure Decl where
  key : Key
  params : Nat
  body : TyId
  deriving DecidableEq, Repr

/-- Declarations with their tags. -/
structure Catalog where
  decls : List Decl
  recursive : List Key
  irregular : List Key
  deriving DecidableEq, Repr

namespace Catalog

/-- The declaration of a key among `decls`. -/
def lookup (decls : List Decl) (key : Key) : Option Decl :=
  decls.find? fun d => d.key = key

/-- One more declaration; a key can be declared once, even with the same
body. -/
def add (decls : List Decl) (d : Decl) : Except Fault (List Decl) :=
  match lookup decls d.key with
  | some _ => .error (.duplicate d.key.module d.key.name)
  | none => .ok (decls ++ [d])

/-! ## References between declarations -/

/-- The references of a body with their arguments. -/
def references (a : Arena) (body : TyId) : List (Key × List TyId) :=
  (a.mentions body).filterMap fun ty =>
    match a.term? ty with
    | some (.named key args) => some (key, args)
    | _ => none

/-- A declared key with the keys that its body refers to. -/
abbrev Edges := List (Key × List Key)

def edges (a : Arena) (decls : List Decl) : Edges :=
  decls.map fun d => (d.key, (references a d.body).map Prod.fst)

/-- The keys that a key refers to; none if it is not declared. -/
def targets (e : Edges) (key : Key) : List Key := (e.lookup key).getD []

/-- Of some keys those that are not among the found ones, each once. -/
def unseen (found : List Key) (keys : List Key) : List Key :=
  keys.foldl (fun new k => if found.contains k || new.contains k then new else new ++ [k]) []

/-- Rounds of following references. `last` is what the round before added. -/
def spread (e : Edges) : Nat → List Key → List Key → List Key
  | 0, found, _ => found
  | rounds + 1, found, last =>
    match unseen found (last.flatMap (targets e)) with
    | [] => found
    | new => spread e rounds (new ++ found) new

/-- The keys that a key leads to in one step or more. -/
def reachable (e : Edges) (key : Key) : List Key := spread e e.length [] [key]

def leadsTo (e : Edges) (source target : Key) : Bool := (reachable e source).contains target

/-! ## Building a catalog -/

/-- A reference to `target` with these arguments lies on a cycle of `key` and
is applied to more than bare parameters. -/
def grows (a : Arena) (e : Edges) (recursive : List Key) (key target : Key)
    (args : List TyId) : Bool :=
  recursive.contains target &&
    (args.any fun arg => !((a.term? arg).map Term.isVar).getD false) && leadsTo e target key

/-- The declarations, tagged. -/
def ofDecls (a : Arena) (decls : List Decl) : Catalog :=
  let e := edges a decls
  let recursive := (decls.map Decl.key).filter fun key => leadsTo e key key
  let irregular := (decls.filter fun d => recursive.contains d.key &&
    (references a d.body).any fun (target, args) => grows a e recursive d.key target args).map
      Decl.key
  ⟨decls, recursive, irregular⟩

/-! ## Looking things up -/

def find? (c : Catalog) (key : Key) : Option Decl := lookup c.decls key

def size (c : Catalog) : Nat := c.decls.length

def isRecursive (c : Catalog) (key : Key) : Bool := c.recursive.contains key

def isRegular (c : Catalog) (key : Key) : Bool := !c.irregular.contains key

/-- All declared names, sorted. -/
def names (c : Catalog) : List String :=
  (c.decls.map fun d => d.key.text).mergeSort fun x y => decide (x ≤ y)

end Catalog

end Marshal
