import Marshal.Ty.Arena

/-!
# Walking types

Read-only traversals: the references to declarations that occur in a type, and
a count of the nodes met on the way with the greatest depth. A reference is
entered through its arguments only, never through its declaration.
-/

namespace Marshal.Arena

/-- Adds the references of a type to those found before it, each once, a node
before its children. Subtrees without a reference are not entered. -/
def collectMentions (a : Arena) : Nat → List TyId → TyId → List TyId
  | 0, found, _ => found
  | depth + 1, found, ty =>
    if (a.flags ty).hasReference then
      let found := if a.isReference ty && !found.contains ty then found ++ [ty] else found
      match a.term? ty with
      | none => found
      | some t => t.children.foldl (a.collectMentions depth) found
    else
      found

/-- The references that occur in a type, in the order in which they are first
met. -/
def mentions (a : Arena) (ty : TyId) : List TyId := a.collectMentions (ty.index + 1) [] ty

/-- How many nodes a full traversal meets, a shared one as often as it is met,
and how deep it goes. -/
structure Census where
  nodes : Nat
  depth : Nat
  deriving DecidableEq, Repr

/-- The census of the children of a node, under that node. -/
def Census.over (children : List Census) : Census :=
  ⟨1 + (children.map Census.nodes).foldl (· + ·) 0, 1 + (children.map Census.depth).foldl max 0⟩

def censusUpTo (a : Arena) : Nat → TyId → Census
  | 0, _ => ⟨0, 0⟩
  | depth + 1, ty =>
    match a.term? ty with
    | none => Census.over []
    | some t => Census.over (t.children.map (a.censusUpTo depth))

def census (a : Arena) (ty : TyId) : Census := a.censusUpTo (ty.index + 1) ty

end Marshal.Arena
