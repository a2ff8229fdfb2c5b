import Marshal.Ty.Arena

/-!
# Rewriting types

A fold rebuilds a type from the bottom: it rewrites the children from left to
right, puts them into the term and interns the result, so an unchanged subtree
comes back with its own id. What is rewritten is decided by a function that is
asked first at every node and may answer with another type.

`instantiate` is the fold that replaces the parameters of a generic declaration
by arguments. It does not enter subtrees without a parameter.
-/

namespace Marshal.Arena

/-- Asked at a node before its children: the type to put there, or `none` to go
on below. -/
abbrev Rewrite := Arena → TyId → Option TyId

/-- Rewrites everything up to a number of layers below `ty`. Scalars, parameters
and opaque types are returned as they are. -/
def foldUpTo (rewrite : Rewrite) : Nat → TyId → StateM Arena TyId
  | 0, ty => pure ty
  | depth + 1, ty => do
    let a ← get
    match rewrite a ty with
    | some out => pure out
    | none =>
      match a.term? ty with
      | none => pure ty
      | some t =>
        if t.isLeaf then
          pure ty
        else
          let ids ← t.children.mapM (foldUpTo rewrite depth)
          intern (t.rebuild ids)

/-- Rewrites a type. Ids fall from parent to child, so the layers below a type
are at most as many as its id. -/
def fold (rewrite : Rewrite) (ty : TyId) : StateM Arena TyId :=
  foldUpTo rewrite (ty.index + 1) ty

/-- Rewrites nothing. -/
def keep : Rewrite := fun _ _ => none

/-- Puts `target` for every occurrence of `source`. -/
def replace (source target : TyId) : Rewrite := fun _ ty =>
  if ty = source then some target else none

/-- Puts arguments for parameters; a parameter beyond them stays. -/
def substitute (args : List TyId) : Rewrite := fun a ty =>
  if (a.flags ty).hasVar then
    match a.term? ty with
    | some (.var i) => some (args[i]?.getD ty)
    | _ => none
  else
    some ty

/-- A generic body with arguments for its parameters. -/
def instantiate (body : TyId) (args : List TyId) : StateM Arena TyId :=
  if args.isEmpty then pure body else fold (substitute args) body

end Marshal.Arena
