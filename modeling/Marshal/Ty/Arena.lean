import Marshal.Ty.Term

/-!
# The arena of types

An append-only array of terms in which the same structure is stored once. An id
is a position, so two types are structurally equal exactly when their ids are
equal, and since a term can only be stored after its children, ids fall from
parent to child.

Beside each term the arena keeps two flags, computed once: whether a type
parameter, or a reference to a declaration, occurs in the type. Traversals use
them to skip subtrees in which there is nothing to do.
-/

namespace Marshal

/-- What occurs somewhere in a type. -/
structure Flags where
  hasVar : Bool
  hasReference : Bool
  deriving DecidableEq, Repr

namespace Flags

def none : Flags := ⟨false, false⟩

def union (a b : Flags) : Flags := ⟨a.hasVar || b.hasVar, a.hasReference || b.hasReference⟩

/-- The flags as a bit set: one for a parameter, two for a reference. -/
def bits (f : Flags) : Nat := f.hasVar.toNat + 2 * f.hasReference.toNat

end Flags

/-- What a term contributes itself. -/
def Term.mark (t : Term) : Flags := ⟨t.isVar, t.isReference⟩

structure Node where
  term : Term
  flags : Flags
  deriving DecidableEq, Repr

/-- The types known so far, by id. -/
structure Arena where
  nodes : Array Node
  deriving DecidableEq, Repr

namespace Arena

/-- A new arena holds the five scalars. -/
def new : Arena := ⟨(Scalar.all.map fun s => ⟨.scalar s, .none⟩).toArray⟩

def size (a : Arena) : Nat := a.nodes.size

def node? (a : Arena) (ty : TyId) : Option Node := a.nodes[ty.index]?

def term? (a : Arena) (ty : TyId) : Option Term := (a.node? ty).map Node.term

/-- The flags of a stored type. -/
def flags (a : Arena) (ty : TyId) : Flags := ((a.node? ty).map Node.flags).getD .none

/-- The first of the next places, from `start` on, at which a term is stored. -/
def findFrom (a : Arena) (t : Term) : Nat → Nat → Option TyId
  | 0, _ => none
  | places + 1, start =>
    if a.term? ⟨start⟩ = some t then some ⟨start⟩ else a.findFrom t places (start + 1)

/-- Where a term is stored. It stands behind its children, so the places up to
the last of them need no look. -/
def find? (a : Arena) (t : Term) : Option TyId :=
  let start := t.children.foldl (fun start c => max start (c.index + 1)) 0
  a.findFrom t (a.size - start) start

/-- The flags of a term over the flags of its children. -/
def flagsOf (a : Arena) (t : Term) : Flags :=
  t.children.foldl (fun acc c => acc.union (a.flags c)) t.mark

/-- The arena with one more node at its end. -/
def push (a : Arena) (t : Term) : Arena := ⟨a.nodes.push ⟨t, a.flagsOf t⟩⟩

/-- The id of a term: the old one if the term is stored, else that of a new
node. -/
def intern (t : Term) : StateM Arena TyId := fun a =>
  match a.find? t with
  | some ty => (ty, a)
  | none => (⟨a.size⟩, a.push t)

/-- Whether a stored type is a reference to a declaration. -/
def isReference (a : Arena) (ty : TyId) : Bool := ((a.term? ty).map Term.isReference).getD false

end Arena

end Marshal
