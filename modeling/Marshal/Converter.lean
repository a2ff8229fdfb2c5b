import Marshal.Step

/-!
# Converters

How the values of a type pass between the host and the native side: unchanged,
or by two steps, one for each direction.

A converter that converts is made once and then handed out for every occurrence
of its type. To make sharing visible it carries a stamp, drawn from a supply
when it is made. `sharesInstance` compares stamps. Two converters are otherwise
the same when their contents are, whatever their stamps.
-/

namespace Marshal

/-- A converter, by its steps; `stamp` tells instances apart. -/
inductive Converter where
  | identity
  | custom (stamp : Nat) (forward backward : Step)
  deriving DecidableEq

namespace Converter

instance : Inhabited Converter := ⟨.identity⟩

def isIdentity : Converter → Bool
  | .identity => true
  | .custom _ _ _ => false

/-- The steps without the stamp. -/
def content : Converter → Option (Step × Step)
  | .identity => none
  | .custom _ f b => some (f, b)

/-- Both convert in the same way. -/
def sameContent (a b : Converter) : Bool := decide (a.content = b.content)

/-- Both are identity, or one and the same instance. -/
def sharesInstance : Converter → Converter → Bool
  | .identity, .identity => true
  | .custom a _ _, .custom b _ _ => a == b
  | _, _ => false

/-- One half. -/
def step : Converter → Direction → Step
  | .identity, _ => .identity
  | .custom _ f _, .forward => f
  | .custom _ _ b, .backward => b

def forward (c : Converter) : Step := c.step .forward

def backward (c : Converter) : Step := c.step .backward

/-- All steps of both halves, outer ones first. -/
def subSteps : Converter → List Step
  | .identity => []
  | .custom _ f b => f.subStepsOnto b.subSteps

/-- Keeps the first of equal ids. -/
def distinct (ids : List TyId) : List TyId :=
  ids.foldl (fun acc t => if acc.contains t then acc else acc ++ [t]) []

/-- The recursive types that a converter defers to, in the order in which they
are met. -/
def targets (c : Converter) : List TyId := distinct (c.subSteps.filterMap Step.target?)

/-! ## Making converters

A new instance takes the next stamp of a supply. -/

/-- A converter with this content, a new instance if it converts. -/
def ofContent : Option (Step × Step) → Nat → Converter × Nat
  | none, supply => (.identity, supply)
  | some (f, b), supply => (.custom supply f b, supply + 1)

/-- `wrap` around both halves, if there are any. -/
def wrapped (wrap : Step → Step) (c : Converter) : Option (Step × Step) :=
  c.content.map fun (f, b) => (wrap f, wrap b)

/-- A converter with `wrap` around both halves; identity stays identity. -/
def wrapBoth (wrap : Step → Step) (c : Converter) : Nat → Converter × Nat :=
  ofContent (c.wrapped wrap)

end Converter

/-- Fixpoint bodies of recursive types, in ascending order of ids. -/
structure FixTable where
  entries : List (TyId × Converter)
  deriving DecidableEq

namespace FixTable

def empty : FixTable := ⟨[]⟩

def find? (t : FixTable) (ty : TyId) : Option Converter := t.entries.lookup ty

def contains (t : FixTable) (ty : TyId) : Bool := (t.find? ty).isSome

def ids (t : FixTable) : List TyId := t.entries.map Prod.fst

def insertEntry (ty : TyId) (c : Converter) :
    List (TyId × Converter) → List (TyId × Converter)
  | [] => [(ty, c)]
  | (u, d) :: rest =>
    if ty.index < u.index then (ty, c) :: (u, d) :: rest
    else if ty = u then (ty, c) :: rest
    else (u, d) :: insertEntry ty c rest

/-- Puts a body, in place of an older one if there is one. -/
def insert (t : FixTable) (ty : TyId) (c : Converter) : FixTable :=
  ⟨insertEntry ty c t.entries⟩

/-! ## What a converter needs

The bodies that are needed from some targets on, found with a stack: the target
on top is looked up, and the targets of its body are put on top of the rest,
the last of them uppermost. A target is visited once, so the number of turns is
at most the number of all targets in play. -/

/-- Visits the targets on the stack; those without a body are visited too. -/
def visit (t : FixTable) : Nat → List TyId → List TyId → List TyId
  | 0, _, seen => seen
  | _ + 1, [], seen => seen
  | turns + 1, ty :: stack, seen =>
    if seen.contains ty then
      t.visit turns stack seen
    else
      let next := ((t.find? ty).map Converter.targets).getD []
      t.visit turns (next.reverse ++ stack) (seen ++ [ty])

/-- A bound on the turns of `visit` from some targets. -/
def turns (t : FixTable) (roots : List TyId) : Nat :=
  t.entries.foldl (fun n e => n + e.2.targets.length) (1 + roots.length)

/-- Everything needed from `roots`, in the order of visits. -/
def needed (t : FixTable) (roots : List TyId) : List TyId :=
  if roots.isEmpty then [] else t.visit (t.turns roots) roots.reverse []

end FixTable

end Marshal
