import Marshal.Catalog.Resolve
import Marshal.Path
import Marshal.Planner.Cache

/-!
# The state of planning

What a planner remembers from one call to the next, what it needs while it is
at work, and what it shares with other planners: the arena, the supply of
stamps and the cache.

What has to be undone however work ends, such as a segment on the path or a
guess, is written with `bracket` and `atPlace`, so no rule has to restore
anything itself.
-/

namespace Marshal

/-- A recursive type that is being planned, with the number of lazily converted
positions around the place where it was entered. -/
structure Pending where
  ty : TyId
  lazyDepth : Nat
  deriving DecidableEq, Repr

structure Planner where
  /-- Uses the shared cache. -/
  caching : Bool
  /-- Settled converters. -/
  settled : List (TyId × Converter)
  /-- Bodies of recursive types. -/
  fixpoints : FixTable
  /-- What is guessed of the recursive types that are open. -/
  guesses : List (TyId × Converter)
  /-- The open types, innermost first. -/
  pending : List Pending
  /-- The guesses that were used, in order. -/
  uses : List TyId
  /-- How many enclosing positions are converted lazily. -/
  lazyDepth : Nat
  /-- The way from the planned type to the current one, innermost place first. -/
  path : List Segment
  /-- The path of the first fault that was not asked for yet, outermost place
  first. -/
  faultPath : Option (List Segment)
  deriving DecidableEq

namespace Planner

def new (caching : Bool) : Planner :=
  { caching, settled := [], fixpoints := .empty, guesses := [], pending := [], uses := [],
    lazyDepth := 0, path := [], faultPath := none }

def guess? (p : Planner) (ty : TyId) : Option Converter := p.guesses.lookup ty

def dropGuess (p : Planner) (ty : TyId) : Planner :=
  { p with guesses := p.guesses.filter fun e => e.1 ≠ ty }

/-- Guesses a converter for an open type, in place of an earlier guess. -/
def setGuess (p : Planner) (ty : TyId) (c : Converter) : Planner :=
  { p with guesses := (ty, c) :: (p.dropGuess ty).guesses }

/-- Enters a recursive type, with the guess that nothing has to be done for it. -/
def enter (p : Planner) (ty : TyId) : Planner :=
  { p.setGuess ty .identity with pending := ⟨ty, p.lazyDepth⟩ :: p.pending }

def leave (p : Planner) (ty : TyId) : Planner :=
  { p.dropGuess ty with pending := p.pending.tail }

/-- Where an open type was entered. -/
def enteredAt (p : Planner) (ty : TyId) : Option Nat :=
  (p.pending.find? fun o => o.ty = ty).map Pending.lazyDepth

def logUse (p : Planner) (ty : TyId) : Planner := { p with uses := p.uses ++ [ty] }

/-- Forgets the uses after the first `mark`. -/
def truncateUses (p : Planner) (mark : Nat) : Planner := { p with uses := p.uses.take mark }

/-- The uses after the first `mark` of guesses that are still open, each once. -/
def liveUses (p : Planner) (mark : Nat) : List TyId :=
  Converter.distinct ((p.uses.drop mark).filter fun ty => (p.guess? ty).isSome)

/-- Keeps of the uses after the first `mark` what `liveUses` says. -/
def keepLiveUses (p : Planner) (mark : Nat) : Planner :=
  { p with uses := p.uses.take mark ++ p.liveUses mark }

def remember (p : Planner) (ty : TyId) (c : Converter) : Planner :=
  { p with settled := (ty, c) :: p.settled }

def setBody (p : Planner) (ty : TyId) (c : Converter) : Planner :=
  { p with fixpoints := p.fixpoints.insert ty c }

def push (p : Planner) (s : Segment) : Planner := { p with path := s :: p.path }

def pop (p : Planner) : Planner := { p with path := p.path.tail }

/-- Keeps the current path for the first fault. -/
def noteFault (p : Planner) : Planner :=
  match p.faultPath with
  | some _ => p
  | none => { p with faultPath := some p.path.reverse }

/-- The path of the first fault since the last time, which is then forgotten. -/
def takePath (p : Planner) : List Segment × Planner :=
  (p.faultPath.getD [], { p with faultPath := none })

end Planner

/-- What all planners work on together. -/
structure Shared where
  arena : Arena
  supply : Nat
  cache : Cache
  deriving DecidableEq

structure PlanState where
  shared : Shared
  planner : Planner
  deriving DecidableEq

/-- Planning: it may halt, and what it did to the state stays. -/
abbrev PlanM := ExceptT Halt (StateM PlanState)

namespace PlanM

variable {α : Type}

def fail (f : Fault) : PlanM α := throw (.fault f)

def arena : PlanM Arena := do pure (← get).shared.arena

def planner : PlanM Planner := do pure (← get).planner

def modifyPlanner (f : Planner → Planner) : PlanM Unit :=
  modify fun s => { s with planner := f s.planner }

def ofExcept : Except Fault α → PlanM α
  | .ok v => pure v
  | .error f => fail f

/-- Work on the shared arena. -/
def onArena (x : ArenaM α) : PlanM α := fun ⟨⟨arena, supply, cache⟩, planner⟩ =>
  let (r, arena) := x arena
  (r.mapError .fault, ⟨⟨arena, supply, cache⟩, planner⟩)

/-- An access to the shared cache. -/
def onCache (f : Cache → α × Cache) : PlanM α := fun s =>
  let (v, cache) := f s.shared.cache
  (.ok v, { s with shared := { s.shared with cache } })

/-- A converter with this content, a new instance if it converts. -/
def make (content : Option (Step × Step)) : PlanM Converter := fun s =>
  let (c, supply) := Converter.ofContent content s.shared.supply
  (.ok c, { s with shared := { s.shared with supply } })

/-- Changes the planner before and after, however the work ends. -/
def bracket (enter leave : Planner → Planner) (x : PlanM α) : PlanM α := fun s =>
  let (r, s) := x { s with planner := enter s.planner }
  (r, { s with planner := leave s.planner })

/-- Work at a place of the type. If it halts, the place is noted. -/
def atPlace (place : Segment) (x : PlanM α) : PlanM α := fun s =>
  let (r, s) := x { s with planner := s.planner.push place }
  match r with
  | .ok v => (.ok v, { s with planner := s.planner.pop })
  | .error h => (.error h, { s with planner := s.planner.noteFault.pop })

/-- Work at a position whose values are converted when they are met. -/
def onDemand (x : PlanM α) : PlanM α :=
  bracket (fun p => { p with lazyDepth := p.lazyDepth + 1 })
    (fun p => { p with lazyDepth := p.lazyDepth - 1 }) x

/-- Work after which, if it halts, the uses that it logged are forgotten. -/
def dropUsesOnHalt (x : PlanM α) : PlanM α := fun s =>
  let mark := s.planner.uses.length
  match x s with
  | (.ok v, s) => (.ok v, s)
  | (.error h, s) => (.error h, { s with planner := s.planner.truncateUses mark })

def shown (ty : TyId) : PlanM String := do pure ((← arena).text ty)

end PlanM

end Marshal
