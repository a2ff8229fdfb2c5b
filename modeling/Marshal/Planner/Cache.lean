import Marshal.Converter

/-!
# The shared cache

Converters that several planners share. The first converter offered for a type
stays, and everyone who offers one later receives that one, so there is one
instance per type. Bodies of recursive types are kept in the same way beside
them.

Planners may run at the same time. What the others offer is laid out as a
schedule: before each access the next batch of their offers arrives. A planner
that is alone has an empty schedule.
-/

namespace Marshal

/-- An entry that some planner puts forward. -/
inductive Offer where
  | converter (ty : TyId) (c : Converter)
  | body (ty : TyId) (c : Converter)
  deriving DecidableEq

structure Cache where
  converters : List (TyId × Converter)
  bodies : List (TyId × Converter)
  /-- What other planners are going to offer, one batch for each access. -/
  incoming : List (List Offer)
  deriving DecidableEq

namespace Cache

def empty : Cache := ⟨[], [], []⟩

/-- Adds an entry unless there is one; answers the entry that stays. -/
def settle (entries : List (TyId × Converter)) (ty : TyId) (c : Converter) :
    Converter × List (TyId × Converter) :=
  match entries.lookup ty with
  | some old => (old, entries)
  | none => (c, (ty, c) :: entries)

/-- Takes in what another planner offers. -/
def receive (k : Cache) : Offer → Cache
  | .converter ty c => { k with converters := (settle k.converters ty c).2 }
  | .body ty c => { k with bodies := (settle k.bodies ty c).2 }

/-- The cache as an access finds it. -/
def arrive (k : Cache) : Cache :=
  match k.incoming with
  | [] => k
  | batch :: later => batch.foldl receive { k with incoming := later }

/-- All entries, as offers. -/
def offers (k : Cache) : List Offer :=
  k.bodies.map (fun e => .body e.1 e.2) ++ k.converters.map fun e => .converter e.1 e.2

/-- Takes in all entries of another cache. -/
def absorb (k other : Cache) : Cache := other.offers.foldl receive k

def size (k : Cache) : Nat := k.converters.length

def converter? (k : Cache) (ty : TyId) : Option Converter := k.converters.lookup ty

def body? (k : Cache) (ty : TyId) : Option Converter := k.bodies.lookup ty

/-! ## Accesses -/

def get (ty : TyId) (k : Cache) : Option Converter × Cache :=
  let k := k.arrive
  (k.converter? ty, k)

def getBody (ty : TyId) (k : Cache) : Option Converter × Cache :=
  let k := k.arrive
  (k.body? ty, k)

/-- Offers a converter; answers the one that is in the cache from now on. -/
def offer (ty : TyId) (c : Converter) (k : Cache) : Converter × Cache :=
  let k := k.arrive
  let (kept, entries) := settle k.converters ty c
  (kept, { k with converters := entries })

def offerBody (ty : TyId) (c : Converter) (k : Cache) : Converter × Cache :=
  let k := k.arrive
  let (kept, entries) := settle k.bodies ty c
  (kept, { k with bodies := entries })

end Cache

end Marshal
