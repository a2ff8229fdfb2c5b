/-!
# Runtime profiles and options

The two runtimes may carry the same value in different ways. A profile says
which way a runtime carries records and variants; comparing the profiles of the
host and of the native side tells which shapes have to be converted.
-/

namespace Marshal

/-- How a record is carried: by field name, or in declared order. -/
inductive RecordCarrier where
  | keyed
  | positional
  deriving DecidableEq, Repr

/-- How a variant is carried. Tagged: a nullary constructor is its name, any
other an object of tag and value. Indexed: a nullary constructor is its index
among the nullary ones, any other a block with one field, tagged with its index
among those that have a payload. -/
inductive VariantCarrier where
  | tagged
  | indexed
  deriving DecidableEq, Repr

def VariantCarrier.name : VariantCarrier → String
  | .tagged => "tagged"
  | .indexed => "indexed"

/-- The carriers of one runtime. -/
structure Profile where
  records : RecordCarrier
  variants : VariantCarrier
  deriving DecidableEq, Repr

namespace Profile

/-- Objects with named fields and constructor names. -/
def host : Profile := ⟨.keyed, .tagged⟩

/-- Arrays and constructor numbers. -/
def native : Profile := ⟨.positional, .indexed⟩

end Profile

/-- What to do with a cell whose contents have to be converted. The other side
would receive a different cell, so it is either allowed, and reported, or
refused. -/
inductive RefPolicy where
  | allowRebuild
  | preserve
  deriving DecidableEq, Repr

structure Options where
  host : Profile
  native : Profile
  refs : RefPolicy
  deriving DecidableEq, Repr

def Options.standard : Options := ⟨.host, .native, .allowRebuild⟩

/-- Options of a batch; `parallel` allows its modules to be analysed at once. -/
structure BatchSettings where
  planner : Options
  parallel : Bool
  deriving DecidableEq, Repr

def BatchSettings.standard : BatchSettings := ⟨.standard, true⟩

end Marshal
