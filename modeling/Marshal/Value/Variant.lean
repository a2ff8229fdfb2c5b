import Marshal.Value.Basic

/-!
# Carriers of variants

Reading and writing a constructor with its payload in either carrier. `encode`
writes the constructor at a position of the list of cases; `decode` finds the
position again. Nullary constructors and those with a payload are looked up
apart, by name or by number.
-/

namespace Marshal.Variant

/-- The position of the case with this name that is nullary, or has a payload,
as asked for. -/
def byName (cases : List CaseStep) (name : String) (nullary : Bool) : Except Fault Nat :=
  match cases.findIdx? fun c => c.name = name && c.isNullary == nullary with
  | some i => .ok i
  | none => .error (.shape "a declared constructor" ("constructor '" ++ name ++ "'"))

/-- The positions of the nullary cases, or of those with a payload. -/
def positions (cases : List CaseStep) (nullary : Bool) : List Nat :=
  (List.range cases.length).filter fun i =>
    (cases[i]?.map CaseStep.isNullary) == some nullary

/-- The position of the case with this number among those of its sort. -/
def byNumber (cases : List CaseStep) (number : Nat) (nullary : Bool) : Except Fault Nat :=
  match (positions cases nullary)[number]? with
  | some i => .ok i
  | none =>
    let sort := if nullary then "constant" else "block"
    .error (.shape "a declared constructor" (sort ++ " " ++ toString number))

/-- How many cases of the sort of the case at `index` stand before it. -/
def numberOf (cases : List CaseStep) (index : Nat) (nullary : Bool) : Nat :=
  ((cases.take index).filter fun c => c.isNullary == nullary).length

/-- The value is not of the carrier at all. -/
def wrongCarrier (carrier : VariantCarrier) (v : Value) : Fault :=
  .shape (carrier.name ++ " variant") v.kind

/-- The position of the constructor that a value carries, and its payload. -/
def decode (carrier : VariantCarrier) (cases : List CaseStep) (v : Value) :
    Except Fault (Nat × Option Value) :=
  match carrier, v with
  | .tagged, .str name => do pure (← byName cases name true, none)
  | .tagged, .object entries =>
    match Value.findKey "tag" entries with
    | some (.str name) => do
      pure (← byName cases name false, some ((Value.findKey "value" entries).getD .absent))
    | _ => .error (.shape "tagged variant" "object without a tag")
  | .indexed, .int n =>
    if 0 ≤ n.toInt then do pure (← byNumber cases n.toInt.toNat true, none)
    else .error (wrongCarrier carrier v)
  | .indexed, .block tag [payload] => do
    pure (← byNumber cases tag.toNat false, some payload)
  | carrier, v => .error (wrongCarrier carrier v)

/-- The constructor at a position, with its payload if it has one. -/
def encode (carrier : VariantCarrier) (cases : List CaseStep) (index : Nat)
    (payload : Option Value) : Value :=
  match cases[index]? with
  | none => .absent
  | some case =>
    match carrier, payload with
    | .tagged, none => .str case.name
    | .tagged, some p => .object [("tag", .str case.name), ("value", p)]
    | .indexed, none => .int (Int64.ofNat (numberOf cases index case.isNullary))
    | .indexed, some p => .block (UInt32.ofNat (numberOf cases index case.isNullary)) [p]

end Marshal.Variant
