import Marshal.Value.Variant

/-!
# Running steps

Runs a step on a value. Wrapping a function only makes a new function, whose
calls are run elsewhere (`Marshal.Run.Call`), so no function is called here.

A `recurse` step looks its body up in a table of fixpoints when it is reached,
one layer of a recursive value at a time. How deep a run may go is bounded.
-/

namespace Marshal.Run

/-- A keyed record to an array in the order of the slots. -/
def wrapRecord (slots : List RecordSlot) (v : Value) : Except Fault Value :=
  match v with
  | .object entries => (slots.mapM (element entries)).map .array
  | v => .error (.shape "record" v.kind)
where
  element (entries : List (String × Value)) (slot : RecordSlot) : Except Fault Value :=
    match Value.findKey slot.name entries with
    | some field => .ok field
    | none =>
      if slot.optional then .ok .absent
      else .error (.shape ("record with field '" ++ slot.name ++ "'") "record without it")

def lengthText (n : Nat) : String := "array of length " ++ toString n

/-- An array in the order of the slots to a keyed record. Leaving a key out is
how a keyed record says that a field is absent. -/
def unwrapRecord (slots : List RecordSlot) (v : Value) : Except Fault Value :=
  match v with
  | .array items =>
    if items.length = slots.length then
      .ok (.object (((slots.map RecordSlot.name).zip items).filter fun e => !e.2.isAbsent))
    else
      .error (.shape ("record of " ++ toString slots.length ++ " fields")
        (lengthText items.length))
  | v => .error (.shape "positional record" v.kind)

def missingBody : String := "the plan does not contain this recursive type's converter"

/-- Runs `f` on the present entries under a key and keeps all others. -/
def atKey (f : Value → Run Value) (key : String) (e : String × Value) :
    Run (String × Value) :=
  if e.1 = key ∧ e.2.isAbsent = false then do pure (e.1, ← f e.2) else pure e

/-- One layer of a run; `sub` runs the steps below. -/
def applyLayer (table : FixTable) (sub : Step → Value → Run Value) (step : Step)
    (v : Value) : Run Value :=
  match step with
  | .identity => pure v
  | .wrapRecord slots => ofExcept (wrapRecord slots v)
  | .unwrapRecord slots => ofExcept (unwrapRecord slots v)
  | .mapOption inner =>
    match v with
    | .absent => pure .absent
    | v => sub inner v
  | .mapNullable inner =>
    match v with
    | .null => pure .null
    | .absent => pure .absent
    | v => sub inner v
  | .atField name inner =>
    match v with
    | .object entries => do pure (.object (← entries.mapM (atKey (sub inner) name)))
    | v => fail (.shape "record" v.kind)
  | .adaptArity adapter => do
    let callee ← expectFn v
    newFn adapter.arity (.adapt adapter callee)
  | .substituteDefault lit =>
    match v with
    | .absent => pure (.ofLiteral lit)
    | v => pure v
  | .passBox _ =>
    match v with
    | .box b => pure (.box b)
    | v => fail (.shape "ref" v.kind)
  | .rebuildBox inner =>
    match v with
    | .box b => do newBox (← sub inner (← read b))
    | v => fail (.shape "ref" v.kind)
  | .sequence steps => steps.foldlM (fun v step => sub step v) v
  | .mapElements steps =>
    match v with
    | .array items =>
      if items.length = steps.length then do
        pure (.array (← (items.zip steps).mapM fun (item, step) => sub step item))
      else
        fail (.shape (lengthText steps.length) (lengthText items.length))
    | v => fail (.shape "array" v.kind)
  | .mapArray inner =>
    match v with
    | .array items => do pure (.array (← items.mapM (sub inner)))
    | v => fail (.shape "array" v.kind)
  | .retag source target cases => do
    let (index, payload) ← ofExcept (Variant.decode source cases v)
    let step := (cases[index]?).bind CaseStep.payload
    match step, payload with
    | some step, some payload => do
      let converted ← sub step payload
      pure (Variant.encode target cases index (some converted))
    | _, _ => pure (Variant.encode target cases index none)
  | .wrapFunction args ret => do
    let callee ← expectFn v
    newFn args.length (.convert table args ret callee)
  | .recurse target direction =>
    match table.find? target with
    | some body => sub (body.step direction) v
    | none => fail (.unsupported target.text missingBody)

/-- Runs a step, to a bounded depth. -/
def applyWithin (table : FixTable) : Nat → Step → Value → Run Value
  | 0, _, _ => throw .outOfFuel
  | depth + 1, step, v => applyLayer table (applyWithin table depth) step v

/-- Runs one half of a converter, to a bounded depth. -/
def convertWithin (table : FixTable) (depth : Nat) (c : Converter) (d : Direction)
    (v : Value) : Run Value :=
  applyWithin table depth (c.step d) v

end Marshal.Run
